import Mathlib.Data.List.Nodup

/-!
# Circular doubly linked lists

This module is independent of the repository.  The nodes of a circular list
carry two pointers each, and one of them is the head.  `Circular k h l` says
that the nodes from the head `h` back to it are `l`.  The two operations that
splice pointers are described by their effect on `l`, and so are the loops that
look for a node in either direction.
-/

namespace OsCa

open Function List

/-- The pointers of all nodes. -/
structure Links (ν : Type*) where
  next : ν → ν
  prev : ν → ν

namespace Links

variable {ν : Type*} (k : Links ν)

/-! ## Paths -/

/-- The pointers of `a` and `b` to each other. -/
def Joined (a b : ν) : Prop := k.next a = b ∧ k.prev b = a

/-- The nodes on the way from `a` to `b`. -/
def Path : ν → List ν → ν → Prop
  | a, [], b => k.Joined a b
  | a, x :: l, b => k.Joined a x ∧ Path x l b

/-- The list from the head back to it. -/
structure Circular (h : ν) (l : List ν) : Prop where
  nodup : (h :: l).Nodup
  path : k.Path h l h

/-- The list in the other direction. -/
def reverse : Links ν := ⟨k.prev, k.next⟩

variable {k} {k' : Links ν} {a b c h x : ν} {l l₁ l₂ : List ν}

theorem path_append : k.Path a (l₁ ++ x :: l₂) b ↔ k.Path a l₁ x ∧ k.Path x l₂ b := by
  induction l₁ generalizing a with
  | nil => exact Iff.rfl
  | cons y l₁ ih => rw [cons_append, Path, Path, ih, and_assoc]

/-- A path is given by the pointers of its nodes. -/
theorem Path.congr (hpath : k.Path a l b) (hnext : ∀ y ∈ a :: l, k'.next y = k.next y)
    (hprev : ∀ y ∈ l ++ [b], k'.prev y = k.prev y) : k'.Path a l b := by
  induction l generalizing a with
  | nil =>
    refine ⟨?_, ?_⟩
    · rw [hnext a mem_cons_self]
      exact hpath.1
    · rw [hprev b mem_cons_self]
      exact hpath.2
  | cons x l ih =>
    refine ⟨⟨?_, ?_⟩, ih hpath.2 ?_ ?_⟩
    · rw [hnext a mem_cons_self]
      exact hpath.1.1
    · rw [hprev x mem_cons_self]
      exact hpath.1.2
    · exact fun y hy => hnext y (mem_cons_of_mem a hy)
    · exact fun y hy => hprev y (mem_cons_of_mem x hy)

theorem Path.prev_mem (hpath : k.Path a l b) : k.prev b ∈ a :: l := by
  induction l generalizing a with
  | nil => exact hpath.2 ▸ mem_cons_self
  | cons x l ih => exact mem_cons_of_mem a (ih hpath.2)

/-- A path may go on to another node, if its last node is joined to that. -/
theorem Path.redirect (hpath : k.Path a l b) (hnodup : (a :: l).Nodup)
    (hnext : ∀ y ∈ a :: l, y ≠ k.prev b → k'.next y = k.next y)
    (hprev : ∀ y ∈ l, k'.prev y = k.prev y)
    (hlast : k'.Joined (k.prev b) c) : k'.Path a l c := by
  induction l generalizing a with
  | nil =>
    rw [hpath.2] at hlast
    exact hlast
  | cons x l ih =>
    obtain ⟨hnot, hrest⟩ := nodup_cons.mp hnodup
    have hne : a ≠ k.prev b := fun heq => hnot (heq ▸ hpath.2.prev_mem)
    refine ⟨⟨?_, ?_⟩, ih hpath.2 hrest ?_ ?_⟩
    · rw [hnext a mem_cons_self hne]
      exact hpath.1.1
    · rw [hprev x mem_cons_self]
      exact hpath.1.2
    · exact fun y hy => hnext y (mem_cons_of_mem a hy)
    · exact fun y hy => hprev y (mem_cons_of_mem x hy)

theorem Path.reverse (hpath : k.Path a l b) : k.reverse.Path b l.reverse a := by
  induction l generalizing a with
  | nil => exact ⟨hpath.2, hpath.1⟩
  | cons x l ih =>
    rw [reverse_cons, path_append]
    exact ⟨ih hpath.2, hpath.1.2, hpath.1.1⟩

/-- A list without nodes. -/
theorem circular_nil (hnext : k.next h = h) (hprev : k.prev h = h) : k.Circular h [] :=
  ⟨nodup_singleton h, hnext, hprev⟩

theorem Circular.reverse (hk : k.Circular h l) : k.reverse.Circular h l.reverse := by
  obtain ⟨hnot, hnodup⟩ := nodup_cons.mp hk.nodup
  refine ⟨nodup_cons.mpr ⟨?_, nodup_reverse.mpr hnodup⟩, hk.path.reverse⟩
  rwa [mem_reverse]

/-! ## Splicing -/

section Splice

variable [DecidableEq ν]

/-- `b->next->prev = b->prev; b->prev->next = b->next;` -/
def unlink (k : Links ν) (b : ν) : Links ν :=
  let k := { k with prev := update k.prev (k.next b) (k.prev b) }
  { k with next := update k.next (k.prev b) (k.next b) }

/-- `b->next = h->next; b->prev = h; h->next->prev = b; h->next = b;` -/
def insertAfter (k : Links ν) (h b : ν) : Links ν :=
  let k := { k with next := update k.next b (k.next h) }
  let k := { k with prev := update k.prev b h }
  let k := { k with prev := update k.prev (k.next h) b }
  { k with next := update k.next h b }

/-- `unlink` takes a node out of the list, wherever it is. -/
theorem Circular.unlink (hk : k.Circular h (l₁ ++ b :: l₂)) :
    (k.unlink b).Circular h (l₁ ++ l₂) := by
  obtain ⟨hfront, hback⟩ := path_append.mp hk.path
  have hnodup : (h :: l₁ ++ b :: l₂).Nodup := hk.nodup
  obtain ⟨hnodup₁, hnodup₂, hdisjoint⟩ := nodup_append.mp hnodup
  have hnext_mem : k.next b ∈ l₂ ++ [h] := by
    cases l₂ with
    | nil => exact hback.1 ▸ mem_cons_self
    | cons m l₂ => exact hback.1.1 ▸ mem_cons_self
  have hbnext : b ≠ k.next b := by
    intro heq
    rcases mem_append.mp hnext_mem with hmem | hmem
    · exact (nodup_cons.mp hnodup₂).1 (heq ▸ hmem)
    · refine hdisjoint h mem_cons_self b mem_cons_self ?_
      rw [heq, mem_singleton.mp hmem]
  have hnext : (k.unlink b).next = update k.next (k.prev b) (k.next b) := by
    unfold Links.unlink
    dsimp only
    rw [update_of_ne hbnext]
  have hprev : (k.unlink b).prev = update k.prev (k.next b) (k.prev b) := rfl
  have hjoined : (k.unlink b).Joined (k.prev b) (k.next b) := by
    rw [Joined, hnext, hprev, update_self, update_self]
    exact ⟨rfl, rfl⟩
  -- The nodes before `b` keep their pointers, except for the last one.
  have hfront' : (k.unlink b).Path h l₁ (k.next b) := by
    refine hfront.redirect hnodup₁ (fun y _ hy => ?_) (fun y hy => ?_) hjoined
    · rw [hnext, update_of_ne hy]
    · rw [hprev, update_of_ne]
      rintro rfl
      rcases mem_append.mp hnext_mem with hmem | hmem
      · exact hdisjoint _ (mem_cons_of_mem h hy) _ (mem_cons_of_mem b hmem) rfl
      · rw [mem_singleton.mp hmem] at hy
        exact (nodup_cons.mp hnodup₁).1 hy
  refine ⟨?_, ?_⟩
  · rw [← cons_append]
    exact nodup_append.mpr ⟨hnodup₁, (nodup_cons.mp hnodup₂).2,
      fun x hx y hy => hdisjoint x hx y (mem_cons_of_mem b hy)⟩
  · cases l₂ with
    | nil =>
      rw [hback.1] at hfront'
      rwa [append_nil]
    | cons m l₂ =>
      rw [hback.1.1] at hfront'
      refine path_append.mpr ⟨hfront', hback.2.congr (fun y hy => ?_) fun y hy => ?_⟩
      · rw [hnext, update_of_ne]
        rintro rfl
        exact hdisjoint _ hfront.prev_mem _ (mem_cons_of_mem b hy) rfl
      · rw [hprev, hback.1.1, update_of_ne]
        rintro rfl
        rcases mem_append.mp hy with hmem | hmem
        · exact (nodup_cons.mp (nodup_cons.mp hnodup₂).2).1 hmem
        · rw [mem_singleton.mp hmem] at hdisjoint
          exact hdisjoint h mem_cons_self h (mem_cons_of_mem b mem_cons_self) rfl

/-- `insertAfter` puts a node at the front of the list. -/
theorem Circular.insertAfter (hk : k.Circular h l) (hb : b ∉ h :: l) :
    (k.insertAfter h b).Circular h (b :: l) := by
  have hbh : b ≠ h := fun heq => hb (heq ▸ mem_cons_self)
  have hnext : (k.insertAfter h b).next = update (update k.next b (k.next h)) h b := rfl
  have hprev : (k.insertAfter h b).prev = update (update k.prev b h) (k.next h) b := by
    unfold Links.insertAfter
    dsimp only
    rw [update_of_ne hbh.symm]
  have hbnext : b ≠ k.next h := by
    intro heq
    cases l with
    | nil => exact hbh (heq.trans hk.path.1)
    | cons m l =>
      refine hb (mem_cons_of_mem h ?_)
      rw [heq, hk.path.1.1]
      exact mem_cons_self
  have hfirst : (k.insertAfter h b).Joined h b := by
    rw [Joined, hnext, hprev, update_self, update_of_ne hbnext, update_self]
    exact ⟨rfl, rfl⟩
  have hsecond : (k.insertAfter h b).Joined b (k.next h) := by
    rw [Joined, hnext, hprev, update_of_ne hbh, update_self, update_self]
    exact ⟨rfl, rfl⟩
  refine ⟨?_, hfirst, ?_⟩
  · obtain ⟨hnot, hnodup⟩ := nodup_cons.mp hk.nodup
    refine nodup_cons.mpr ⟨?_, nodup_cons.mpr ⟨fun hmem => hb (mem_cons_of_mem h hmem), hnodup⟩⟩
    rw [mem_cons]
    rintro (heq | hmem)
    · exact hbh heq.symm
    · exact hnot hmem
  · cases l with
    | nil =>
      rw [hk.path.1] at hsecond
      exact hsecond
    | cons m l =>
      rw [hk.path.1.1] at hsecond hprev
      refine ⟨hsecond, hk.path.2.congr (fun y hy => ?_) fun y hy => ?_⟩
      · rw [hnext, update_of_ne, update_of_ne]
        · rintro rfl
          exact hb (mem_cons_of_mem h hy)
        · rintro rfl
          exact (nodup_cons.mp hk.nodup).1 hy
      · have hym : y ≠ m := by
          rintro rfl
          obtain ⟨hnot, hnodup⟩ := nodup_cons.mp hk.nodup
          rcases mem_append.mp hy with hmem | hmem
          · exact (nodup_cons.mp hnodup).1 hmem
          · exact hnot (mem_singleton.mp hmem ▸ mem_cons_self)
        have hyb : y ≠ b := by
          rintro rfl
          rcases mem_append.mp hy with hmem | hmem
          · exact hb (mem_cons_of_mem h (mem_cons_of_mem m hmem))
          · exact hbh (mem_singleton.mp hmem)
        rw [hprev, update_of_ne hym, update_of_ne hyb]

/-- A node is moved to the front. -/
theorem Circular.moveToFront (hk : k.Circular h l) (hb : b ∈ l) :
    ((k.unlink b).insertAfter h b).Circular h (b :: l.erase b) := by
  obtain ⟨l₁, l₂, hnot, rfl, herase⟩ := exists_erase_eq hb
  rw [herase]
  refine hk.unlink.insertAfter ?_
  have hnodup := hk.nodup
  rw [← cons_append, nodup_append] at hnodup
  obtain ⟨-, hback, hdisjoint⟩ := hnodup
  rw [← cons_append, mem_append]
  rintro (hmem | hmem)
  · exact hdisjoint b hmem b mem_cons_self rfl
  · exact (nodup_cons.mp hback).1 hmem

/-- Nodes put to the front one after the other. -/
theorem Circular.insertAll (hk : k.Circular h l) (bs : List ν)
    (hbs : bs.Nodup) (hnew : ∀ b ∈ bs, b ∉ h :: l) :
    (bs.foldl (fun k b => k.insertAfter h b) k).Circular h (bs.reverse ++ l) := by
  induction bs generalizing k l with
  | nil => exact hk
  | cons b bs ih =>
    obtain ⟨hb, hbs⟩ := nodup_cons.mp hbs
    rw [foldl_cons, reverse_cons, append_assoc]
    refine ih (hk.insertAfter (hnew b mem_cons_self)) hbs ?_
    intro x hx hmem
    rcases mem_cons.mp hmem with rfl | hmem
    · exact hnew x (mem_cons_of_mem b hx) mem_cons_self
    · rcases mem_cons.mp hmem with rfl | hmem
      · exact hb hx
      · exact hnew x (mem_cons_of_mem b hx) (mem_cons_of_mem h hmem)

end Splice

/-! ## Searching -/

section Scan

variable [DecidableEq ν]

/-- `for(b = a; b != stop; b = step(b)) if(p(b)) return b;` for at most the
given number of rounds: `none` if the loop has not ended by then. -/
def scan (step : ν → ν) (stop : ν) (p : ν → Bool) : ℕ → ν → Option (Option ν)
  | 0, _ => none
  | fuel + 1, b =>
    if b = stop then some none
    else if p b then some (some b)
    else scan step stop p fuel (step b)

theorem Path.scan_eq {p : ν → Bool} {fuel : ℕ} (hpath : k.Path a l b)
    (hb : b ∉ l) (hfuel : l.length < fuel) :
    scan k.next b p fuel (k.next a) = some (l.find? p) := by
  induction l generalizing a fuel with
  | nil =>
    obtain ⟨fuel, rfl⟩ := Nat.exists_eq_succ_of_ne_zero (Nat.ne_zero_of_lt hfuel)
    rw [scan, if_pos hpath.1, find?_nil]
  | cons x l ih =>
    obtain ⟨fuel, rfl⟩ := Nat.exists_eq_succ_of_ne_zero (Nat.ne_zero_of_lt hfuel)
    have hx : x ≠ b := fun heq => hb (heq ▸ mem_cons_self)
    rw [hpath.1.1, scan, if_neg hx, find?_cons]
    cases p x with
    | true => rfl
    | false =>
      exact ih hpath.2 (fun hmem => hb (mem_cons_of_mem x hmem)) (Nat.lt_of_succ_lt_succ hfuel)

variable {p : ν → Bool} {fuel : ℕ}

/-- The search from the front finds the first node. -/
theorem Circular.scan_next (hk : k.Circular h l) (hfuel : l.length < fuel) :
    scan k.next h p fuel (k.next h) = some (l.find? p) :=
  hk.path.scan_eq (nodup_cons.mp hk.nodup).1 hfuel

/-- The search from the back finds the last node. -/
theorem Circular.scan_prev (hk : k.Circular h l) (hfuel : l.length < fuel) :
    scan k.prev h p fuel (k.prev h) = some (l.reverse.find? p) :=
  hk.reverse.scan_next (by rwa [length_reverse])

end Scan

end Links

/-! ## The last element with a property -/

/-- In a sorted list, all other elements come before the last one. -/
theorem pairwise_before_last {α : Type*} {r : α → α → Prop} {l : List α}
    {p : α → Bool} {a b : α} (h : l.Pairwise r)
    (hlast : l.reverse.find? p = some a) (hb : b ∈ l) (hp : p b = true)
    (hne : b ≠ a) : r b a := by
  obtain ⟨-, after, before, hrev, hafter⟩ := find?_eq_some_iff_append.mp hlast
  have hl : l = before.reverse ++ a :: after.reverse := by
    rw [← reverse_reverse l, hrev]
    simp
  have hmem : b ∈ before.reverse := by
    rw [hl, mem_append, mem_cons] at hb
    rcases hb with hb | hb | hb
    · exact hb
    · exact absurd hb hne
    · have hnot := hafter b (mem_reverse.mp hb)
      rw [hp] at hnot
      exact absurd hnot (by decide)
  rw [hl, pairwise_append] at h
  exact h.2.2 b hmem a mem_cons_self

end OsCa
