import Mathlib.Data.List.Chain
import Mathlib.Data.List.Nodup

/-!
# Circular doubly linked lists

This module is independent of the repository.  The nodes of a circular doubly
linked list are given by two functions, `next` and `prev`.  `IsRing next prev
l` says that following `next` from the head of `l` visits the elements of `l`
in order and returns to the head, and that `prev` undoes `next`.

The lemmas describe the three operations on such a list: turning it by one
node, splicing in a node before the head, and removing the head.
-/

namespace OsCa.Ring

open Function List

variable {α : Type*}

/-- `next` leads from `a` to `b`, and `prev` leads back. -/
def Link (next prev : α → α) (a b : α) : Prop := next a = b ∧ prev b = a

structure IsRing (next prev : α → α) (l : List α) : Prop where
  nodup : l.Nodup
  linked : l.IsChain (Link next prev)
  closed : ∀ a b, l.getLast? = some a → l.head? = some b → Link next prev a b

variable {next prev : α → α} {x y t : α} {l : List α}

theorem isRing_nil : IsRing next prev [] := ⟨nodup_nil, isChain_nil, by simp⟩

theorem isRing_singleton (hnext : next x = x) (hprev : prev x = x) : IsRing next prev [x] := by
  refine ⟨nodup_singleton x, isChain_singleton x, ?_⟩
  rintro a b ha hb
  obtain rfl : x = a := by simpa using ha
  obtain rfl : x = b := by simpa using hb
  exact ⟨hnext, hprev⟩

theorem IsRing.next_of_singleton (h : IsRing next prev [x]) : next x = x := (h.closed x x rfl rfl).1

theorem IsRing.next_of_cons (h : IsRing next prev (x :: y :: l)) : next x = y :=
  (isChain_cons_cons.mp h.linked).1.1

/-- The last element is the predecessor of the head. -/
theorem IsRing.getLast_eq_prev (h : IsRing next prev (x :: l)) :
    (x :: l).getLast? = some (prev x) ∧ next (prev x) = x := by
  have hlast : (x :: l).getLast? = some ((x :: l).getLast (by simp)) :=
    getLast?_eq_some_getLast (by simp)
  obtain ⟨hnext, hprev⟩ := h.closed _ x hlast rfl
  rw [hlast, hprev]
  exact ⟨rfl, hnext⟩

theorem IsRing.prev_mem (h : IsRing next prev (x :: l)) : prev x ∈ x :: l :=
  mem_of_getLast? h.getLast_eq_prev.1

/-- The list has a single element exactly when its head is its own
successor. -/
theorem IsRing.next_eq_self_iff (h : IsRing next prev (x :: l)) : next x = x ↔ l = [] := by
  cases l with
  | nil => simp [h.next_of_singleton]
  | cons y l =>
    have hne : x ≠ y := by
      have := h.nodup
      simp only [nodup_cons, mem_cons, not_or] at this
      exact this.1.1
    simp [h.next_of_cons, Ne.symm hne]

/-! ## Following the pointers -/

theorem IsRing.iterate_next (h : IsRing next prev (x :: l)) :
    (∀ i (hi : i < (x :: l).length), next^[i] x = (x :: l)[i]) ∧ next^[(x :: l).length] x = x := by
  have hwalk : ∀ i (hi : i < (x :: l).length), next^[i] x = (x :: l)[i] := by
    intro i
    induction i with
    | zero => intro _; rfl
    | succ i ih =>
      intro hi
      rw [iterate_succ_apply', ih (by omega)]
      exact (h.linked.getElem i hi).1
  refine ⟨hwalk, ?_⟩
  rw [length_cons, iterate_succ_apply', hwalk l.length (by simp)]
  have hlast : (x :: l).getLast? = some ((x :: l)[l.length]) := by
    rw [getLast?_eq_getElem?]
    simp
  exact (h.closed _ x hlast rfl).1

/-- Every element of the list is linked to an element of the list on both
sides. -/
theorem IsRing.inverse (h : IsRing next prev l) {a : α} (ha : a ∈ l) :
    prev (next a) = a ∧ next (prev a) = a ∧ next a ∈ l ∧ prev a ∈ l := by
  obtain ⟨u, v, rfl⟩ := append_of_mem ha
  have hsucc : ∃ b, b ∈ u ++ a :: v ∧ Link next prev a b := by
    cases v with
    | nil =>
      cases u with
      | nil => exact ⟨a, by simp, h.closed a a rfl rfl⟩
      | cons c u => exact ⟨c, by simp, h.closed a c getLast?_concat rfl⟩
    | cons b v =>
      refine ⟨b, by simp, ?_⟩
      exact (isChain_append_cons_cons.mp h.linked).2.1
  have hpred : ∃ b, b ∈ u ++ a :: v ∧ Link next prev b a := by
    rcases eq_nil_or_concat u with rfl | ⟨u, b, rfl⟩
    · obtain ⟨hlast, hnext⟩ := h.getLast_eq_prev
      exact ⟨prev a, mem_of_getLast? hlast, hnext, rfl⟩
    · refine ⟨b, by simp, ?_⟩
      have hlinked := h.linked
      simp only [concat_eq_append, append_assoc, cons_append, nil_append] at hlinked
      exact (isChain_append_cons_cons.mp hlinked).2.1
  obtain ⟨b, hb, hab⟩ := hsucc
  obtain ⟨c, hc, hca⟩ := hpred
  exact ⟨by rw [hab.1, hab.2], by rw [hca.2, hca.1], hab.1 ▸ hb, hca.2 ▸ hc⟩

/-- Following the pointers never leaves the list. -/
theorem IsRing.iterate_next_mem (h : IsRing next prev l) {a : α} (ha : a ∈ l)
    (k : ℕ) : next^[k] a ∈ l := by
  induction k with
  | zero => exact ha
  | succ k ih =>
    rw [iterate_succ_apply']
    exact (h.inverse ih).2.2.1

/-! ## The operations -/

/-- Starting one node later. -/
theorem IsRing.rotate (h : IsRing next prev (x :: l)) : IsRing next prev (l ++ [x]) := by
  cases l with
  | nil => exact h
  | cons y l =>
    obtain ⟨hxy, htail⟩ := isChain_cons_cons.mp h.linked
    refine ⟨?_, ?_, ?_⟩
    · have hperm : (y :: l ++ [x]).Perm (x :: y :: l) := by
        simpa using perm_append_singleton x (y :: l)
      exact hperm.nodup_iff.mpr h.nodup
    · apply htail.append (isChain_singleton x)
      intro a ha b hb
      obtain rfl : x = b := by simpa using hb
      exact h.closed a x (by simpa using ha) rfl
    · intro a b ha hb
      obtain rfl : x = a := by simpa only [getLast?_concat, Option.some.injEq] using ha
      obtain rfl : y = b := by simpa using hb
      exact hxy

/-- Inner links do not start at the predecessor of the head and do not end at
the head. -/
theorem IsRing.inner_ne (h : IsRing next prev (x :: l)) {a b : α}
    (hb : b ∈ l) (hab : Link next prev a b) :
    a ≠ prev x ∧ b ≠ x := by
  have hbx : b ≠ x := by
    rintro rfl
    exact (nodup_cons.mp h.nodup).1 hb
  refine ⟨?_, hbx⟩
  rintro rfl
  exact hbx (hab.1.symm.trans h.getLast_eq_prev.2)

section Splice

variable [DecidableEq α]

/-- Splicing a new node in before the head appends it to the list. -/
theorem IsRing.insert (h : IsRing next prev (x :: l)) (ht : t ∉ x :: l) :
    IsRing (update (update next (prev x) t) t x) (update (update prev t (prev x)) x t)
      (x :: l ++ [t]) := by
  have hxt : x ≠ t := by
    rintro rfl
    exact ht (by simp)
  have hpt : prev x ≠ t := by
    intro heq
    exact ht (heq ▸ h.prev_mem)
  refine ⟨?_, ?_, ?_⟩
  · exact h.nodup.append (nodup_singleton t) (by simpa using ht)
  · refine List.IsChain.append ?_ (isChain_singleton t) ?_
    · apply h.linked.imp_of_mem_tail_imp
      intro a b ha hb hab
      obtain ⟨hap, hbx⟩ := h.inner_ne hb hab
      have hat : a ≠ t := by
        rintro rfl
        exact ht ha
      have hbt : b ≠ t := by
        rintro rfl
        exact ht (mem_of_mem_tail hb)
      simpa [Link, hat, hap, hbx, hbt] using hab
    · intro a ha b hb
      obtain rfl : t = b := by simpa using hb
      obtain rfl : prev x = a := by
        rw [h.getLast_eq_prev.1] at ha
        simpa using ha
      simp [Link, hpt, Ne.symm hxt]
  · intro a b ha hb
    obtain rfl : t = a := by
      simpa only [getLast?_concat, Option.some.injEq] using ha
    obtain rfl : x = b := by simpa using hb
    simp [Link]

/-- Linking the neighbours of the head to each other removes it. -/
theorem IsRing.remove (h : IsRing next prev (x :: y :: l)) :
    IsRing (update next (prev x) (next x)) (update prev (next x) (prev x)) (y :: l) := by
  have hxy : next x = y := h.next_of_cons
  obtain ⟨hlast, hnext⟩ := h.getLast_eq_prev
  refine ⟨(nodup_cons.mp h.nodup).2, ?_, ?_⟩
  · have htail : (y :: l).IsChain (Link next prev) := (isChain_cons_cons.mp h.linked).2
    apply htail.imp_of_mem_tail_imp
    intro a b ha hb hab
    have hap : a ≠ prev x := (h.inner_ne (mem_of_mem_tail hb) hab).1
    have hby : b ≠ y := by
      rintro rfl
      exact (nodup_cons.mp (nodup_cons.mp h.nodup).2).1 hb
    simpa [Link, hap, hxy, hby] using hab
  · intro a b ha hb
    obtain rfl : y = b := by simpa using hb
    obtain rfl : prev x = a := by
      rw [getLast?_cons_cons, ha] at hlast
      exact (Option.some.inj hlast).symm
    simp [Link, hxy]

end Splice

end OsCa.Ring
