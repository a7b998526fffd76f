import Mathlib.Algebra.Group.Nat.Defs
import Mathlib.Algebra.Order.Group.Int
import Mathlib.Data.List.Basic

/-!
# Merge sort with two threads

This module embeds `hw2/hw2_2.c`.  An element of `Arr` has its value in `key`, so that
equal elements can be told apart.  `end` is called `stop`.  An access outside of an array,
or a sum that is no `int`, is `none`.

The two threads work on parts of the array that do not meet, and each reads and writes its
own part only, so one of them runs after the other here, in either order
(`Parts.threadMerge_comm`).
-/

namespace OsCa.MergeSort

open List

section Source

variable {α : Type} (key : α → ℤ)

/-- `temp[k] = a` for a `temp` of `len` elements. -/
def push (len : ℕ) (temp : List α) (a : α) : Option (List α) :=
  if temp.length < len then some (temp ++ [a]) else none

/-- The three loops of `merge_array` that fill `temp`. -/
def mergeLoops (arr : List α) (len mid stop i j : ℕ) (temp : List α) : Option (List α) :=
  if i ≤ mid ∧ j ≤ stop then do
    let a ← arr[i]?
    let b ← arr[j]?
    if key a ≤ key b then mergeLoops arr len mid stop (i + 1) j (← push len temp a)
    else mergeLoops arr len mid stop i (j + 1) (← push len temp b)
  else if i ≤ mid then do
    mergeLoops arr len mid stop (i + 1) j (← push len temp (← arr[i]?))
  else if j ≤ stop then do
    mergeLoops arr len mid stop i (j + 1) (← push len temp (← arr[j]?))
  else some temp
termination_by mid + 1 - i + (stop + 1 - j)

/-- The loop of `merge_array` that copies `temp` back. -/
def copyLoop (temp : List α) (start stop i : ℕ) (arr : List α) : Option (List α) :=
  if i ≤ stop then do
    let x ← temp[i - start]?
    if i < arr.length then copyLoop temp start stop (i + 1) (arr.set i x) else none
  else some arr
termination_by stop + 1 - i

def mergeArray (start mid stop : ℕ) (arr : List α) : Option (List α) := do
  let temp ← mergeLoops key arr (stop - start + 1) mid stop start (mid + 1) []
  copyLoop temp start stop start arr

def mergeSort (start stop : ℕ) (arr : List α) : Option (List α) := if start < stop then
    if start + stop < 2 ^ 31 then do
      let mid := (start + stop) / 2
      let arr ← mergeSort start mid arr
      let arr ← mergeSort (mid + 1) stop arr
      mergeArray key start mid stop arr
    else none
  else some arr
termination_by stop - start

/-- The body is that of `merge_sort`.  With less than two elements `end` is -1, and nothing
is done. -/
def threadMerge (part : ℕ) (arr : List α) : Option (List α) :=
  mergeSort key (part * (arr.length / 2)) ((part + 1) * (arr.length / 2) - 1) arr

/-- `main`, where the thread that gets `part = 1` may be the first. -/
def main (first : Fin 2) (arr : List α) : Option (List α) := do
  let arr ← threadMerge key first arr
  let arr ← threadMerge key (1 - first.val) arr
  mergeArray key 0 ((arr.length - 1) / 2) (arr.length - 1) arr

end Source

variable {α : Type} {key : α → ℤ} {arr l r l' r' x y old new temp : List α}
  {i j mid stop start len : ℕ}

/-! ## Merging -/

def le (key : α → ℤ) (a b : α) : Bool := decide (key a ≤ key b)

/-- `new` has the elements of `old` in the order of their keys, those with equal keys in the
order they had. -/
structure Sorts (key : α → ℤ) (old new : List α) : Prop where
  sorted : new.Pairwise fun a b => key a ≤ key b
  perm : new ~ old
  stable : ∀ v, (new.filter fun a => key a = v) = old.filter fun a => key a = v

theorem Sorts.of_length_le_one (h : l.length ≤ 1) : Sorts key l l := by
  refine ⟨?_, .refl _, fun _ => rfl⟩
  match l, h with
  | [], _ | [_], _ => simp

theorem filter_merge (v : ℤ) (hl : l.Pairwise fun a b => key a ≤ key b) :
    ((merge l r (le key)).filter fun a => key a = v) =
      (l.filter fun a => key a = v) ++ r.filter fun a => key a = v := by
  induction l, r using merge.induct (le key) with
  | case1 r => simp
  | case2 l => simp
  | case3 a l b r hab ih =>
    rw [cons_merge_cons, if_pos hab, filter_cons, ih (pairwise_cons.mp hl).2]
    by_cases hv : key a = v <;> simp [hv, filter_cons]
  | case4 a l b r hab ih =>
    -- The keys of the first list are larger than that of `b`.
    rw [cons_merge_cons, if_neg hab, filter_cons, ih hl]
    by_cases hv : key b = v
    · have hnone : ((a :: l).filter fun a => key a = v) = [] := by
        refine filter_eq_nil_iff.mpr fun c hc => ?_
        have hac : key a ≤ key c := by
          rcases mem_cons.mp hc with rfl | hc
          · exact le_refl _
          · exact (pairwise_cons.mp hl).1 c hc
        simp only [le, decide_eq_true_eq] at hab ⊢
        omega
      rw [hnone]
      simp [hv]
    · simp [hv, filter_cons]

theorem Sorts.merge (h : Sorts key l l') (h' : Sorts key r r') :
    Sorts key (l ++ r) (merge l' r' (le key)) where
  sorted := by
    have hm := @pairwise_merge _ (le key) (by simp [le]; omega) (by simp [le]; omega) l' r'
    simpa [le] using hm (by simpa [le] using h.sorted) (by simpa [le] using h'.sorted)
  perm := (merge_perm_append _).trans (h.perm.append h'.perm)
  stable v := by rw [filter_merge v h.sorted, h.stable, h'.stable, filter_append]

theorem drop_cons {a : α} (h : arr.drop i = a :: l) : arr[i]? = some a ∧ arr.drop (i + 1) = l := by
  constructor
  · rw [← head?_drop, h, head?_cons]
  · rw [← tail_drop, h, tail_cons]

theorem mergeLoops_left {a : α} (hi : i ≤ mid) (ha : arr[i]? = some a)
    (hlen : temp.length < len) (hb : j ≤ stop → ∃ b, arr[j]? = some b ∧ key a ≤ key b) :
    mergeLoops key arr len mid stop i j temp =
      mergeLoops key arr len mid stop (i + 1) j (temp ++ [a]) := by
  rw [mergeLoops]
  by_cases hj : j ≤ stop
  · obtain ⟨b, hb, hab⟩ := hb hj
    simp [hi, hj, ha, hb, hab, push, hlen]
  · simp [hi, hj, ha, push, hlen]

theorem mergeLoops_right {b : α} (hj : j ≤ stop) (hb : arr[j]? = some b)
    (hlen : temp.length < len) (ha : i ≤ mid → ∃ a, arr[i]? = some a ∧ ¬ key a ≤ key b) :
    mergeLoops key arr len mid stop i j temp =
      mergeLoops key arr len mid stop i (j + 1) (temp ++ [b]) := by
  rw [mergeLoops]
  by_cases hi : i ≤ mid
  · obtain ⟨a, ha, hab⟩ := ha hi
    simp [hi, hj, ha, hb, hab, push, hlen]
  · simp [hi, hj, hb, push, hlen]

theorem mergeLoops_spec (hl : arr.drop i = l ++ x) (hr : arr.drop j = r ++ y)
    (hi : i + l.length = mid + 1) (hj : j + r.length = stop + 1)
    (hlen : temp.length + l.length + r.length = len) :
    mergeLoops key arr len mid stop i j temp = some (temp ++ merge l r (le key)) := by
  induction hn : l.length + r.length generalizing i j l r temp with
  | zero =>
    obtain ⟨rfl, rfl⟩ : l = [] ∧ r = [] := by simpa using hn
    rw [mergeLoops, if_neg (by simp at hi; omega), if_neg (by simp at hi; omega),
      if_neg (by simp at hj; omega)]
    simp
  | succ n ih =>
    -- What the loop takes is the head of the merge.
    by_cases hleft : ∃ a l₁, l = a :: l₁ ∧ ∀ b ∈ r.head?, key a ≤ key b
    · obtain ⟨a, l, rfl, hab⟩ := hleft
      obtain ⟨ha, hl⟩ := drop_cons hl
      simp only [length_cons] at hi hlen hn
      have hpick : j ≤ stop → ∃ b, arr[j]? = some b ∧ key a ≤ key b := by
        intro hstop
        cases r with
        | nil => simp at hj; omega
        | cons b r => exact ⟨b, (drop_cons hr).1, hab b rfl⟩
      rw [mergeLoops_left (by omega) ha (by omega) hpick, ih hl hr (by omega) hj
        (by simp; omega) (by omega)]
      cases r with
      | nil => simp
      | cons b r => simp [le, hab b rfl]
    · cases r with
      | nil =>
        cases l with
        | nil => simp at hn
        | cons a l => exact absurd ⟨a, l, rfl, by simp⟩ hleft
      | cons b r =>
        obtain ⟨hb, hr⟩ := drop_cons hr
        simp only [length_cons] at hj hlen hn
        have hpick : i ≤ mid → ∃ a, arr[i]? = some a ∧ ¬ key a ≤ key b := by
          intro hmid
          cases l with
          | nil => simp at hi; omega
          | cons a l =>
            exact ⟨a, (drop_cons hl).1, fun hab => hleft ⟨a, l, rfl, by simpa using hab⟩⟩
        rw [mergeLoops_right (by omega) hb (by omega) hpick, ih hl hr hi (by omega)
          (by simp; omega) (by omega)]
        cases l with
        | nil => simp
        | cons a l =>
          have hab : ¬ key a ≤ key b := fun hab => hleft ⟨a, l, rfl, by simpa using hab⟩
          simp [le, hab]

theorem copyLoop_spec (hi : x.length = i) (hstart : start ≤ i)
    (htemp : temp.drop (i - start) = new) (hold : old.length = new.length)
    (hstop : i + new.length = stop + 1) :
    copyLoop temp start stop i (x ++ (old ++ y)) = some (x ++ (new ++ y)) := by
  induction new generalizing i x old with
  | nil =>
    obtain rfl := length_eq_zero_iff.mp hold
    rw [copyLoop, if_neg (by simp at hstop; omega)]
  | cons a new ih =>
    obtain ⟨b, old, rfl⟩ := exists_cons_of_length_eq_add_one hold
    obtain ⟨ha, hnew⟩ := drop_cons htemp
    simp only [length_cons] at hstop hold
    have hset : (x ++ (b :: old ++ y)).set i a = (x ++ [a]) ++ (old ++ y) := by
      subst hi
      simp
    rw [copyLoop, if_pos (by omega), ha]
    simp only [Option.bind_eq_bind, Option.bind_some]
    rw [if_pos (by simp; omega), hset, ih (by simp [hi]) (by omega)
      (by rwa [Nat.sub_add_comm hstart]) (by omega) (by omega)]
    simp

theorem mergeArray_spec (key : α → ℤ) (x l r y : List α) (hx : x.length = start)
    (hle : start ≤ stop) (hl : start + l.length = mid + 1) (hr : mid + 1 + r.length = stop + 1) :
    mergeArray key start mid stop (x ++ ((l ++ r) ++ y)) =
      some (x ++ (merge l r (le key) ++ y)) := by
  have hmerge : (merge l r (le key)).length = l.length + r.length :=
    (merge_perm_append _).length_eq.trans length_append
  have htemp : mergeLoops key (x ++ ((l ++ r) ++ y)) (stop - start + 1) mid stop start
      (mid + 1) [] = some (merge l r (le key)) := by
    refine mergeLoops_spec (x := r ++ y) (y := y) ?_ ?_ hl hr (by simp; omega)
    · rw [← hx, drop_left, append_assoc]
    · rw [← hl, ← hx, ← length_append, ← append_assoc, ← append_assoc, append_assoc _ r y,
        drop_left]
  rw [mergeArray, htemp]
  exact copyLoop_spec hx (Nat.le_refl _) (by simp) (by rw [length_append, hmerge]) (by omega)

/-! ## Sorting -/

/-- What is in front of the range and behind it does not matter. -/
theorem mergeSort_spec (key : α → ℤ) (old : List α) (hold : start + old.length = stop + 1)
    (hstop : stop ≤ 2 ^ 30) :
    ∃ new, Sorts key old new ∧ ∀ x y : List α, x.length = start →
      mergeSort key start stop (x ++ (old ++ y)) = some (x ++ (new ++ y)) := by
  induction hn : stop - start using Nat.strong_induction_on generalizing start stop old with
  | _ n ih =>
    subst hn
    by_cases hlt : start < stop
    · obtain ⟨l, r, rfl, hl, hr⟩ : ∃ l r, old = l ++ r ∧ start + l.length = (start + stop) / 2 + 1 ∧
          (start + stop) / 2 + 1 + r.length = stop + 1 := by
        refine ⟨old.take ((start + stop) / 2 + 1 - start), old.drop _,
          (take_append_drop ..).symm, ?_, ?_⟩
        all_goals
          simp only [length_take, length_drop]
          omega
      obtain ⟨l', hl', hleft⟩ := ih _ (by omega) l hl (by omega) rfl
      obtain ⟨r', hr', hright⟩ := ih _ (by omega) r hr hstop rfl
      have hlen := hl'.perm.length_eq
      have hlen' := hr'.perm.length_eq
      refine ⟨_, hl'.merge hr', fun x y hx => ?_⟩
      specialize hright (x ++ l') y (by simp; omega)
      rw [append_assoc] at hright
      rw [mergeSort, if_pos hlt, if_pos (by omega)]
      simp only [append_assoc, hleft x (r ++ y) hx, hright, Option.bind_eq_bind, Option.bind_some]
      simpa using mergeArray_spec key x l' r' y hx hlt.le (by omega) (by omega)
    · exact ⟨old, .of_length_le_one (by omega), fun x y _ => by rw [mergeSort, if_neg hlt]⟩

/-- The last of the calls for the right halves has a sum that is no `int`. -/
theorem mergeSort_overflow (key : α → ℤ) (arr : List α) (hlt : start < stop)
    (hstop : 2 ^ 30 < stop) : mergeSort key start stop arr = none := by
  induction hn : stop - start using Nat.strong_induction_on generalizing start arr with
  | _ n ih =>
    subst hn
    rw [mergeSort, if_pos hlt]
    split
    next hsum =>
      cases hleft : mergeSort key start ((start + stop) / 2) arr with
      | none => simp [hleft]
      | some arr' =>
        have hright : mergeSort key ((start + stop) / 2 + 1) stop arr' = none :=
          ih _ (by omega) arr' (by omega) rfl
        simp [hleft, hright]
    next => rfl

/-- `Arr[start..end]`. -/
def slice (arr : List α) (start stop : ℕ) : List α := (arr.drop start).take (stop + 1 - start)

/-- `merge_sort` ends with all accesses in bounds, the range sorted stably and the other
elements as they were, exactly if there is nothing to do or `end` is at most `2 ^ 30`. -/
theorem mergeSort_sorts_iff (key : α → ℤ) (arr : List α) (start stop : ℕ)
    (hstart : start < arr.length) (hstop : stop < arr.length) :
    (∃ arr', mergeSort key start stop arr = some arr' ∧ arr'.length = arr.length ∧
        (∀ i, i < start ∨ stop < i → arr'[i]? = arr[i]?) ∧
        Sorts key (slice arr start stop) (slice arr' start stop)) ↔
      stop ≤ start ∨ stop ≤ 2 ^ 30 := by
  constructor
  · rintro ⟨arr', hsome, -⟩
    by_contra! hlarge
    rw [mergeSort_overflow key arr hlarge.1 hlarge.2] at hsome
    cases hsome
  · intro hsmall
    by_cases hlt : start < stop
    · have hslice : (slice arr start stop).length = stop + 1 - start := by
        simp [slice]
        omega
      have harr : arr = arr.take start ++ (slice arr start stop ++ arr.drop (stop + 1)) := by
        rw [slice, show stop + 1 = start + (stop + 1 - start) by omega, ← drop_drop,
          Nat.add_sub_cancel_left, take_append_drop, take_append_drop]
      have hx : (arr.take start).length = start := by
        simp
        omega
      have hend : start + (slice arr start stop).length = stop + 1 := by omega
      obtain ⟨new, hsorts, hall⟩ := mergeSort_spec key _ hend (by omega)
      have hsome := hall _ (arr.drop (stop + 1)) hx
      rw [← harr] at hsome
      have hnew := hsorts.perm.length_eq.trans hslice
      refine ⟨arr.take start ++ (new ++ arr.drop (stop + 1)), hsome, ?_, fun i hi => ?_, ?_⟩
      · simp
        omega
      · conv_rhs => rw [harr]
        rw [← append_assoc, ← append_assoc]
        rcases hi with hi | hi
        · rw [append_assoc, append_assoc, getElem?_append_left (by omega),
            getElem?_append_left (by omega)]
        · rw [getElem?_append_right (by simp; omega), getElem?_append_right (by simp; omega),
            length_append, length_append, hnew, hslice]
      · have hslice' : slice (arr.take start ++ (new ++ arr.drop (stop + 1))) start stop =
            new := by
          rw [slice, drop_left' hx, take_left' hnew]
        rwa [hslice']
    · rw [mergeSort, if_neg hlt]
      refine ⟨arr, rfl, rfl, fun _ _ => rfl, .of_length_le_one ?_⟩
      simp [slice]
      omega

theorem mergeSort_sorts_iff_three :
    ∃ arr', mergeSort id 0 2 [3, 1, 2] = some arr' ∧ Sorts id [3, 1, 2] arr' := by
  obtain ⟨arr', hsome, hlen, -, hsorts⟩ :=
    (mergeSort_sorts_iff id [3, 1, 2] 0 2 (by decide) (by decide)).mpr (Or.inr (by decide))
  refine ⟨arr', hsome, ?_⟩
  have htake : slice arr' 0 2 = arr' := take_of_length_le (Nat.le_of_eq hlen)
  rwa [htake] at hsorts

/-- The first addition overflows. -/
theorem mergeSort_large_array : 2 ^ 30 + 1 < (replicate (2 ^ 30 + 2) (0 : ℤ)).length ∧
      mergeSort id (2 ^ 30) (2 ^ 30 + 1) (replicate (2 ^ 30 + 2) 0) = none :=
  ⟨by rw [length_replicate]; decide,
    mergeSort_overflow _ _ (Nat.lt_succ_self _) (Nat.lt_succ_self _)⟩

/-! ## The threads -/

section Threads

variable {z : List α} {k : ℕ}

/-- The two parts have the same length, and the last element may be in neither. -/
structure Parts (l r z : List α) (k : ℕ) : Prop where
  left : l.length = k
  right : r.length = k
  rest : z.length ≤ 1
  pos : 0 < k
  small : 2 * k - 1 ≤ 2 ^ 30

theorem Parts.half (h : Parts l r z k) : (l ++ (r ++ z)).length / 2 = k := by
  obtain ⟨hl, hr, hz, hpos, -⟩ := h
  simp only [length_append]
  omega

/-- What a thread makes of its part does not depend on the other part. -/
theorem Parts.threads (h : Parts l r z k) (key : α → ℤ) :
    ∃ l' r', Sorts key l l' ∧ Sorts key r r' ∧ Parts l' r' z k ∧
      (∀ r, r.length = k → threadMerge key 0 (l ++ (r ++ z)) = some (l' ++ (r ++ z))) ∧
      ∀ l, l.length = k → threadMerge key 1 (l ++ (r ++ z)) = some (l ++ (r' ++ z)) := by
  obtain ⟨hl, hr, hz, hpos, hsmall⟩ := h
  obtain ⟨l', hl', hzero⟩ := mergeSort_spec key l (by omega : 0 + l.length = k - 1 + 1) (by omega)
  obtain ⟨r', hr', hone⟩ := mergeSort_spec key r (by omega : k + r.length = 2 * k - 1 + 1) hsmall
  refine ⟨l', r', hl', hr', ⟨hl'.perm.length_eq.trans hl, hr'.perm.length_eq.trans hr, hz,
    hpos, hsmall⟩, fun r hr => ?_, fun l hl => ?_⟩
  · rw [threadMerge, Parts.half ⟨hl, hr, hz, hpos, hsmall⟩]
    simpa using hzero [] (r ++ z) rfl
  · rw [threadMerge, Parts.half ⟨hl, hr, hz, hpos, hsmall⟩, Nat.one_mul]
    exact hone l z hl

theorem Parts.threadMerge_comm (h : Parts l r z k) (key : α → ℤ) :
    (threadMerge key 0 (l ++ (r ++ z))).bind (threadMerge key 1) =
      (threadMerge key 1 (l ++ (r ++ z))).bind (threadMerge key 0) := by
  obtain ⟨l', r', -, -, h', hzero, hone⟩ := h.threads key
  rw [hzero r h.right, hone l h.left, Option.bind_some, Option.bind_some, hone l' h'.left,
    hzero r' h'.right]

theorem Parts.main (h : Parts l r z k) (key : α → ℤ) (first : Fin 2) :
    ∃ l' r', Sorts key l l' ∧ Sorts key r r' ∧ Parts l' r' z k ∧
      MergeSort.main key first (l ++ (r ++ z)) =
        mergeArray key 0 ((2 * k + z.length - 1) / 2) (2 * k + z.length - 1) (l' ++ (r' ++ z)) := by
  obtain ⟨l', r', hl, hr, h', hzero, hone⟩ := h.threads key
  refine ⟨l', r', hl, hr, h', ?_⟩
  have hlen : (l' ++ (r' ++ z)).length = 2 * k + z.length := by
    simp only [length_append, h'.left, h'.right]
    omega
  have hboth : (threadMerge key 0 (l ++ (r ++ z))).bind (threadMerge key 1) =
      some (l' ++ (r' ++ z)) := by
    rw [hzero r h.right, Option.bind_some, hone l' h'.left]
  have hmain : (threadMerge key first (l ++ (r ++ z))).bind (threadMerge key (1 - first.val)) =
      some (l' ++ (r' ++ z)) :=
    match first with
    | 0 => hboth
    | 1 => (h.threadMerge_comm key).symm.trans hboth
  refine (Option.bind_assoc ..).symm.trans ?_
  rw [hmain, Option.bind_some, hlen]

/-- With an even number of elements the halves are those that `main` merges. -/
theorem Parts.main_even (h : Parts l r [] k) (key : α → ℤ) (first : Fin 2) :
    ∃ new, MergeSort.main key first (l ++ r) = some new ∧ Sorts key (l ++ r) new := by
  obtain ⟨l', r', hl, hr, ⟨hk, hk', -, hpos, -⟩, hmain⟩ := h.main key first
  refine ⟨merge l' r' (le key), ?_, hl.merge hr⟩
  have hmerge := mergeArray_spec key [] l' r' [] rfl
    (Nat.zero_le (2 * k - 1)) (by omega : 0 + l'.length = (2 * k - 1) / 2 + 1) (by omega)
  simp only [append_nil, nil_append] at hmain hmerge
  exact hmain.trans hmerge

theorem main_one (key : α → ℤ) (first : Fin 2) (a : α) :
    MergeSort.main key first [a] = some [a] := by
  have hthread (part : ℕ) : threadMerge key part [a] = some [a] := by
    rw [threadMerge, mergeSort, if_neg (by simp)]
  have hmerge := mergeArray_spec key [] [a] [] [] rfl (Nat.le_refl 0) rfl rfl
  simpa [MergeSort.main, hthread] using hmerge

theorem main_overflow (key : α → ℤ) (h : 2 ^ 30 < 2 * (arr.length / 2) - 1) :
    MergeSort.main key 1 arr = none := by
  have hthread : threadMerge key 1 arr = none := mergeSort_overflow key arr (by omega) (by omega)
  simp [MergeSort.main, hthread]

end Threads

theorem merge_one_zeros (l : List ℤ) (j : ℕ) :
    merge (1 :: l) (replicate j 0) (le id) = replicate j 0 ++ 1 :: l := by
  induction j with
  | zero => simp
  | succ j ih => rw [replicate_succ, cons_merge_cons, if_neg (by decide), ih, cons_append]

/-- With an odd number of elements the middle one is in the second half of the threads and
in the first half of `main`. -/
theorem main_odd {k : ℕ} (hpos : 0 < k) (hsmall : 2 * k - 1 ≤ 2 ^ 30) :
    MergeSort.main id 0 (replicate k 1 ++ (replicate k 0 ++ [0])) =
      some (replicate k 0 ++ (replicate k (1 : ℤ) ++ [0])) := by
  have hparts : Parts (replicate k (1 : ℤ)) (replicate k 0) [0] k :=
    ⟨length_replicate, length_replicate, Nat.le_refl 1, hpos, hsmall⟩
  obtain ⟨l', r', hl, hr, -, hmain⟩ := hparts.main id 0
  obtain rfl := perm_replicate.mp hl.perm
  obtain rfl := perm_replicate.mp hr.perm
  have harr : replicate k (1 : ℤ) ++ (replicate k 0 ++ [0]) =
      [] ++ ((replicate k 1 ++ [0]) ++ replicate k 0 ++ []) := by
    rw [← replicate_succ', replicate_succ]
    simp
  have hmerge : merge (replicate k 1 ++ [0]) (replicate k 0) (le id) =
      replicate k 0 ++ (replicate k 1 ++ [0]) := by
    cases k with
    | zero => cases hpos
    | succ j => exact merge_one_zeros (replicate j 1 ++ [0]) (j + 1)
  rw [hmain, harr, mergeArray_spec id [] _ _ [] length_nil (Nat.zero_le _) (by simp)
    (by simp; omega), hmerge, nil_append, append_nil]

/-- `main` leaves every array of `n` elements sorted exactly if there is one element, or an
even number of at most `2 ^ 30`. -/
theorem main_sorts_iff (n : ℕ) (hn : 1 ≤ n) :
    (∀ (first : Fin 2) (arr : List ℤ), arr.length = n → ∃ arr',
        MergeSort.main id first arr = some arr' ∧ arr'.Pairwise (· ≤ ·) ∧ arr' ~ arr) ↔
      n = 1 ∨ n % 2 = 0 ∧ n ≤ 2 ^ 30 := by
  constructor
  · intro hall
    by_contra hcond
    by_cases hsmall : 2 * (n / 2) - 1 ≤ 2 ^ 30
    · obtain ⟨k, rfl⟩ : ∃ k, n = 2 * k + 1 := ⟨n / 2, by omega⟩
      obtain ⟨arr', hsome, hsorted, -⟩ :=
        hall 0 (replicate k 1 ++ (replicate k 0 ++ [0])) (by simp; omega)
      rw [main_odd (by omega) (by omega)] at hsome
      cases hsome
      rw [pairwise_append, pairwise_append] at hsorted
      have hle := hsorted.2.1.2.2 1 (mem_replicate.mpr ⟨by omega, rfl⟩) 0 (by simp)
      exact absurd hle (by decide)
    · obtain ⟨arr', hsome, -⟩ := hall 1 (replicate n 0) length_replicate
      rw [main_overflow id (by rw [length_replicate]; omega)] at hsome
      cases hsome
  · rintro (rfl | ⟨heven, hsmall⟩) first arr hlen
    · obtain ⟨a, rfl⟩ := length_eq_one_iff.mp hlen
      exact ⟨[a], main_one id first a, pairwise_singleton .., .refl _⟩
    · have hparts : Parts (arr.take (n / 2)) (arr.drop (n / 2)) [] (n / 2) :=
        ⟨by simp; omega, by simp; omega, Nat.zero_le 1, by omega, by omega⟩
      obtain ⟨new, hsome, hsorts⟩ := hparts.main_even id first
      rw [take_append_drop] at hsome hsorts
      exact ⟨new, hsome, hsorts.sorted, hsorts.perm⟩

theorem main_sorts_iff_even :
    ∃ arr', MergeSort.main id 1 [2, 4, 1, 3] = some arr' ∧ arr'.Pairwise (· ≤ ·) :=
  let ⟨arr', hsome, hsorted, _⟩ :=
    (main_sorts_iff 4 (by decide)).mpr (Or.inr (by decide)) 1 [2, 4, 1, 3] rfl
  ⟨arr', hsome, hsorted⟩

/-- Three elements. -/
theorem main_leaves_unsorted : MergeSort.main id 0 [1, 0, 0] = some [0, 1, (0 : ℤ)] :=
  main_odd (k := 1) (by decide) (by decide)

end OsCa.MergeSort
