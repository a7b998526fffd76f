import Mathlib.Data.List.Basic

/-!
# Tables of locks

This module is independent of the repository.  Threads hold locks; `owner`
records in each lock who holds it, and `held` lists what each thread holds
according to the place it is at.  One turn of a thread may take free locks and
give up locks of its own, and then the two stay in agreement.
-/

namespace OsCa

section LockTable

variable {L T : Type*}

/-- The owners recorded in the locks are those that hold them. -/
def LockTable (owner : L → Option T) (held : T → List L) : Prop :=
  ∀ l t, owner l = some t ↔ l ∈ held t

/-- What a turn of thread `c` may do to the lock `l`. -/
inductive LockTurn (c : T) (l : L) (o o' : Option T) (held held' : List L) :
    Prop where
  | kept (ho : o' = o) (hh : l ∈ held' ↔ l ∈ held)
  | acquired (free : o = none) (ho : o' = some c) (hh : l ∈ held')
  | released (own : l ∈ held) (ho : o' = none) (hh : l ∉ held')

variable {owner owner' : L → Option T} {held held' : T → List L}

namespace LockTable

theorem eq_of_mem (h : LockTable owner held) {l : L} {c d : T}
    (hc : l ∈ held c) (hd : l ∈ held d) : c = d := by
  have hc' := (h l c).mpr hc
  rw [(h l d).mpr hd] at hc'
  exact (Option.some.inj hc').symm

theorem ne_none_of_mem (h : LockTable owner held) {l : L} {c : T}
    (hc : l ∈ held c) : owner l ≠ none := by
  rw [(h l c).mpr hc]
  exact Option.some_ne_none c

/-- A lock that is free or that `c` holds is held by no other thread. -/
theorem not_mem_of_free_or_mem (h : LockTable owner held) {l : L} {c d : T}
    (hl : owner l = none ∨ l ∈ held c) (hd : d ≠ c) : l ∉ held d := by
  intro hmem
  rcases hl with hfree | hc
  · exact h.ne_none_of_mem hmem hfree
  · exact hd (h.eq_of_mem hmem hc)

theorem turn (h : LockTable owner held) (c : T) (hothers : ∀ d, d ≠ c → held' d = held d)
    (hturn : ∀ l, LockTurn c l (owner l) (owner' l) (held c) (held' c)) :
    LockTable owner' held' := by
  intro l t
  rcases eq_or_ne t c with rfl | ht
  · cases hturn l with
    | kept ho hh => rw [ho, hh, h l t]
    | acquired free ho hh => simp [ho, hh]
    | released own ho hh => simp [ho, hh]
  · rw [hothers t ht, ← h l t]
    cases hturn l with
    | kept ho hh => rw [ho]
    | acquired free ho hh => simp [ho, free, ht.symm]
    | released own ho hh => simp [ho, (h l c).mpr own, ht.symm]

end LockTable

end LockTable

end OsCa
