import Mathlib.Data.Finset.Card

/-!
# Ownership of resources

This module is independent of the repository.  Resources are handed out by an
allocator that only knows which of them are used.  `Owned used reserved ref`
says that the allocator's knowledge is exact: a resource is used when it is
reserved, or when some place refers to it, and no resource is referred to
twice.  Allocation and release keep this true as long as they change one
reference along with the allocator's mark.
-/

namespace OsCa

open Finset

structure Owned {α ι : Type*} (used reserved : α → Prop) (ref : ι → Option α) :
    Prop where
  exact : ∀ a, used a ↔ reserved a ∨ ∃ p, ref p = some a
  unique : ∀ p q a, ref p = some a → ref q = some a → p = q
  apart : ∀ p a, ref p = some a → ¬ reserved a

namespace Owned

variable {α ι : Type*} {used used' reserved : α → Prop}
variable {ref ref' : ι → Option α} {p : ι} {a : α}

section

variable (h : Owned used reserved ref)

include h

theorem used_of_ref (hp : ref p = some a) : used a := (h.exact a).mpr (Or.inr ⟨p, hp⟩)

theorem not_reserved_of_free (ha : ¬ used a) : ¬ reserved a :=
  fun hr => ha ((h.exact a).mpr (Or.inl hr))

theorem congr (hused : ∀ c, used' c ↔ used c) (href : ∀ q, ref' q = ref q) :
    Owned used' reserved ref' where
  exact c := by simp only [hused, h.exact, href]
  unique q r c hq hr := h.unique q r c ((href q).symm.trans hq) ((href r).symm.trans hr)
  apart q c hq := h.apart q c ((href q).symm.trans hq)

/-- A free resource is marked used and stored in an empty place. -/
theorem link (ha : ¬ used a) (hp : ref p = none) (hused : ∀ c, used' c ↔ c = a ∨ used c)
    (hself : ref' p = some a) (hother : ∀ q, q ≠ p → ref' q = ref q) :
    Owned used' reserved ref' := by
  have hcases : ∀ q c, ref' q = some c → (q = p ∧ c = a) ∨ (q ≠ p ∧ ref q = some c) := by
    intro q c hq
    by_cases hqp : q = p
    · subst q
      exact Or.inl ⟨rfl, Option.some.inj (hq.symm.trans hself)⟩
    · exact Or.inr ⟨hqp, (hother q hqp).symm.trans hq⟩
  have hfree : ∀ q, ref q ≠ some a := fun q hq => ha (h.used_of_ref hq)
  refine ⟨?_, ?_, ?_⟩
  · intro c
    rw [hused, h.exact]
    constructor
    · rintro (rfl | hr | ⟨q, hq⟩)
      · exact Or.inr ⟨p, hself⟩
      · exact Or.inl hr
      · refine Or.inr ⟨q, (hother q ?_).trans hq⟩
        rintro rfl
        rw [hp] at hq
        cases hq
    · rintro (hr | ⟨q, hq⟩)
      · exact Or.inr (Or.inl hr)
      · rcases hcases q c hq with ⟨-, rfl⟩ | ⟨-, hq⟩
        · exact Or.inl rfl
        · exact Or.inr (Or.inr ⟨q, hq⟩)
  · intro q r c hq hr
    rcases hcases q c hq with ⟨rfl, rfl⟩ | ⟨-, hq⟩ <;> rcases hcases r _ hr with ⟨rfl, hc⟩ | ⟨-, hr⟩
    · rfl
    · exact absurd hr (hfree r)
    · exact absurd (hc ▸ hq) (hfree q)
    · exact h.unique q r _ hq hr
  · intro q c hq
    rcases hcases q c hq with ⟨-, rfl⟩ | ⟨-, hq⟩
    · exact h.not_reserved_of_free ha
    · exact h.apart q c hq

/-- A resource is marked free and its place is emptied. -/
theorem unlink (hp : ref p = some a) (hused : ∀ c, used' c ↔ c ≠ a ∧ used c)
    (hself : ref' p = none) (hother : ∀ q, q ≠ p → ref' q = ref q) :
    Owned used' reserved ref' := by
  have hold : ∀ q c, ref' q = some c → q ≠ p ∧ ref q = some c := by
    intro q c hq
    have hqp : q ≠ p := by
      rintro rfl
      rw [hself] at hq
      cases hq
    exact ⟨hqp, (hother q hqp).symm.trans hq⟩
  refine ⟨?_, ?_, ?_⟩
  · intro c
    rw [hused, h.exact]
    constructor
    · rintro ⟨hca, hr | ⟨q, hq⟩⟩
      · exact Or.inl hr
      · refine Or.inr ⟨q, (hother q ?_).trans hq⟩
        rintro rfl
        exact hca (Option.some.inj (hq.symm.trans hp))
    · rintro (hr | ⟨q, hq⟩)
      · refine ⟨?_, Or.inl hr⟩
        rintro rfl
        exact h.apart p c hp hr
      · obtain ⟨hqp, hq⟩ := hold q c hq
        refine ⟨?_, Or.inr ⟨q, hq⟩⟩
        rintro rfl
        exact hqp (h.unique q p c hq hp)
  · intro q r c hq hr
    exact h.unique q r c (hold q c hq).2 (hold r c hr).2
  · intro q c hq
    exact h.apart q c (hold q c hq).2

end

end Owned

/-! ## Counting what is free -/

/-- The number of unused resources below `n`. -/
def freeCount (used : ℕ → Bool) (n : ℕ) : ℕ := ((range n).filter fun a => used a = false).card

theorem exists_free_of_freeCount_pos {used : ℕ → Bool} {n : ℕ}
    (h : 0 < freeCount used n) : ∃ a < n, used a = false := by
  obtain ⟨a, ha⟩ := card_pos.mp h
  rw [mem_filter, mem_range] at ha
  exact ⟨a, ha⟩

/-- Marking one free resource as used lowers the count by one. -/
theorem freeCount_mark {used used' : ℕ → Bool} {n a : ℕ} (ha : a < n) (hfree : used a = false)
    (hused : ∀ c < n, used' c = (decide (c = a) || used c)) :
    freeCount used' n + 1 = freeCount used n := by
  have hset : (range n).filter (fun c => used' c = false) =
      ((range n).filter fun c => used c = false).erase a := by
    ext c
    simp only [mem_filter, mem_range, mem_erase]
    constructor
    · rintro ⟨hc, hc'⟩
      rw [hused c hc, Bool.or_eq_false_iff, decide_eq_false_iff_not] at hc'
      exact ⟨hc'.1, hc, hc'.2⟩
    · rintro ⟨hca, hc, hc'⟩
      exact ⟨hc, by simp [hused c hc, hca, hc']⟩
  unfold freeCount
  rw [hset]
  apply card_erase_add_one
  simp [ha, hfree]

theorem freeCount_congr {used used' : ℕ → Bool} {n : ℕ}
    (h : ∀ c < n, used' c = used c) : freeCount used' n = freeCount used n := by
  unfold freeCount
  congr 1
  apply filter_congr
  intro c hc
  rw [h c (mem_range.mp hc)]

end OsCa
