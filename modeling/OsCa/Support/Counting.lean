import Mathlib.Algebra.BigOperators.Group.Finset.Piecewise
import Mathlib.Data.Fintype.Basic
import Mathlib.Tactic.Ring

/-!
# Counting what changes at one place

This module is independent of the repository.  A count over a finite set moves
by what happens at the places where the counted things have changed.  The
lemmas are stated without subtraction, as equations between sums.
-/

namespace OsCa.Counting

open Finset

variable {ι β : Type*} {s : Finset ι} {f g : ι → ℕ} {a b : ι}

theorem sum_change [DecidableEq ι] (ha : a ∈ s) (h : ∀ i ∈ s, i ≠ a → f i = g i) :
    ∑ i ∈ s, f i + g a = ∑ i ∈ s, g i + f a := by
  have hrest : ∑ i ∈ s.erase a, f i = ∑ i ∈ s.erase a, g i := sum_congr rfl fun i hi =>
      h i (mem_of_mem_erase hi) (ne_of_mem_erase hi)
  rw [← add_sum_erase s f ha, ← add_sum_erase s g ha, hrest]
  ring

/-- How many places of a table have a property, after one place has been
overwritten. -/
theorem card_filter_update [Fintype ι] [DecidableEq ι] (t : ι → β) (a : ι)
    (x : β) (p : β → Prop) [DecidablePred p] :
    (univ.filter fun i => p (Function.update t a x i)).card + (if p (t a) then 1 else 0) =
      (univ.filter fun i => p (t i)).card + if p x then 1 else 0 := by
  rw [card_filter, card_filter]
  have hsum := @sum_change ι univ (fun i => if p (Function.update t a x i) then 1 else 0)
    (fun i => if p (t i) then 1 else 0) a _ (mem_univ a)
    fun i _ hi => by simp only [Function.update_of_ne hi]
  simpa only [Function.update_self] using hsum

end OsCa.Counting
