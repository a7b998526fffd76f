import Mathlib.Data.List.Basic

/-!
# Computations that can fail

This module is independent of the repository.  It has the rules for `Except`
that proofs about code with error exits use: how a sequence of two steps ends,
and what holds after a loop over a list.
-/

namespace OsCa.Fallible

universe u v

variable {ε : Type u} {α β σ : Type v}

theorem bind_eq_ok_iff {x : Except ε α} {f : α → Except ε β} {b : β} :
    x >>= f = .ok b ↔ ∃ a, x = .ok a ∧ f a = .ok b := by
  cases x <;> simp [bind, Except.bind]

theorem bind_eq_error_iff {x : Except ε α} {f : α → Except ε β} {e : ε} :
    x >>= f = .error e ↔ x = .error e ∨ ∃ a, x = .ok a ∧ f a = .error e := by
  cases x <;> simp [bind, Except.bind]

instance decidableEqError [DecidableEq ε] (x : Except ε α) (e : ε) : Decidable (x = .error e) :=
  match x with
  | .ok _ => isFalse nofun
  | .error e' => decidable_of_iff (e' = e) ⟨congrArg _, Except.error.inj⟩

/-- What a run of the computation finds. -/
theorem exists_ok_of_any {x : Except ε α} {p : α → Prop} [DecidablePred p]
    (h : x.toOption.any (fun a => decide (p a)) = true) : ∃ a, x = .ok a ∧ p a := by
  cases x with
  | ok a => exact ⟨a, rfl, of_decide_eq_true h⟩
  | error => cases h

/-- If every step keeps `P` when it succeeds and gives an error in `Q` when it
fails, then so does a loop. -/
theorem foldlM_invariant {f : σ → α → Except ε σ} {P : σ → Prop}
    {Q : ε → Prop} (hok : ∀ s a t, P s → f s a = .ok t → P t)
    (herr : ∀ s a e, P s → f s a = .error e → Q e) (l : List α) {s : σ}
    (hs : P s) :
    (∀ t, l.foldlM f s = .ok t → P t) ∧ ∀ e, l.foldlM f s = .error e → Q e := by
  induction l generalizing s with
  | nil =>
    refine ⟨fun t ht => ?_, fun e he => ?_⟩
    · cases ht
      exact hs
    · cases he
  | cons a l ih =>
    rw [List.foldlM_cons]
    refine ⟨fun t ht => ?_, fun e he => ?_⟩
    · obtain ⟨u, hu, ht⟩ := bind_eq_ok_iff.mp ht
      exact (ih (hok s a u hs hu)).1 t ht
    · rcases bind_eq_error_iff.mp he with he | ⟨u, hu, he⟩
      · exact herr s a e hs he
      · exact (ih (hok s a u hs hu)).2 e he

/-! ## How a computation ends -/

/-- The computation ends with a value in `Q` or with an error in `E`. -/
def Ends (x : Except ε α) (Q : α → Prop) (E : ε → Prop) : Prop :=
  match x with
  | .ok a => Q a
  | .error e => E e

namespace Ends

variable {x : Except ε α} {f : α → Except ε β} {Q R : α → Prop} {E F : ε → Prop}

theorem bind {Q : β → Prop} (hx : Ends x R E) (hf : ∀ a, R a → Ends (f a) Q E) :
    Ends (x >>= f) Q E := by
  cases x with
  | error e => exact hx
  | ok a => exact hf a hx

theorem mono (hx : Ends x R E) (hQ : ∀ a, R a → Q a) : Ends x Q E := by
  cases x with
  | error e => exact hx
  | ok a => exact hQ a hx

theorem ite_of_pos {y : Except ε α} {c : Prop} [Decidable c] (h : c) (hx : Ends x Q E) :
    Ends (if c then x else y) Q E := by
  rw [if_pos h]
  exact hx

theorem ite_of_neg {y : Except ε α} {c : Prop} [Decidable c] (h : ¬ c) (hy : Ends y Q E) :
    Ends (if c then x else y) Q E := by
  rw [if_neg h]
  exact hy

theorem of_ok {a : α} (hx : Ends x Q E) (h : x = .ok a) : Q a := by
  subst h
  exact hx

theorem of_error {e : ε} (hx : Ends x Q E) (h : x = .error e) : E e := by
  subst h
  exact hx

end Ends

end OsCa.Fallible
