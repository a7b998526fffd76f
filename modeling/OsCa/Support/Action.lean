import Mathlib.Order.Defs.Unbundled

/-!
# Commands

This module is independent of the repository.  A command reads and changes a
state and returns a value, or stops with an error.  `wp x s Q E` says how the
command `x` may end when it is started in `s`: with a value and a state in `Q`,
or with an error in `E`.  With `E` empty it says that `x` does not fail.

A function written as a command has one lemma `wp f s Q E`; its callers use the
lemma through `wp_bind` and never look at the body.
-/

namespace OsCa

/-- A command on states `σ` with errors `ε`. -/
abbrev Action (ε σ α : Type) := StateT σ (Except ε) α

namespace Action

variable {ε σ τ α β : Type}

/-! ## Basic commands -/

/-- The present state. -/
def read : Action ε σ σ := fun s => .ok (s, s)

def update (f : σ → σ) : Action ε σ Unit := fun s => .ok ((), f s)

def fail (e : ε) : Action ε σ α := fun _ => .error e

/-- Run a function on a part of the state. -/
def zoom {ε' : Type} (part : σ → τ) (put : τ → σ → σ) (wrap : ε' → ε)
    (f : τ → Except ε' (α × τ)) : Action ε σ α := fun s =>
  match f (part s) with
  | .ok (a, t) => .ok (a, put t s)
  | .error e => .error (wrap e)

/-! ## How a command ends -/

def wp (x : Action ε σ α) (s : σ) (Q : α → σ → Prop) (E : ε → Prop) : Prop :=
  match x s with
  | .ok (a, t) => Q a t
  | .error e => E e

variable {x : Action ε σ α} {f : α → Action ε σ β} {s t : σ}
variable {Q R : α → σ → Prop} {E F : ε → Prop}

theorem wp_iff : wp x s Q E ↔ (∀ a t, x s = .ok (a, t) → Q a t) ∧ ∀ e, x s = .error e → E e := by
  unfold wp
  rcases x s with e | ⟨a, t⟩
  · simp
  · simp

theorem wp_ok {a : α} (h : wp x s Q E) (hx : x s = .ok (a, t)) : Q a t := (wp_iff.mp h).1 a t hx

theorem wp_error {e : ε} (h : wp x s Q E) (hx : x s = .error e) : E e := (wp_iff.mp h).2 e hx

/-- A command that cannot fail returns. -/
theorem exists_of_wp (h : wp x s Q fun _ => False) : ∃ a t, x s = .ok (a, t) ∧ Q a t := by
  cases hx : x s with
  | ok r => exact ⟨r.1, r.2, rfl, wp_ok h hx⟩
  | error e => exact (wp_error h hx).elim

theorem wp_mono (h : wp x s R E) (hQ : ∀ a t, R a t → Q a t) : wp x s Q E :=
  wp_iff.mpr ⟨fun a t hx => hQ a t (wp_ok h hx), fun _ hx => wp_error h hx⟩

theorem wp_weaken (h : wp x s Q F) (hE : ∀ e, F e → E e) : wp x s Q E :=
  wp_iff.mpr ⟨fun _ _ hx => wp_ok h hx, fun e hx => hE e (wp_error h hx)⟩

theorem wp_pure {a : α} (h : Q a s) : wp (pure a : Action ε σ α) s Q E := h

theorem wp_update {g : σ → σ} {Q : Unit → σ → Prop} (h : Q () (g s)) :
    wp (update g : Action ε σ Unit) s Q E := h

theorem wp_fail {e : ε} (h : E e) : wp (fail e : Action ε σ α) s Q E := h

theorem wp_zoom {ε' : Type} {part : σ → τ} {put : τ → σ → σ} {wrap : ε' → ε}
    {g : τ → Except ε' (α × τ)}
    (hok : ∀ a u, g (part s) = .ok (a, u) → Q a (put u s))
    (herr : ∀ e, g (part s) = .error e → E (wrap e)) :
    wp (zoom part put wrap g) s Q E := by
  unfold wp zoom
  cases hg : g (part s) with
  | ok r => exact hok r.1 r.2 hg
  | error e => exact herr e hg

theorem bind_of_ok {a : α} (h : x s = .ok (a, t)) : (x >>= f) s = f a t := by
  have hbind : (x >>= f) s = (x s >>= fun r => f r.1 r.2) := rfl
  rw [hbind, h]
  rfl

theorem bind_of_error {e : ε} (h : x s = .error e) : (x >>= f) s = .error e := by
  have hbind : (x >>= f) s = (x s >>= fun r => f r.1 r.2) := rfl
  rw [hbind, h]
  rfl

/-- One command after another. -/
theorem wp_bind {Q : β → σ → Prop} (hx : wp x s R E)
    (hf : ∀ a t, R a t → wp (f a) t Q E) : wp (x >>= f) s Q E := by
  have hbind : (x >>= f) s = (x s >>= fun r => f r.1 r.2) := rfl
  unfold wp at hx ⊢
  rw [hbind]
  cases hxs : x s with
  | ok r =>
    rw [hxs] at hx
    exact hf r.1 r.2 hx
  | error e =>
    rw [hxs] at hx
    exact hx

theorem wp_read_bind {f : σ → Action ε σ β} {Q : β → σ → Prop}
    (h : wp (f s) s Q E) : wp (read >>= f) s Q E := h

theorem wp_update_bind {g : σ → σ} {f : Unit → Action ε σ β}
    {Q : β → σ → Prop} (h : wp (f ()) (g s) Q E) :
    wp (update g >>= f) s Q E := h

theorem wp_ite {c : Prop} [Decidable c] {y : Action ε σ α}
    (hx : c → wp x s Q E) (hy : ¬ c → wp y s Q E) :
    wp (if c then x else y) s Q E := by
  split
  next h => exact hx h
  next h => exact hy h

/-- A command repeated for every element of a list keeps what every single
run keeps. -/
theorem wp_forM {ι : Type} {l : List ι} {g : ι → Action ε σ PUnit}
    {I : σ → Prop}
    (hstep : ∀ i ∈ l, ∀ s, I s → wp (g i) s (fun _ t => I t) E) (hs : I s) :
    wp (l.forM g) s (fun _ t => I t) E := by
  induction l generalizing s with
  | nil => exact hs
  | cons i l ih =>
    refine wp_bind (hstep i List.mem_cons_self s hs) fun _ t ht => ?_
    exact ih (fun j hj => hstep j (List.mem_cons_of_mem i hj)) ht

/-! ## Commands that follow a preorder -/

/-- If `x` returns, it has moved the state along `r`. -/
structure Keeps (r : σ → σ → Prop) (x : Action ε σ α) : Prop where
  of_ok : ∀ s a t, x s = .ok (a, t) → r s t

namespace Keeps

variable {r r' : σ → σ → Prop}

theorem mono (h : Keeps r x) (hr : ∀ {s t}, r s t → r' s t) : Keeps r' x :=
  ⟨fun s a t hok => hr (h.of_ok s a t hok)⟩

theorem fail (e : ε) : Keeps r (Action.fail e : Action ε σ α) := ⟨fun _ _ _ h => nomatch h⟩

theorem update {g : σ → σ} (h : ∀ s, r s (g s)) : Keeps r (Action.update g : Action ε σ Unit) := by
  constructor
  rintro s a t ⟨⟩
  exact h s

variable [IsPreorder σ r]

protected theorem pure (a : α) : Keeps r (pure a : Action ε σ α) := by
  constructor
  rintro s b t ⟨⟩
  exact refl_of r s

theorem read : Keeps r (Action.read : Action ε σ σ) := by
  constructor
  rintro s a t ⟨⟩
  exact refl_of r s

protected theorem bind (hx : Keeps r x) (hf : ∀ a, Keeps r (f a)) : Keeps r (x >>= f) := by
  constructor
  intro s b u h
  have hbind : (x >>= f) s = (x s >>= fun p => f p.1 p.2) := rfl
  rw [hbind] at h
  cases hxs : x s with
  | ok p =>
    rw [hxs] at h
    exact trans_of r (hx.of_ok s p.1 p.2 hxs) ((hf p.1).of_ok p.2 b u h)
  | error e =>
    rw [hxs] at h
    cases h

theorem forM {ι : Type} {l : List ι} {g : ι → Action ε σ PUnit}
    (h : ∀ i, Keeps r (g i)) : Keeps r (l.forM g) := by
  induction l with
  | nil => exact .pure _
  | cons i l ih => exact .bind (h i) fun _ => ih

end Keeps

end Action

end OsCa
