import Mathlib.Data.List.Induction

/-!
# Systems driven by events

This module is independent of the repository.  A system is given by its
initial states and a partial, executable step function: `step s e = none`
says that the event `e` cannot happen in `s`.  Nondeterminism, such as the
interleaving of several processes, is the choice of the next event.

Every safety property below is proved by one of the two induction rules:
`Reachable.invariant` for properties of states, and `run_history` for
properties that also mention the events that led to the state.
-/

namespace OsCa

/-- A labelled transition system with an executable step. -/
structure EventSystem (σ ε : Type*) where
  init : σ → Prop
  step : σ → ε → Option σ

namespace EventSystem

variable {σ ε : Type*} (S : EventSystem σ ε)

/-- Execute a list of events, failing at the first impossible one. -/
def run : σ → List ε → Option σ
  | s, [] => some s
  | s, e :: es => (S.step s e).bind fun t => run t es

/-- States that some list of events reaches from an initial state. -/
def Reachable (t : σ) : Prop := ∃ s es, S.init s ∧ S.run s es = some t

@[simp] theorem run_nil (s : σ) : S.run s [] = some s := rfl

theorem run_cons (s : σ) (e : ε) (es : List ε) :
    S.run s (e :: es) = (S.step s e).bind fun t => S.run t es := rfl

theorem run_append (s : σ) (es fs : List ε) :
    S.run s (es ++ fs) = (S.run s es).bind fun t => S.run t fs := by
  induction es generalizing s with
  | nil => simp
  | cons e es ih =>
    rw [List.cons_append, run_cons, run_cons, Option.bind_assoc]
    congr 1
    funext t
    exact ih t

theorem run_snoc_eq_some_iff {s u : σ} {es : List ε} {e : ε} :
    S.run s (es ++ [e]) = some u ↔ ∃ t, S.run s es = some t ∧ S.step t e = some u := by
  rw [run_append, Option.bind_eq_some_iff]
  simp [run_cons]

/-- Every beginning of a possible run is possible. -/
theorem isSome_run_take {s : σ} {es : List ε} (h : (S.run s es).isSome)
    (n : ℕ) : (S.run s (es.take n)).isSome := by
  rw [← List.take_append_drop n es, run_append] at h
  exact Option.isSome_of_isSome_bind h

variable {S}

/-- A run that can be evaluated gives a state with the properties it shows. -/
theorem exists_of_any_run {P : σ → Prop} [DecidablePred P] {s : σ} {es : List ε}
    (h : (S.run s es).any (fun t => decide (P t)) = true) :
    ∃ t, S.run s es = some t ∧ P t := by
  rw [Option.any_eq_true] at h
  obtain ⟨t, ht, hP⟩ := h
  exact ⟨t, ht, of_decide_eq_true hP⟩

/-- History induction: a property of the events so far and the present state
that holds at the start and survives every step holds along every run. -/
theorem run_history
    {P : List ε → σ → Prop} {s t : σ} {es : List ε}
    (hstart : P [] s)
    (hstep : ∀ es t e u, P es t → S.step t e = some u → P (es ++ [e]) u)
    (hrun : S.run s es = some t) :
    P es t := by
  induction es using List.reverseRecOn generalizing t with
  | nil =>
    rw [run_nil, Option.some.injEq] at hrun
    subst t
    exact hstart
  | append_singleton es e ih =>
    obtain ⟨u, hu, hlast⟩ := (S.run_snoc_eq_some_iff).mp hrun
    exact hstep es u e t (ih hu) hlast

/-- A property preserved by every step is preserved by every run. -/
theorem run_invariant
    {P : σ → Prop} {s t : σ} {es : List ε}
    (hstep : ∀ s e t, P s → S.step s e = some t → P t)
    (hs : P s) (hrun : S.run s es = some t) :
    P t :=
  run_history (P := fun _ t => P t) hs (fun _ t e u ht hu => hstep t e u ht hu) hrun

/-- A property that holds initially and is preserved by every step holds in
every reachable state. -/
theorem Reachable.invariant
    {P : σ → Prop} {t : σ}
    (ht : S.Reachable t)
    (hinit : ∀ s, S.init s → P s)
    (hstep : ∀ s e t, P s → S.step s e = some t → P t) :
    P t := by
  obtain ⟨s, es, hs, hrun⟩ := ht
  exact run_invariant hstep (hinit s hs) hrun

/-- Every event of a run meets a condition on the state in which it happens. -/
def Meets (S : EventSystem σ ε) (ok : σ → ε → Prop) : σ → List ε → Prop
  | _, [] => True
  | s, e :: es => ok s e ∧ ∀ t, S.step s e = some t → S.Meets ok t es

theorem meets_of_forall_mem {ok : σ → ε → Prop} {es : List ε}
    (h : ∀ e ∈ es, ∀ s, ok s e) (s : σ) : S.Meets ok s es := by
  induction es generalizing s with
  | nil => trivial
  | cons e es ih =>
    refine ⟨h e List.mem_cons_self s, fun t _ => ih ?_ t⟩
    exact fun e' he' => h e' (List.mem_cons_of_mem e he')

instance decidableMeets (S : EventSystem σ ε) {ok : σ → ε → Prop}
    [∀ s e, Decidable (ok s e)] : ∀ s es, Decidable (S.Meets ok s es)
  | _, [] => .isTrue trivial
  | s, e :: es =>
    have : Decidable (∀ t, S.step s e = some t → S.Meets ok t es) := match S.step s e with
      | none => .isTrue (by simp)
      | some t =>
        have : Decidable (S.Meets ok t es) := decidableMeets S t es
        decidable_of_iff (S.Meets ok t es) (by simp)
    inferInstanceAs (Decidable (_ ∧ _))

/-- A property preserved by the steps that meet a condition is preserved by
every run that meets it throughout. -/
theorem Meets.invariant {ok : σ → ε → Prop} {P : σ → Prop} {s t : σ}
    {es : List ε} (h : S.Meets ok s es)
    (hstep : ∀ s e t, P s → ok s e → S.step s e = some t → P t)
    (hs : P s) (hrun : S.run s es = some t) :
    P t := by
  induction es generalizing s with
  | nil =>
    rw [run_nil, Option.some.injEq] at hrun
    exact hrun ▸ hs
  | cons e es ih =>
    obtain ⟨u, hu, hrest⟩ := Option.bind_eq_some_iff.mp hrun
    exact ih (h.2 u hu) (hstep s e u hs h.1 hu) hrest

end EventSystem

end OsCa
