import Mathlib.Data.List.Rotate
import OsCa.User.Threads.Model

/-!
# What the threads library is for

The library is a round-robin scheduler.  Abstractly it owns a queue of thread
identifiers with the running thread at its head, and it knows for every
thread whether it is fresh, running, suspended with a saved context, or gone.
This module states that scheduler on its own, as a system whose events are the
observations of the threads library, and derives what every accepted sequence
of observations looks like: the history of a single thread, and the order in
which threads get their turns.
-/

namespace OsCa.Threads

open Function List Option

variable {o : Obs} {trace pre post mid new old : List Obs} {i : ℕ} {c : Context}
  {l : List ℕ}

/-- The life of a thread. -/
inductive Life where
  | fresh (f arg stackP : Word)
  | running
  | suspended (saved : Context)
  | exited

/-- Who is in control: main, the head of the queue, or the scheduler, which
has to rotate the queue, dispatch its head, or go back to main. -/
inductive Phase where
  | main
  | running
  | choosing
  | dispatching
  | finishing
  deriving DecidableEq

structure Sched where
  queue : List ℕ
  life : ℕ → Option Life
  phase : Phase
  saved : Option Context

variable {σ τ : Sched}

namespace Sched

/-- Nothing has been created. -/
def start : Sched := ⟨[], fun _ => none, .main, none⟩

/-- When an observation is possible. -/
def Allows (σ : Sched) : Obs → Prop
  | .create i _ _ _ => (σ.phase = .main ∨ σ.phase = .running) ∧ σ.life i = none
  | .add i =>
    (σ.phase = .main ∨ σ.phase = .running) ∧ i ∉ σ.queue ∧
      ∃ f arg stackP, σ.life i = some (.fresh f arg stackP)
  | .start _ => σ.phase = .main ∧ σ.queue ≠ []
  | .yield i _ => σ.phase = .running ∧ σ.queue.head? = some i ∧ σ.life i = some .running
  | .schedule => σ.phase = .choosing
  | .enter i f arg sp =>
    σ.phase = .dispatching ∧ σ.queue.head? = some i ∧ σ.life i = some (.fresh f arg sp)
  | .resume i regs a0 =>
    σ.phase = .dispatching ∧ σ.queue.head? = some i ∧ σ.life i = some (.suspended regs) ∧ a0 = 1
  | .exit i => σ.phase = .running ∧ σ.queue.head? = some i ∧ σ.life i = some .running
  | .finish regs a0 => σ.phase = .finishing ∧ σ.saved = some regs ∧ a0 = 1

def setLife (σ : Sched) (i : ℕ) (x : Life) : Sched :=
  { σ with life := update σ.life i (some x) }

/-- The scheduler after an observation. -/
def after (σ : Sched) : Obs → Sched
  | .create i f arg stackP => σ.setLife i (.fresh f arg stackP)
  | .add i => { σ with queue := σ.queue ++ [i] }
  | .start c => { σ with phase := .choosing, saved := some c }
  | .yield i c => { σ.setLife i (.suspended c) with phase := .choosing }
  | .schedule => { σ with queue := σ.queue.rotate 1, phase := .dispatching }
  | .enter i _ _ _ => { σ.setLife i .running with phase := .running }
  | .resume i _ _ => { σ.setLife i .running with phase := .running }
  | .exit i =>
    { σ.setLife i .exited with
      queue := σ.queue.tail
      phase := if σ.queue.tail = [] then .finishing else .dispatching }
  | .finish _ _ => { σ with phase := .main, saved := none }

end Sched

open Classical in
/-- The scheduler as a system: it follows every observation it allows. -/
noncomputable def scheduler : EventSystem Sched Obs where
  init σ := σ = Sched.start
  step σ o := if σ.Allows o then some (σ.after o) else none

theorem scheduler_step_eq_some_iff : scheduler.step σ o = some τ ↔ σ.Allows o ∧ τ = σ.after o := by
  unfold scheduler
  by_cases h : σ.Allows o
  · simp [h, eq_comm]
  · simp [h]

/-- The scheduler follows the whole trace and ends in `σ`. -/
def Accepted (trace : List Obs) (σ : Sched) : Prop := scheduler.run Sched.start trace = some σ

theorem Accepted.snoc (h : Accepted trace σ) (ho : σ.Allows o) :
    Accepted (trace ++ [o]) (σ.after o) :=
  (EventSystem.run_snoc_eq_some_iff _).mpr ⟨σ, h, scheduler_step_eq_some_iff.mpr ⟨ho, rfl⟩⟩

/-- Inside an accepted trace, every observation was allowed. -/
theorem Accepted.split (h : Accepted (pre ++ o :: post) τ) :
    ∃ σ, Accepted pre σ ∧ σ.Allows o ∧ scheduler.run (σ.after o) post = some τ := by
  unfold Accepted at h
  rw [EventSystem.run_append, bind_eq_some_iff] at h
  obtain ⟨σ, hpre, hpost⟩ := h
  rw [EventSystem.run_cons, bind_eq_some_iff] at hpost
  obtain ⟨ρ, hstep, hpost⟩ := hpost
  obtain ⟨hallows, rfl⟩ := scheduler_step_eq_some_iff.mp hstep
  exact ⟨σ, hpre, hallows, hpost⟩

/-! ## The history of a thread -/

/-- The thread an observation is about. -/
def Obs.thread : Obs → Option ℕ
  | .create i _ _ _ => some i
  | .add i => some i
  | .start _ => none
  | .yield i _ => some i
  | .schedule => none
  | .enter i _ _ _ => some i
  | .resume i _ _ => some i
  | .exit i => some i
  | .finish _ _ => none

/-- The thread that an observation dispatches. -/
def Obs.dispatched : Obs → Option ℕ
  | .enter i _ _ _ => some i
  | .resume i _ _ => some i
  | _ => none

theorem Obs.thread_of_dispatched (h : o.dispatched = some i) : o.thread = some i := by
  cases o <;> simp_all [Obs.dispatched, Obs.thread]

/-- What the trace says about a thread in each stage of its life. -/
def Lived (trace : List Obs) (i : ℕ) : Option Life → Prop
  | none => ∀ o ∈ trace, o.thread ≠ some i
  | some (.fresh f arg stackP) =>
    .create i f arg stackP ∈ trace ∧ (∀ o ∈ trace, o.dispatched ≠ some i) ∧ .exit i ∉ trace
  | some .running =>
    (∃ f arg sp, .create i f arg sp ∈ trace ∧ .enter i f arg sp ∈ trace) ∧ .exit i ∉ trace
  | some (.suspended c) =>
    (∃ f arg sp, .create i f arg sp ∈ trace ∧ .enter i f arg sp ∈ trace) ∧ .exit i ∉ trace ∧
      ∃ u w, trace = u ++ .yield i c :: w ∧ ∀ o ∈ w, o.thread ≠ some i
  | some .exited =>
    (∃ f arg sp, .create i f arg sp ∈ trace ∧ .enter i f arg sp ∈ trace) ∧ .exit i ∈ trace

/-- Observations about other threads do not matter. -/
theorem Lived.snoc_of_ne {x : Option Life} (h : Lived trace i x)
    (ho : o.thread ≠ some i) : Lived (trace ++ [o]) i x := by
  have hexit : o ≠ .exit i := by
    rintro rfl
    exact ho rfl
  have hmem : ∀ o' ∈ trace, o' ∈ trace ++ [o] := fun o' ho' => mem_append_left _ ho'
  cases x with
  | none => exact forall_mem_append.mpr ⟨h, forall_mem_singleton.mpr ho⟩
  | some x =>
    cases x with
    | fresh f arg stackP =>
      obtain ⟨hcreate, hdispatch, hnot⟩ := h
      exact ⟨hmem _ hcreate, forall_mem_append.mpr ⟨hdispatch, forall_mem_singleton.mpr
        fun hd => ho (Obs.thread_of_dispatched hd)⟩, by simp [hnot, Ne.symm hexit]⟩
    | running =>
      obtain ⟨⟨f, arg, sp, hc, he⟩, hnot⟩ := h
      exact ⟨⟨f, arg, sp, hmem _ hc, hmem _ he⟩, by simp [hnot, Ne.symm hexit]⟩
    | suspended c =>
      obtain ⟨⟨f, arg, sp, hc, he⟩, hnot, u, w, rfl, hw⟩ := h
      exact ⟨⟨f, arg, sp, hmem _ hc, hmem _ he⟩, by simpa [Ne.symm hexit] using hnot,
        u, w ++ [o], by simp, forall_mem_append.mpr ⟨hw, forall_mem_singleton.mpr ho⟩⟩
    | exited =>
      obtain ⟨⟨f, arg, sp, hc, he⟩, hexited⟩ := h
      exact ⟨⟨f, arg, sp, hmem _ hc, hmem _ he⟩, hmem _ hexited⟩

theorem Sched.life_after_of_ne (ho : o.thread ≠ some i) : (σ.after o).life i = σ.life i := by
  cases o <;> first
    | rfl
    | exact update_of_ne (fun h => ho (congrArg some h.symm)) _ _

theorem Lived.step (h : Lived trace i (σ.life i)) (ho : σ.Allows o) :
    Lived (trace ++ [o]) i ((σ.after o).life i) := by
  by_cases hi : o.thread = some i
  case neg =>
    rw [Sched.life_after_of_ne hi]
    exact h.snoc_of_ne hi
  cases o with
  | start | schedule | finish => cases hi
  | create j f arg stackP =>
    cases hi
    obtain ⟨-, hnone⟩ := ho
    rw [hnone] at h
    simp only [Sched.after, Sched.setLife, update_self]
    refine ⟨by simp, ?_, ?_⟩
    · exact forall_mem_append.mpr ⟨fun o ho hd => h o ho (Obs.thread_of_dispatched hd),
        forall_mem_singleton.mpr nofun⟩
    · simp only [mem_append, mem_singleton, reduceCtorEq, or_false]
      exact fun hexit => h _ hexit rfl
  | add j =>
    cases hi
    obtain ⟨-, -, f, arg, stackP, hlife⟩ := ho
    rw [hlife] at h
    change Lived _ _ (σ.life i)
    rw [hlife]
    obtain ⟨hcreate, hdispatch, hexit⟩ := h
    exact ⟨by simp [hcreate], forall_mem_append.mpr ⟨hdispatch, forall_mem_singleton.mpr nofun⟩,
      by simp [hexit]⟩
  | yield j c =>
    cases hi
    rw [ho.2.2] at h
    obtain ⟨⟨f, arg, sp, hc, he⟩, hexit⟩ := h
    simp only [Sched.after, Sched.setLife, update_self]
    exact ⟨⟨f, arg, sp, by simp [hc], by simp [he]⟩, by simp [hexit], trace, [], rfl, by simp⟩
  | enter j f arg sp =>
    cases hi
    rw [ho.2.2] at h
    obtain ⟨hcreate, -, hexit⟩ := h
    simp only [Sched.after, Sched.setLife, update_self]
    exact ⟨⟨f, arg, sp, by simp [hcreate], by simp⟩, by simp [hexit]⟩
  | resume j regs a0 =>
    cases hi
    rw [ho.2.2.1] at h
    obtain ⟨⟨f, arg, sp, hc, he⟩, hexit, -⟩ := h
    simp only [Sched.after, Sched.setLife, update_self]
    exact ⟨⟨f, arg, sp, by simp [hc], by simp [he]⟩, by simp [hexit]⟩
  | exit j =>
    cases hi
    rw [ho.2.2] at h
    obtain ⟨⟨f, arg, sp, hc, he⟩, -⟩ := h
    simp only [Sched.after, Sched.setLife, update_self]
    exact ⟨⟨f, arg, sp, by simp [hc], by simp [he]⟩, by simp⟩

theorem Accepted.lived (h : Accepted trace σ) (i : ℕ) : Lived trace i (σ.life i) := by
  refine EventSystem.run_history (P := fun tr σ => Lived tr i (σ.life i))
    (by simp [Sched.start, Lived]) ?_ h
  intro tr σ o τ hlived hstep
  obtain ⟨hallows, rfl⟩ := scheduler_step_eq_some_iff.mp hstep
  exact hlived.step hallows

/-- The observations that save and restore the context of main. -/
def Obs.OfMain : Obs → Prop
  | .start _ => True
  | .finish _ _ => True
  | _ => False

/-- The saved context of main comes from the last call of
`thread_start_threading`. -/
theorem Accepted.saved (h : Accepted trace σ) (hsaved : σ.saved = some c) :
    ∃ u w, trace = u ++ .start c :: w ∧ ∀ o ∈ w, ¬ o.OfMain := by
  refine EventSystem.run_history (P := fun tr σ => σ.saved = some c →
      ∃ u w, tr = u ++ .start c :: w ∧ ∀ o ∈ w, ¬ o.OfMain)
    (by simp [Sched.start]) ?_ h hsaved
  intro tr σ o τ ih hstep hc
  obtain ⟨hallows, rfl⟩ := scheduler_step_eq_some_iff.mp hstep
  have hkeep : ¬ o.OfMain → σ.saved = some c →
      ∃ u w, tr ++ [o] = u ++ .start c :: w ∧ ∀ o ∈ w, ¬ o.OfMain := by
    intro ho hσ
    obtain ⟨u, w, rfl, hw⟩ := ih hσ
    exact ⟨u, w ++ [o], by simp, forall_mem_append.mpr ⟨hw, forall_mem_singleton.mpr ho⟩⟩
  cases o with
  | start c' =>
    obtain rfl : c' = c := some.inj hc
    exact ⟨tr, [], rfl, by simp⟩
  | finish regs a0 => exact absurd hc (by simp [Sched.after])
  | create | add | yield | schedule | enter | resume | exit => exact hkeep id hc

/-! ## The order of turns -/

/-- The queue has no duplicates, only knows created threads, and is not empty
while a thread runs. -/
structure Sched.Ok (σ : Sched) : Prop where
  nodup : σ.queue.Nodup
  known : ∀ i ∈ σ.queue, σ.life i ≠ none
  busy : σ.phase = .running → σ.queue ≠ []
  empty : σ.phase = .finishing → σ.queue = []

theorem Sched.known_setLife {x : Life} (h : ∀ j ∈ σ.queue, σ.life j ≠ none) :
    ∀ j ∈ σ.queue, (σ.setLife i x).life j ≠ none := by
  intro j hj
  by_cases hji : j = i
  · simp [Sched.setLife, hji]
  · simpa [Sched.setLife, hji] using h j hj

theorem Sched.Ok.step (h : σ.Ok) (ho : σ.Allows o) : (σ.after o).Ok := by
  obtain ⟨hnodup, hknown, hbusy, hempty⟩ := h
  cases o with
  | create i f arg stackP => exact ⟨hnodup, known_setLife hknown, hbusy, hempty⟩
  | add i =>
    obtain ⟨hphase, hi, f, arg, stackP, hlife⟩ := ho
    refine ⟨?_, ?_, by simp [Sched.after], ?_⟩
    · exact hnodup.append (nodup_singleton i) (by simpa using hi)
    · exact forall_mem_append.mpr ⟨hknown, by simp [Sched.after, hlife]⟩
    · rcases hphase with hphase | hphase <;> simp [Sched.after, hphase]
  | start c => exact ⟨hnodup, hknown, nofun, nofun⟩
  | yield i c => exact ⟨hnodup, known_setLife hknown, nofun, nofun⟩
  | schedule =>
    refine ⟨nodup_rotate.mpr hnodup, ?_, nofun, nofun⟩
    intro j hj
    exact hknown j (mem_rotate.mp hj)
  | enter | resume =>
    refine ⟨hnodup, known_setLife hknown, ?_, nofun⟩
    intro _ hnil
    simp [show σ.queue = [] from hnil, Sched.Allows] at ho
  | exit i =>
    refine ⟨hnodup.tail, ?_, ?_, ?_⟩
    · intro j hj
      exact known_setLife hknown j (mem_of_mem_tail hj)
    · simp only [Sched.after]
      split <;> exact nofun
    · simp only [Sched.after]
      split
      · exact fun _ => by assumption
      · exact nofun
  | finish regs a0 => exact ⟨hnodup, hknown, nofun, nofun⟩

theorem Sched.Ok.run (h : σ.Ok) (hrun : scheduler.run σ trace = some τ) : τ.Ok :=
  EventSystem.run_invariant (P := Sched.Ok) (fun _ _ _ hok hstep => by
      obtain ⟨hallows, rfl⟩ := scheduler_step_eq_some_iff.mp hstep
      exact hok.step hallows)
    h hrun

theorem Accepted.ok (h : Accepted trace σ) : σ.Ok :=
  Sched.Ok.run ⟨by simp [Sched.start], by simp [Sched.start], by simp [Sched.start],
      by simp [Sched.start]⟩ h

/-- The threads in the order in which they will be dispatched, as far as that
is settled. -/
def Sched.waiting (σ : Sched) : List ℕ :=
  match σ.phase with
  | .running => σ.queue.tail
  | .choosing => σ.queue.rotate 1
  | .dispatching => σ.queue
  | .main => []
  | .finishing => []

/-- A thread that is added, or yields, goes to the end of the line. -/
def Obs.appended : Obs → List ℕ
  | .add i => [i]
  | .yield i _ => [i]
  | _ => []

theorem Sched.queue_eq_cons (h : σ.queue.head? = some i) : ∃ l, σ.queue = i :: l := by
  cases hq : σ.queue with
  | nil => simp [hq] at h
  | cons j l =>
    obtain rfl : j = i := by simpa [hq] using h
    exact ⟨l, rfl⟩

theorem Sched.waiting_after (hok : σ.Ok) (ho : σ.Allows o) (hmain : σ.phase ≠ .main)
    (hd : o.dispatched = none) : (σ.after o).waiting = σ.waiting ++ o.appended := by
  cases o with
  | create i f arg stackP => simp [waiting, after, setLife, Obs.appended]
  | add i =>
    have hphase : σ.phase = .running := ho.1.resolve_left hmain
    cases hq : σ.queue with
    | nil => exact absurd hq (hok.busy hphase)
    | cons j l => simp [waiting, after, hphase, hq, Obs.appended]
  | start c => exact absurd ho.1 hmain
  | yield i c =>
    obtain ⟨l, hq⟩ := queue_eq_cons ho.2.1
    simp [waiting, after, setLife, ho.1, hq, Obs.appended]
  | schedule =>
    have hphase : σ.phase = .choosing := ho
    simp [waiting, after, hphase, Obs.appended]
  | enter | resume => cases hd
  | exit i =>
    by_cases hlast : σ.queue.tail = [] <;> simp [waiting, after, ho.1, hlast, Obs.appended]
  | finish regs a0 => simp [waiting, after, ho.1, Obs.appended]

theorem Sched.waiting_of_dispatched (ho : σ.Allows o) (hd : o.dispatched = some i) :
    σ.waiting = i :: (σ.after o).waiting := by
  cases o with
  | enter | resume =>
    cases hd
    obtain ⟨l, hq⟩ := queue_eq_cons ho.2.1
    simp [waiting, after, setLife, ho.1, hq]
  | create | add | start | yield | schedule | exit | finish => cases hd

/-- Until `i` is dispatched, exactly the threads in front of it are, in
order. -/
theorem Sched.waiting_run {front back : List ℕ} (hok : σ.Ok)
    (hwaiting : σ.waiting = front ++ i :: back)
    (hmid : ∀ o ∈ mid, o.dispatched ≠ some i) (hrun : scheduler.run σ mid = some τ) :
    ∃ front' back', τ.waiting = front' ++ i :: back' ∧
      front = mid.filterMap Obs.dispatched ++ front' := by
  induction mid generalizing σ front back with
  | nil =>
    obtain rfl : σ = τ := some.inj hrun
    exact ⟨front, back, hwaiting, rfl⟩
  | cons o mid ih =>
    rw [EventSystem.run_cons, bind_eq_some_iff] at hrun
    obtain ⟨ρ, hstep, hrun⟩ := hrun
    obtain ⟨hallows, rfl⟩ := scheduler_step_eq_some_iff.mp hstep
    have hmid' : ∀ o ∈ mid, o.dispatched ≠ some i := fun o ho => hmid o (mem_cons_of_mem _ ho)
    have hmain : σ.phase ≠ .main := by
      intro hphase
      simp [waiting, hphase] at hwaiting
    cases hd : o.dispatched with
    | none =>
      have hnext : (σ.after o).waiting = front ++ i :: (back ++ o.appended) := by
        rw [waiting_after hok hallows hmain hd, hwaiting]
        simp
      obtain ⟨front', back', hτ, hfront⟩ := ih (hok.step hallows) hnext hmid' hrun
      exact ⟨front', back', hτ, by simpa [hd] using hfront⟩
    | some j =>
      have hcons := waiting_of_dispatched hallows hd
      rw [hwaiting] at hcons
      cases front with
      | nil =>
        obtain rfl : i = j := (cons.inj hcons).1
        exact absurd hd (hmid o (by simp))
      | cons k front =>
        obtain ⟨rfl, hrest⟩ := cons.inj hcons
        obtain ⟨front', back', hτ, hfront⟩ := ih (hok.step hallows) hrest.symm hmid' hrun
        refine ⟨front', back', hτ, ?_⟩
        simp [hd, hfront]

/-- Between a thread's yield and its next turn, the other threads of the queue
get one turn each, in the order of the queue. -/
theorem Accepted.turns (h : Accepted (pre ++ .yield i c :: (mid ++ o :: post)) τ)
    (ho : o.dispatched = some i) (hmid : ∀ o ∈ mid, o.dispatched ≠ some i) :
    ∃ σ l, Accepted pre σ ∧ σ.queue = i :: l ∧ mid.filterMap Obs.dispatched = l := by
  obtain ⟨σ, hpre, hallows, hrun⟩ := h.split
  obtain ⟨l, hq⟩ := Sched.queue_eq_cons hallows.2.1
  refine ⟨σ, l, hpre, hq, ?_⟩
  rw [EventSystem.run_append, bind_eq_some_iff] at hrun
  obtain ⟨ρ, hmidrun, hrun⟩ := hrun
  rw [EventSystem.run_cons, bind_eq_some_iff] at hrun
  obtain ⟨_, hstep, -⟩ := hrun
  obtain ⟨hdispatch, -⟩ := scheduler_step_eq_some_iff.mp hstep
  have hwaiting : (σ.after (.yield i c)).waiting = l ++ i :: [] := by
    simp [Sched.waiting, Sched.after, Sched.setLife, hq]
  obtain ⟨front, back, hρ, hl⟩ := Sched.waiting_run (hpre.ok.step hallows) hwaiting hmid hmidrun
  have hcons := Sched.waiting_of_dispatched hdispatch ho
  rw [hρ] at hcons
  have hfront : front = [] := by
    cases front with
    | nil => rfl
    | cons k front =>
      obtain ⟨rfl, -⟩ := cons.inj hcons
      have hnodup := hpre.ok.nodup
      rw [hq, hl] at hnodup
      simp at hnodup
  simp [hl, hfront]

/-! ## The order of first turns -/

def Sched.isFresh (σ : Sched) (i : ℕ) : Bool :=
  match σ.life i with
  | some (.fresh _ _ _) => true
  | _ => false

/-- The thread whose function an observation enters. -/
def Obs.entered : Obs → Option ℕ
  | .enter i _ _ _ => some i
  | _ => none

def Obs.added : Obs → Option ℕ
  | .add i => some i
  | _ => none

theorem Sched.isFresh_after_of_ne (ho : o.thread ≠ some i) :
    (σ.after o).isFresh i = σ.isFresh i := by
  unfold isFresh
  rw [life_after_of_ne ho]

theorem Sched.mem_queue_of_mem_waiting (h : i ∈ σ.waiting) : i ∈ σ.queue := by
  unfold waiting at h
  split at h
  · exact mem_of_mem_tail h
  · exact mem_rotate.mp h
  · exact h
  · cases h
  · cases h

theorem Sched.not_mem_waiting_of_running (hok : σ.Ok) (hphase : σ.phase = .running)
    (hi : σ.queue.head? = some i) : i ∉ σ.waiting := by
  obtain ⟨l, hq⟩ := queue_eq_cons hi
  have hnodup := hok.nodup
  rw [hq] at hnodup
  simpa [waiting, hphase, hq] using (nodup_cons.mp hnodup).1

/-- A thread in its turn does not wait. -/
theorem Sched.not_mem_waiting_of_dispatched (hok : σ.Ok) (ho : σ.Allows o)
    (hphase : σ.phase = .dispatching) (hd : o.dispatched = some i) :
    i ∉ (σ.after o).waiting := by
  refine (nodup_cons.mp (?_ : (i :: _).Nodup)).1
  rw [← waiting_of_dispatched ho hd]
  simpa [waiting, hphase] using hok.nodup

/-- An observation that is not about a waiting thread leaves the waiting fresh
threads as they are. -/
theorem Sched.filter_isFresh_after (o : Obs) (h : ∀ i, o.thread = some i → i ∉ l) :
    l.filter (σ.after o).isFresh = l.filter σ.isFresh :=
  filter_congr fun i hi => isFresh_after_of_ne fun ho => h i ho hi

/-- One step either enters the first waiting fresh thread, or lets an added
thread wait behind the others, or changes nothing about them. -/
theorem Sched.firstTurns_step (hok : σ.Ok) (ho : σ.Allows o) (hmain : σ.phase ≠ .main) :
    o.entered.toList ++ (σ.after o).waiting.filter (σ.after o).isFresh =
      σ.waiting.filter σ.isFresh ++ o.added.toList := by
  cases o with
  | create i f arg stackP =>
    have hi : ∀ j, some i = some j → j ∉ σ.waiting := by
      rintro j ⟨⟩ hj
      exact hok.known i (mem_queue_of_mem_waiting hj) ho.2
    rw [waiting_after hok ho hmain rfl]
    simpa [Obs.entered, Obs.added, Obs.appended] using filter_isFresh_after (.create ..) hi
  | add i =>
    obtain ⟨f, arg, stackP, hlife⟩ := ho.2.2
    have hi : ∀ j, some i = some j → j ∉ σ.waiting := by
      rintro j ⟨⟩ hj
      exact ho.2.1 (mem_queue_of_mem_waiting hj)
    rw [waiting_after hok ho hmain rfl, filter_append, filter_isFresh_after (.add i) hi]
    simp [Obs.entered, Obs.added, Obs.appended, isFresh, after, hlife]
  | start c => exact absurd ho.1 hmain
  | yield i c =>
    have hi : ∀ j, some i = some j → j ∉ σ.waiting := by
      rintro j ⟨⟩
      exact not_mem_waiting_of_running hok ho.1 ho.2.1
    rw [waiting_after hok ho hmain rfl, filter_append, filter_isFresh_after (.yield i c) hi]
    simp [Obs.entered, Obs.added, Obs.appended, isFresh, after, setLife]
  | schedule =>
    rw [waiting_after hok ho hmain rfl]
    simpa [Obs.entered, Obs.added, Obs.appended] using
      filter_isFresh_after (l := σ.waiting) .schedule nofun
  | enter i f arg sp =>
    rw [filter_isFresh_after (.enter i f arg sp) fun _ =>
      not_mem_waiting_of_dispatched hok ho ho.1, waiting_of_dispatched ho rfl]
    simp [Obs.entered, Obs.added, isFresh, ho.2.2]
  | resume i regs a0 =>
    rw [filter_isFresh_after (.resume i regs a0) fun _ =>
      not_mem_waiting_of_dispatched hok ho ho.1, waiting_of_dispatched ho rfl]
    simp [Obs.entered, Obs.added, isFresh, ho.2.2]
  | exit i =>
    have hi : ∀ j, some i = some j → j ∉ σ.waiting := by
      rintro j ⟨⟩
      exact not_mem_waiting_of_running hok ho.1 ho.2.1
    rw [waiting_after hok ho hmain rfl]
    simpa [Obs.entered, Obs.added, Obs.appended] using filter_isFresh_after (.exit i) hi
  | finish regs a0 =>
    rw [waiting_after hok ho hmain rfl]
    simpa [Obs.entered, Obs.added, Obs.appended] using
      filter_isFresh_after (l := σ.waiting) (.finish regs a0) nofun

theorem Sched.phase_after_ne_main (hmain : σ.phase ≠ .main)
    (ho : ∀ c a, o ≠ .finish c a) : (σ.after o).phase ≠ .main := by
  cases o with
  | create | add => exact hmain
  | start | yield | schedule | enter | resume => exact nofun
  | exit i =>
    simp only [Sched.after]
    split <;> exact nofun
  | finish c a => exact absurd rfl (ho c a)

/-- Until control goes back to main, the threads entered are the waiting fresh
ones followed by those added since, in that order. -/
theorem Sched.firstTurns_run (hok : σ.Ok) (hmain : σ.phase ≠ .main)
    (hpost : ∀ c a, .finish c a ∉ post) (hrun : scheduler.run σ post = some τ) :
    post.filterMap Obs.entered ++ τ.waiting.filter τ.isFresh =
      σ.waiting.filter σ.isFresh ++ post.filterMap Obs.added := by
  induction post generalizing σ with
  | nil =>
    obtain rfl : σ = τ := some.inj hrun
    simp
  | cons o post ih =>
    rw [EventSystem.run_cons, bind_eq_some_iff] at hrun
    obtain ⟨ρ, hstep, hrun⟩ := hrun
    obtain ⟨hallows, rfl⟩ := scheduler_step_eq_some_iff.mp hstep
    have hnext : (σ.after o).phase ≠ .main := phase_after_ne_main hmain fun c a heq =>
        hpost c a (heq ▸ mem_cons_self)
    have hrest := ih (hok.step hallows) hnext
      (fun c a hmem => hpost c a (mem_cons_of_mem _ hmem)) hrun
    have hcons : ∀ f : Obs → Option ℕ,
        (o :: post).filterMap f = (f o).toList ++ post.filterMap f := by
      intro f
      cases hf : f o <;> simp [hf]
    rw [hcons, hcons, append_assoc, hrest, ← append_assoc,
      firstTurns_step hok hallows hmain, append_assoc]

/-- While main is in control, it only fills the queue with fresh threads. -/
theorem Sched.mainQueue_run (hphase : σ.phase = .main) (hq : σ.queue = [])
    (hnew : ∀ c, .start c ∉ new) (hrun : scheduler.run σ new = some τ) :
    τ.phase = .main ∧ τ.queue = new.filterMap Obs.added ∧ ∀ i ∈ τ.queue, τ.isFresh i := by
  refine EventSystem.run_history (P := fun new τ => (∀ c, .start c ∉ new) → τ.phase = .main ∧
      τ.queue = new.filterMap Obs.added ∧ ∀ i ∈ τ.queue, τ.isFresh i)
    (fun _ => ⟨hphase, by simp [hq], by simp [hq]⟩) ?_ hrun hnew
  intro new τ o ρ ih hstep hno
  obtain ⟨hallows, rfl⟩ := scheduler_step_eq_some_iff.mp hstep
  obtain ⟨hmain, hqueue, hfresh⟩ := ih fun c hc => hno c (by simp [hc])
  cases o with
  | create i f arg stackP =>
    refine ⟨hmain, by simp [after, setLife, hqueue, Obs.added], ?_⟩
    intro j hj
    by_cases hji : i = j
    · subst j
      simp [isFresh, after, setLife]
    · rw [isFresh_after_of_ne (by simpa [Obs.thread] using hji)]
      exact hfresh j hj
  | add i =>
    obtain ⟨-, -, f, arg, stackP, hlife⟩ := hallows
    refine ⟨hmain, by simp [after, hqueue, Obs.added], ?_⟩
    intro j hj
    change τ.isFresh j = true
    revert j
    exact forall_mem_append.mpr ⟨hfresh, by simp [isFresh, hlife]⟩
  | start c => exact absurd (by simp) (hno c)
  | yield | schedule | enter | resume | exit | finish => simp [Allows, hmain] at hallows

/-- `old` is a trace after which the library has nothing to do: the beginning,
or the return to main. -/
def Idle (old : List Obs) : Prop := old = [] ∨ ∃ u c a, old = u ++ [.finish c a]

theorem Accepted.idle (h : Accepted old σ) (hidle : Idle old) : σ.phase = .main ∧ σ.queue = [] := by
  rcases hidle with rfl | ⟨u, c, a, rfl⟩
  · obtain rfl : Sched.start = σ := some.inj h
    exact ⟨rfl, rfl⟩
  · have h : Accepted (u ++ .finish c a :: []) σ := h
    obtain ⟨ρ, hu, hallows, hrun⟩ := Accepted.split h
    obtain rfl : ρ.after (.finish c a) = σ := some.inj hrun
    exact ⟨rfl, hu.ok.empty hallows.1⟩

/-- In a session of the library, the threads are entered in the order in
which they were added, except that the first one comes after the others that
were added before the start. -/
theorem Accepted.firstTurns {t : ℕ} (h : Accepted (old ++ new ++ .start c :: post) τ)
    (hidle : Idle old) (hnew : ∀ c, .start c ∉ new)
    (hadded : new.filterMap Obs.added = t :: l) (hpost : ∀ c a, .finish c a ∉ post) :
    post.filterMap Obs.entered ++ τ.waiting.filter τ.isFresh =
      l ++ t :: post.filterMap Obs.added := by
  obtain ⟨σ, hpre, hallows, hrun⟩ := h.split
  unfold Accepted at hpre
  rw [EventSystem.run_append, bind_eq_some_iff] at hpre
  obtain ⟨ρ, hold, hpre⟩ := hpre
  obtain ⟨hphase, hempty⟩ := Accepted.idle hold hidle
  obtain ⟨-, hqueue, hfresh⟩ := Sched.mainQueue_run hphase hempty hnew hpre
  rw [hadded] at hqueue
  have hok : σ.Ok := (Accepted.ok hold).run hpre
  rw [Sched.firstTurns_run (hok.step hallows) nofun hpost hrun]
  have hwaiting : (σ.after (.start c)).waiting = l ++ [t] := by
    simp [Sched.waiting, Sched.after, hqueue]
  have hall : (l ++ [t]).filter (σ.after (.start c)).isFresh = l ++ [t] := by
    refine filter_eq_self.mpr fun i hi => hfresh i ?_
    rw [hqueue]
    simpa [or_comm] using hi
  rw [hwaiting, hall]
  simp

end OsCa.Threads
