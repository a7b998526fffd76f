import Mathlib.Data.Fin.Basic
import OsCa.Support.EventSystem

/-!
# The interrupt state of the CPUs

`push_off`, `pop_off`, `acquire` and `release` of `kernel/spinlock.c`, and the switches in
`scheduler` and `sched` of `kernel/proc.c`, on any number of CPUs.  The events of a CPU are
those of the thread that runs on it: its scheduler, or the kernel thread of a process, which
makes the calls in any order and can go on on another CPU after `sched`.  The calls of an
interrupt handler are those of the thread it interrupts.

`intr_on`, `intr_off`, and the entry of and the return from interrupts are made without a
spinlock.  There is no step where the code panics.  `noff`, an `int`, is the depth of nested
calls.  `pushes` and `was` are not in the source.
-/

namespace OsCa.Interrupts

open Function

/-- `p->lock`, or another spinlock. -/
inductive Lock (P : Type*) where
  | proc (p : P)
  | other (k : ℕ)
  deriving DecidableEq

/-- Where a scheduler is. -/
inductive Pc (P : Type*) where
  /-- In the loop, where the handlers of interrupts have `k` calls of `push_off` to undo. -/
  | loop (k : ℕ)
  /-- After `acquire(&p->lock)`. -/
  | test (p : P)
  /-- At `release(&p->lock)`. -/
  | release (p : P)

/-- How many pushes the scheduler has made. -/
def Pc.depth {P : Type*} : Pc P → ℕ
  | .loop k => k
  | .test _ | .release _ => 1

structure Cpu (P : Type*) where
  noff : ℕ
  intena : Bool
  /-- Interrupts are enabled. -/
  intr : Bool
  proc : Option P
  /-- The lock that the thread spins for. -/
  spin : Option (Lock P)
  /-- Where the scheduler is while it runs. -/
  pc : Pc P
  /-- The calls of `push_off` by the scheduler less those of `pop_off`. -/
  pushes : ℕ

inductive ProcState where
  | sleeping
  | runnable
  | running
  deriving DecidableEq

/-- The kernel thread of a process. -/
structure Thread where
  state : ProcState
  /-- The variable of `sched`, unless the thread has yet to start, in `forkret`. -/
  intena : Option Bool
  /-- The calls of `push_off` for the thread less those of `pop_off`.  It starts with one,
  for the `p->lock` that it finds taken. -/
  pushes : ℕ
  /-- Interrupts were enabled when the thread made its outermost `push_off`. -/
  was : Option Bool

structure State (C P : Type*) where
  cpu : C → Cpu P
  /-- `lk->cpu`, while the lock is taken. -/
  lock : Lock P → Option C
  thread : P → Thread

inductive Event (C P : Type*) where
  | pushOff (c : C)
  | popOff (c : C)
  | acquire (c : C) (lk : Lock P)
  /-- The lock that the CPU spins for is free. -/
  | locked (c : C)
  | release (c : C) (lk : Lock P)
  | intr (c : C) (enable : Bool)
  /-- `acquire(&p->lock)` in `scheduler`. -/
  | choose (c : C) (p : P)
  /-- The test of `p->state` in `scheduler`. -/
  | test (c : C)
  /-- `release(&p->lock)` in `scheduler`. -/
  | next (c : C)
  /-- `p->state` is set, and `sched` is called. -/
  | sched (c : C) (state : ProcState)
  | wakeup (c : C) (p : P)

namespace Cpu

variable {P : Type*}

def pushOff (x : Cpu P) : Cpu P :=
  { x with
    intr := false
    intena := if x.noff = 0 then x.intr else x.intena
    noff := x.noff + 1 }

def popOff (x : Cpu P) : Option (Cpu P) := if x.intr then none else if x.noff < 1 then none else
    some { x with
      noff := x.noff - 1
      intr := if x.noff - 1 = 0 ∧ x.intena = true then true else x.intr }

theorem popOff_eq_some {x y : Cpu P} : x.popOff = some y ↔ x.intr = false ∧ 0 < x.noff ∧
      { x with
        noff := x.noff - 1
        intr := if x.noff - 1 = 0 ∧ x.intena = true then true else x.intr } = y := by
  rw [popOff, Option.ite_none_left_eq_some, Option.ite_none_left_eq_some, Bool.not_eq_true,
    Nat.not_lt, Option.some_inj]
  rfl

/-- The thread does not spin, and it is that of a process or in the loop of its scheduler. -/
def calls (x : Cpu P) : Bool :=
  x.spin.isNone && (x.proc.isSome || match x.pc with | .loop _ => true | _ => false)

end Cpu

variable {C P : Type*} {s t : State C P} {c : C} {p : P} {x : Cpu P} {th : Thread}

/-- A step of the scheduler of the CPU, which does not spin. -/
def scheduler (s : State C P) (c : C) (f : Pc P → Option (State C P)) : Option (State C P) :=
  match (s.cpu c).proc, (s.cpu c).spin with
  | none, none => f (s.cpu c).pc
  | _, _ => none

theorem scheduler_eq_some {f : Pc P → Option (State C P)} : scheduler s c f = some t ↔
    (s.cpu c).proc = none ∧ (s.cpu c).spin = none ∧ f (s.cpu c).pc = some t := by
  rw [scheduler]
  split
  next hp hspin => simp [hp, hspin]
  next hne =>
    refine ⟨nofun, fun ⟨hp, hspin, _⟩ => ?_⟩
    exact absurd hspin (hne hp)

namespace State

variable [DecidableEq C] [DecidableEq P]

def setCpu (s : State C P) (c : C) (x : Cpu P) : State C P :=
  { s with cpu := update s.cpu c x }

def setThread (s : State C P) (p : P) (th : Thread) : State C P :=
  { s with thread := update s.thread p th }

def setLock (s : State C P) (lk : Lock P) (o : Option C) : State C P :=
  { s with lock := update s.lock lk o }

/-- `push_off`, by the thread that runs on the CPU, which then spins for `spin`. -/
def push (s : State C P) (c : C) (spin : Option (Lock P)) : State C P :=
  let x := { (s.cpu c).pushOff with spin := spin }
  match x.proc with
  | some p =>
    let th := s.thread p
    (s.setCpu c x).setThread p
      { th with
        pushes := th.pushes + 1
        was := if th.pushes = 0 then some (s.cpu c).intr else th.was }
  | none => s.setCpu c { x with pc := .loop (x.pc.depth + 1), pushes := x.pushes + 1 }

/-- `pop_off`, by the thread that runs on the CPU. -/
def pop (s : State C P) (c : C) : Option (State C P) := (s.cpu c).popOff.map fun x =>
    match x.proc with
    | some p => (s.setCpu c x).setThread p { s.thread p with pushes := (s.thread p).pushes - 1 }
    | none => s.setCpu c { x with pc := .loop (x.pc.depth - 1), pushes := x.pushes - 1 }

end State

def step [DecidableEq C] [DecidableEq P] (s : State C P) : Event C P → Option (State C P)
  | .pushOff c => if (s.cpu c).calls then some (s.push c none) else none
  | .popOff c => if (s.cpu c).calls then s.pop c else none
  | .acquire c lk =>
    if (s.cpu c).calls ∧ s.lock lk ≠ some c then some (s.push c (some lk)) else none
  | .locked c =>
    match (s.cpu c).spin with
    | some lk =>
      if s.lock lk = none then
        some ((s.setLock lk (some c)).setCpu c { s.cpu c with spin := none })
      else none
    | none => none
  | .release c lk =>
    if (s.cpu c).calls ∧ s.lock lk = some c then (s.setLock lk none).pop c else none
  | .intr c enable =>
    if (s.cpu c).noff = 0 then some (s.setCpu c { s.cpu c with intr := enable }) else none
  | .choose c p => scheduler s c fun
    | .loop 0 =>
      if s.lock (.proc p) = some c then none
      else
        some (s.setCpu c { (s.cpu c).pushOff with
          spin := some (.proc p)
          pc := .test p
          pushes := (s.cpu c).pushes + 1 })
    | _ => none
  | .test c => scheduler s c fun
    | .test p =>
      let th := s.thread p
      if th.state = .runnable then
        some ((s.setThread p { th with state := .running }).setCpu c
          { s.cpu c with
            proc := some p
            intena := th.intena.getD (s.cpu c).intena
            pc := .release p })
      else some (s.setCpu c { s.cpu c with pc := .release p })
    | _ => none
  | .next c => scheduler s c fun
    | .release p =>
      if s.lock (.proc p) = some c then
        (s.cpu c).popOff.map fun x => (s.setLock (.proc p) none).setCpu c
          { x with pc := .loop 0, pushes := x.pushes - 1 }
      else none
    | _ => none
  | .sched c state =>
    let x := s.cpu c
    match x.proc with
    | some p =>
      if x.spin = none ∧ s.lock (.proc p) = some c ∧ x.noff = 1 ∧ state ≠ .running ∧
          x.intr = false then
        some ((s.setThread p { s.thread p with
          state := state, intena := some x.intena }).setCpu c { x with proc := none })
      else none
    | none => none
  | .wakeup c p =>
    if (s.cpu c).calls ∧ s.lock (.proc p) = some c ∧ (s.thread p).state = .sleeping then
      some (s.setThread p { s.thread p with state := .runnable })
    else none

/-- Every CPU is about to run its scheduler, and no process has run yet. -/
structure Start (s : State C P) : Prop where
  cpu : ∀ c, (s.cpu c).noff = 0 ∧ (s.cpu c).proc = none ∧ (s.cpu c).spin = none ∧
    (s.cpu c).pc = .loop 0 ∧ (s.cpu c).pushes = 0
  lock : ∀ lk, s.lock lk = none
  thread : ∀ p, (s.thread p).state ≠ .running ∧ (s.thread p).pushes = 1 ∧ (s.thread p).was = none

def system (C P : Type*) [DecidableEq C] [DecidableEq P] : EventSystem (State C P) (Event C P) where
  init := Start
  step := step

/-! ## The invariant -/

/-- The thread runs on the CPU. -/
def Runs (x : Cpu P) (th : Thread) : Prop := th.state = .running ∧ x.noff = th.pushes ∧
    ∀ b, th.was = some b → 0 < x.noff → x.intena = b

/-- The thread can go on on any CPU. -/
def Out (th : Thread) : Prop := th.pushes = 1 ∧ ∀ b, th.was = some b → th.intena = some b

structure Inv (s : State C P) : Prop where
  off : ∀ c, 0 < (s.cpu c).noff → (s.cpu c).intr = false
  idle : ∀ c, (s.cpu c).proc = none →
    (s.cpu c).noff = (s.cpu c).pushes ∧ (s.cpu c).pushes = (s.cpu c).pc.depth
  away : ∀ c p, (s.cpu c).proc = some p →
    (s.cpu c).pushes = 1 ∧ (s.cpu c).pc.depth = 1 ∧ Runs (s.cpu c) (s.thread p)
  only : ∀ c d p, (s.cpu c).proc = some p → (s.cpu d).proc = some p → c = d
  out : ∀ p, (s.thread p).state ≠ .running → Out (s.thread p)

/-- The pushes outstanding for the thread that runs on the CPU. -/
def State.outstanding (s : State C P) (c : C) : ℕ :=
  (s.cpu c).proc.elim (s.cpu c).pushes fun p => (s.thread p).pushes

namespace Inv

theorem of_start (h : Start s) : Inv s := by
  refine ⟨fun c hc => ?_, fun c _ => ?_, fun c p hp => ?_, fun c _ p hp => ?_, fun p _ => ?_⟩
  · exact absurd (h.cpu c).1 hc.ne'
  · obtain ⟨hnoff, -, -, hpc, hpushes⟩ := h.cpu c
    rw [hnoff, hpushes, hpc]
    exact ⟨rfl, rfl⟩
  · exact absurd ((h.cpu c).2.1.symm.trans hp) (by simp)
  · exact absurd ((h.cpu c).2.1.symm.trans hp) (by simp)
  · exact ⟨(h.thread p).2.1, by simp [(h.thread p).2.2]⟩

theorem noff_eq (h : Inv s) (c : C) : (s.cpu c).noff = s.outstanding c := by
  unfold State.outstanding
  cases hp : (s.cpu c).proc with
  | none => exact (h.idle c hp).1
  | some p => exact (h.away c p hp).2.2.2.1

section
variable [DecidableEq P]

theorem setLock (h : Inv s) (lk : Lock P) (o : Option C) : Inv (s.setLock lk o) :=
  ⟨h.off, h.idle, h.away, h.only, h.out⟩

theorem wakeup (h : Inv s) (hp : (s.thread p).state = .sleeping) :
    Inv (s.setThread p { s.thread p with state := .runnable }) := by
  refine ⟨h.off, h.idle, fun c q hq => ?_, h.only, fun q => ?_⟩
  · obtain ⟨hone, hdepth, hruns⟩ := h.away c q hq
    have hne : q ≠ p := by
      rintro rfl
      exact absurd (hruns.1.symm.trans hp) (by decide)
    dsimp only [State.setThread]
    rw [update_of_ne hne]
    exact ⟨hone, hdepth, hruns⟩
  · dsimp only [State.setThread]
    rw [update_apply]
    split
    next => exact fun _ => h.out p (by simp [hp])
    next => exact h.out q

end

variable [DecidableEq C]

/-- A step of a scheduler. -/
theorem of_scheduler (h : Inv s) (hx : x.proc = none)
    (hoff : 0 < x.noff → x.intr = false) (hnoff : x.noff = x.pushes)
    (hpushes : x.pushes = x.pc.depth) : Inv (s.setCpu c x) := by
  have hcpu : ∀ d, (s.setCpu c x).cpu d = if d = c then x else s.cpu d := fun d => update_apply ..
  have hproc : ∀ d q, ((s.setCpu c x).cpu d).proc = some q → d ≠ c ∧ (s.cpu d).proc = some q := by
    intro d q hq
    rw [hcpu] at hq
    split at hq
    next => exact absurd (hx.symm.trans hq) (by simp)
    next hne => exact ⟨hne, hq⟩
  refine ⟨fun d => ?_, fun d => ?_, fun d q hq => ?_, fun d d' q hq hq' => ?_, h.out⟩
  · rw [hcpu]
    split
    next => exact hoff
    next => exact h.off d
  · rw [hcpu]
    split
    next => exact fun _ => ⟨hnoff, hpushes⟩
    next => exact h.idle d
  · obtain ⟨hne, hq⟩ := hproc d q hq
    rw [hcpu, if_neg hne]
    exact h.away d q hq
  · exact h.only d d' q (hproc d q hq).2 (hproc d' q hq').2

variable [DecidableEq P]

section

variable (h : Inv s)

include h

/-- A step of the thread of a process, or a switch from or to it. -/
theorem of_update (hother : ∀ d, (s.cpu d).proc = some p → d = c)
    (hoff : 0 < x.noff → x.intr = false)
    (hidle : x.proc = none → x.noff = x.pushes ∧ x.pushes = x.pc.depth)
    (haway : ∀ q, x.proc = some q → q = p ∧ x.pushes = 1 ∧ x.pc.depth = 1 ∧ Runs x th)
    (hout : th.state ≠ .running → Out th) : Inv ((s.setCpu c x).setThread p th) := by
  have hcpu : ∀ d, ((s.setCpu c x).setThread p th).cpu d = if d = c then x else s.cpu d :=
    fun d => update_apply ..
  have hthread : ∀ q, ((s.setCpu c x).setThread p th).thread q = if q = p then th else s.thread q :=
    fun q => update_apply ..
  refine ⟨fun d => ?_, fun d => ?_, fun d q => ?_, fun d d' q => ?_, fun q => ?_⟩
  · rw [hcpu]
    split
    next => exact hoff
    next => exact h.off d
  · rw [hcpu]
    split
    next => exact hidle
    next => exact h.idle d
  · rw [hcpu, hthread]
    split
    next =>
      intro hq
      obtain ⟨rfl, haway⟩ := haway q hq
      rwa [if_pos rfl]
    next hne =>
      intro hq
      rw [if_neg fun heq : q = p => hne (hother d (heq ▸ hq))]
      exact h.away d q hq
  · rw [hcpu, hcpu]
    intro hd hd'
    split at hd <;> split at hd'
    next heq heq' => exact heq.trans heq'.symm
    next heq hne => exact absurd (hother d' ((haway q hd).1 ▸ hd')) hne
    next hne heq => exact absurd (hother d ((haway q hd').1 ▸ hd)) hne
    next => exact h.only d d' q hd hd'
  · rw [hthread]
    split
    next => exact hout
    next => exact h.out q

theorem push (c : C) (lk : Option (Lock P)) : Inv (s.push c lk) := by
  dsimp only [State.push]
  split
  next p hp =>
    obtain ⟨hone, hdepth, hrunning, hnoff, hwas⟩ := h.away c p hp
    refine h.of_update (fun d hd => h.only d c p hd hp) (fun _ => rfl)
      (fun hx => absurd (hp.symm.trans hx) (by simp)) (fun q hq => ?_)
      (fun hth => absurd hrunning hth)
    refine ⟨Option.some.inj (hq.symm.trans hp), hone, hdepth, hrunning,
      congrArg (· + 1) hnoff, fun b hb _ => ?_⟩
    dsimp only [Cpu.pushOff] at hb ⊢
    rw [← hnoff] at hb
    split at hb
    next hzero =>
      rw [if_pos hzero]
      exact Option.some.inj hb
    next hpos =>
      rw [if_neg hpos]
      exact hwas b hb (Nat.pos_of_ne_zero hpos)
  next hp =>
    obtain ⟨hnoff, hpushes⟩ := h.idle c hp
    exact h.of_scheduler hp (fun _ => rfl) (congrArg (· + 1) hnoff) (congrArg (· + 1) hpushes)

theorem pop (ht : s.pop c = some t) : Inv t := by
  obtain ⟨y, hy, rfl⟩ := Option.map_eq_some_iff.mp ht
  obtain ⟨hintr, hpos, rfl⟩ := Cpu.popOff_eq_some.mp hy
  have hoff : 0 < (s.cpu c).noff - 1 → (if (s.cpu c).noff - 1 = 0 ∧
      (s.cpu c).intena = true then true else (s.cpu c).intr) = false :=
    fun hlt => (if_neg fun hz => hlt.ne' hz.1).trans hintr
  split
  next p hp =>
    obtain ⟨hone, hdepth, hrunning, hnoff, hwas⟩ := h.away c p hp
    refine h.of_update (fun d hd => h.only d c p hd hp) hoff
      (fun hx => absurd (hp.symm.trans hx) (by simp)) (fun q hq => ?_)
      (fun hth => absurd hrunning hth)
    exact ⟨Option.some.inj (hq.symm.trans hp), hone, hdepth, hrunning,
      congrArg (· - 1) hnoff, fun b hb _ => hwas b hb hpos⟩
  next hp =>
    obtain ⟨hnoff, hpushes⟩ := h.idle c hp
    exact h.of_scheduler hp hoff (congrArg (· - 1) hnoff) (congrArg (· - 1) hpushes)

/-- The thread stays as it is. -/
theorem of_intr {lk : Option (Lock P)} {b : Bool} (hb : 0 < (s.cpu c).noff → b = false) :
    Inv (s.setCpu c { s.cpu c with spin := lk, intr := b }) := by
  cases hp : (s.cpu c).proc with
  | none =>
    obtain ⟨hnoff, hpushes⟩ := h.idle c hp
    exact h.of_scheduler hp hb hnoff hpushes
  | some p =>
    have hsame : ∀ t : State C P, t.setThread p (t.thread p) = t := fun t => by
      simp [State.setThread]
    rw [← hsame (s.setCpu _ _)]
    refine h.of_update (fun d hd => h.only d c p hd hp) hb
      (fun hx => absurd (hp.symm.trans hx) (by simp)) (fun q hq => ?_) (h.out p)
    exact ⟨Option.some.inj (hq.symm.trans hp), h.away c p hp⟩

/-- `swtch` in `scheduler`. -/
theorem switchIn (hc : (s.cpu c).proc = none) (hp : (s.thread p).state = .runnable)
    (hpc : (s.cpu c).pc = .test p) :
    Inv ((s.setCpu c { s.cpu c with
        proc := some p, intena := (s.thread p).intena.getD (s.cpu c).intena, pc := .release p
      }).setThread p { s.thread p with state := .running }) := by
  obtain ⟨hnoff, hpushes⟩ := h.idle c hc
  rw [hpc] at hpushes
  obtain ⟨hone, hwas⟩ := h.out p (by simp [hp])
  refine h.of_update (fun d hd => ?_) (h.off c) (fun hx => absurd hx (by simp)) (fun q hq => ?_)
    (fun hth => absurd rfl hth)
  · have hrunning := (h.away d p hd).2.2.1
    exact absurd (hrunning.symm.trans hp) (by decide)
  · refine ⟨Option.some.inj hq.symm, hpushes, rfl, rfl, ?_, fun b hb _ => ?_⟩
    · exact (hnoff.trans hpushes).trans hone.symm
    · dsimp only
      rw [hwas b hb]
      rfl

/-- `swtch` in `sched`. -/
theorem switchOut (hp : (s.cpu c).proc = some p) (hnoff : (s.cpu c).noff = 1)
    {state : ProcState} :
    Inv ((s.setCpu c { s.cpu c with proc := none }).setThread p
      { s.thread p with state := state, intena := some (s.cpu c).intena }) := by
  obtain ⟨hone, hdepth, -, hpushes, hwas⟩ := h.away c p hp
  refine h.of_update (fun d hd => h.only d c p hd hp) (h.off c)
    (fun _ => ⟨hnoff.trans hone.symm, hone.trans hdepth.symm⟩) (fun q hq => absurd hq (by simp))
    (fun _ => ⟨hpushes.symm.trans hnoff, fun b hb => ?_⟩)
  exact congrArg some (hwas b hb (by omega))

theorem choose (ht : step s (.choose c p) = some t) : Inv t := by
  dsimp only [step] at ht
  obtain ⟨hc, -, ht⟩ := scheduler_eq_some.mp ht
  cases hpc : (s.cpu c).pc with
  | loop k =>
    rw [hpc] at ht
    cases k with
    | zero =>
      obtain ⟨-, ⟨⟩⟩ := Option.ite_none_left_eq_some.mp ht
      obtain ⟨hnoff, hpushes⟩ := h.idle c hc
      rw [hpc] at hpushes
      exact h.of_scheduler hc (fun _ => rfl) (congrArg (· + 1) hnoff) (congrArg (· + 1) hpushes)
    | succ => exact nomatch ht
  | test | release =>
    rw [hpc] at ht
    exact nomatch ht

theorem test (ht : step s (.test c) = some t) : Inv t := by
  dsimp only [step] at ht
  obtain ⟨hc, -, ht⟩ := scheduler_eq_some.mp ht
  cases hpc : (s.cpu c).pc with
  | test p =>
    rw [hpc] at ht
    dsimp only at ht
    split at ht
    next hp =>
      obtain ⟨⟩ := ht
      exact h.switchIn hc hp hpc
    next =>
      obtain ⟨⟩ := ht
      obtain ⟨hnoff, hpushes⟩ := h.idle c hc
      rw [hpc] at hpushes
      exact h.of_scheduler hc (h.off c) hnoff hpushes
  | loop | release =>
    rw [hpc] at ht
    exact nomatch ht

theorem next (ht : step s (.next c) = some t) : Inv t := by
  dsimp only [step] at ht
  obtain ⟨hc, -, ht⟩ := scheduler_eq_some.mp ht
  cases hpc : (s.cpu c).pc with
  | release p =>
    rw [hpc] at ht
    obtain ⟨-, ht⟩ := Option.ite_none_right_eq_some.mp ht
    obtain ⟨y, hy, rfl⟩ := Option.map_eq_some_iff.mp ht
    obtain ⟨hintr, -, rfl⟩ := Cpu.popOff_eq_some.mp hy
    obtain ⟨hnoff, hpushes⟩ := h.idle c hc
    rw [hpc] at hpushes
    refine (h.setLock _ none).of_scheduler hc (fun hlt => ?_) (congrArg (· - 1) hnoff)
      (congrArg (· - 1) hpushes)
    exact (if_neg fun hz => hlt.ne' hz.1).trans hintr
  | loop | test =>
    rw [hpc] at ht
    exact nomatch ht

theorem step {e : Event C P} (ht : step s e = some t) : Inv t := by
  cases e with
  | pushOff c =>
    obtain ⟨-, ⟨⟩⟩ := Option.ite_none_right_eq_some.mp ht
    exact h.push c none
  | popOff c => exact h.pop (Option.ite_none_right_eq_some.mp ht).2
  | acquire c lk =>
    obtain ⟨-, ⟨⟩⟩ := Option.ite_none_right_eq_some.mp ht
    exact h.push c (some lk)
  | locked c =>
    dsimp only [Interrupts.step] at ht
    split at ht
    next lk hlk =>
      obtain ⟨-, ⟨⟩⟩ := Option.ite_none_right_eq_some.mp ht
      exact (h.setLock lk (some c)).of_intr (h.off c)
    next => exact nomatch ht
  | release c lk => exact (h.setLock lk none).pop (Option.ite_none_right_eq_some.mp ht).2
  | intr c enable =>
    obtain ⟨hzero, ⟨⟩⟩ := Option.ite_none_right_eq_some.mp ht
    exact h.of_intr fun hpos => absurd hzero hpos.ne'
  | choose c p => exact h.choose ht
  | test c => exact h.test ht
  | next c => exact h.next ht
  | sched c state =>
    dsimp only [Interrupts.step] at ht
    split at ht
    next p hp =>
      obtain ⟨⟨-, -, hnoff, -⟩, ⟨⟩⟩ := Option.ite_none_right_eq_some.mp ht
      exact h.switchOut hp hnoff
    next => exact nomatch ht
  | wakeup c p =>
    obtain ⟨⟨-, -, hp⟩, ⟨⟩⟩ := Option.ite_none_right_eq_some.mp ht
    exact h.wakeup hp

end

theorem of_reachable (hs : (system C P).Reachable s) : Inv s :=
  hs.invariant (fun _ => of_start) fun _ _ _ h ht => h.step ht

/-- The outermost `pop_off` of a thread. -/
theorem restore (h : Inv s) (hp : (s.cpu c).proc = some p) (hone : (s.cpu c).noff = 1)
    {b : Bool} (hb : (s.thread p).was = some b) (ht : s.pop c = some t) :
    (t.cpu c).noff = 0 ∧ (t.cpu c).intr = b := by
  obtain ⟨y, hy, rfl⟩ := Option.map_eq_some_iff.mp ht
  obtain ⟨hintr, hpos, rfl⟩ := Cpu.popOff_eq_some.mp hy
  obtain ⟨-, -, -, -, hwas⟩ := h.away c p hp
  simp [State.setThread, State.setCpu, hp, hone, hintr, hwas b hb hpos]

end Inv

/-- The interrupts of a CPU are off while it has pushes, its pushes are those of the thread
that runs there, and the outermost `pop_off` of a thread, on whichever CPU it is then, enables
interrupts if they were enabled at its outermost `push_off`.  A scheduler does not call
`sched`: it goes on with the `intena` of the process that did. -/
theorem interrupts_restored [DecidableEq C] [DecidableEq P] (hs : (system C P).Reachable s) :
    (∀ c, 0 < (s.cpu c).noff → (s.cpu c).intr = false) ∧
    (∀ c, (s.cpu c).noff = s.outstanding c) ∧
    ∀ c p b e t, (s.cpu c).proc = some p → (s.thread p).pushes = 1 →
      (s.thread p).was = some b → (e = .popOff c ∨ ∃ lk, e = .release c lk) →
      step s e = some t → (t.cpu c).noff = 0 ∧ (t.cpu c).intr = b := by
  have h := Inv.of_reachable hs
  refine ⟨h.off, h.noff_eq, fun c p b e t hp hone hb he ht => ?_⟩
  have hnoff := (h.away c p hp).2.2.2.1.trans hone
  obtain rfl | ⟨lk, rfl⟩ := he
  · exact h.restore hp hnoff hb (Option.ite_none_right_eq_some.mp ht).2
  · exact (h.setLock lk none).restore hp hnoff hb (Option.ite_none_right_eq_some.mp ht).2

/-- Interrupts are enabled on CPU `true` only. -/
def halted : State Bool Unit where
  cpu c := ⟨0, false, c, none, none, .loop 0, 0⟩
  lock _ := none
  thread _ := ⟨.runnable, none, 1, none⟩

/-- The process yields on CPU `true` and goes on on CPU `false`. -/
def migrate : List (Event Bool Unit) :=
  [.choose true (), .locked true, .test true, .release true (.proc ()),
    .acquire true (.proc ()), .locked true, .sched true .runnable, .next true,
    .choose false (), .locked false, .test false]

theorem interrupts_restored_migrate :
    ∃ s t, (system Bool Unit).Reachable s ∧ (s.cpu false).intr = false ∧
      step s (.release false (.proc ())) = some t ∧ (t.cpu false).intr = true := by
  obtain ⟨s, hs, hp, hone, hnoff, hb, ht⟩ : ∃ s,
      (system Bool Unit).run halted migrate = some s ∧ (s.cpu false).proc = some () ∧
      (s.thread ()).pushes = 1 ∧ (s.cpu false).noff = 1 ∧ (s.thread ()).was = some true ∧
      (step s (.release false (.proc ()))).isSome = true :=
    EventSystem.exists_of_any_run (by decide +kernel)
  obtain ⟨t, ht⟩ := Option.isSome_iff_exists.mp ht
  have hreach : (system Bool Unit).Reachable s :=
    ⟨halted, migrate, ⟨fun _ => by simp [halted], fun _ => rfl, fun _ => by simp [halted]⟩, hs⟩
  obtain ⟨hoff, -, hrestored⟩ := interrupts_restored hreach
  exact ⟨s, t, hreach, hoff false (by omega), ht,
    (hrestored false () true _ t hp hone hb (Or.inr ⟨_, rfl⟩) ht).2⟩

end OsCa.Interrupts
