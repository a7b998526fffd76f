import Mathlib.Data.Fin.Basic
import OsCa.Support.EventSystem

/-!
# Sleep-locks

`acquiresleep` and `releasesleep` of `kernel/sleeplock.c`, with `sleep`, `wakeup`, `kill` and
the scheduler of `kernel/proc.c`, for one sleep-lock `lk` and any number of processes.  A
process goes on by one step for each `acquire` and `release` of a spinlock, so others can run
between any two of them.  `wakeup` looks at one process at a time.

`p->lock` is taken by `sleep` and released by the scheduler when the process has switched
away.  The scheduler takes it again for the process it runs, which then releases it.
-/

namespace OsCa.Sleeplock

open Function

/-- Where a process is. -/
inductive Pc where
  | idle
  /-- In `yield`, after the call of `sched`. -/
  | yielded
  /-- At `acquire(&lk->lk)`, in `acquiresleep` or at the end of `sleep`. -/
  | acquire
  /-- At the test of `lk->locked`. -/
  | test
  /-- At the `release` of `acquiresleep`, with `lk->locked` set. -/
  | leave
  /-- In `sleep`, at `acquire(&p->lock)`. -/
  | sleep
  /-- In `sleep`, at `release(lk)`. -/
  | swap
  /-- In `sleep`, with `p->lock` only. -/
  | doze
  /-- In `sched`, before the scheduler has released `p->lock`. -/
  | sched
  /-- After the call of `sched` in `sleep`. -/
  | asleep
  /-- At `acquire(&lk->lk)` in `releasesleep`. -/
  | release
  /-- In `releasesleep`, at `lk->locked = 0`. -/
  | clear
  /-- In `wakeup`, at the process `i`, or at the `release` of `releasesleep` behind it. -/
  | wakeup (i : ℕ)
  deriving DecidableEq

inductive ProcState where
  | sleeping
  | runnable
  | running
  deriving DecidableEq

structure Proc where
  /-- `p->lock` is taken. -/
  lock : Bool
  state : ProcState
  /-- `p->chan` is the sleep-lock. -/
  chan : Bool
  pc : Pc
  /-- `acquiresleep` has returned, and `releasesleep` has not cleared the lock since. -/
  has : Bool

structure State (n : ℕ) where
  /-- The process that has `lk->lk`. -/
  lk : Option (Fin n)
  locked : Bool
  pid : ℕ
  proc : Fin n → Proc

inductive Event (n : ℕ) where
  | acquiresleep (p : Fin n)
  | releasesleep (p : Fin n)
  /-- The process goes on. -/
  | advance (p : Fin n)
  /-- The scheduler chooses the process. -/
  | scheduler (p : Fin n)
  | yield (p : Fin n)
  | kill (p : Fin n)

variable {n : ℕ}

def State.set (s : State n) (p : Fin n) (x : Proc) : State n :=
  { s with proc := update s.proc p x }

/-- The body of the loop of `wakeup`. -/
def Proc.wakeup (x : Proc) : Proc :=
  if x.state = .sleeping ∧ x.chan = true then { x with state := .runnable } else x

def Proc.kill (x : Proc) : Proc := if x.state = .sleeping then { x with state := .runnable } else x

/-- There is no step while the process spins or has not been scheduled. -/
def advance (pid : Fin n → ℕ) (s : State n) (p : Fin n) : Option (State n) := let x := s.proc p
  match x.pc with
  | .idle => none
  | .yielded =>
    if x.state = .running then some (s.set p { x with lock := false, pc := .idle }) else none
  | .acquire =>
    if s.lk = none then some { s.set p { x with pc := .test } with lk := some p } else none
  | .test =>
    if s.locked then some (s.set p { x with pc := .sleep })
    else some { s.set p { x with pc := .leave } with locked := true, pid := pid p }
  | .leave => some { s.set p { x with pc := .idle, has := true } with lk := none }
  | .sleep => if x.lock then none else some (s.set p { x with lock := true, pc := .swap })
  | .swap => some { s.set p { x with pc := .doze } with lk := none }
  | .doze => some (s.set p { x with chan := true, state := .sleeping, pc := .sched })
  | .sched => some (s.set p { x with lock := false, pc := .asleep })
  | .asleep =>
    if x.state = .running then
      some (s.set p { x with chan := false, lock := false, pc := .acquire })
    else none
  | .release =>
    if s.lk = none then some { s.set p { x with pc := .clear } with lk := some p } else none
  | .clear =>
    some { s.set p { x with has := false, pc := .wakeup 0 } with locked := false, pid := 0 }
  | .wakeup i =>
    if h : i < n then
      if (s.proc ⟨i, h⟩).lock then none
      else
        let s := s.set ⟨i, h⟩ (s.proc ⟨i, h⟩).wakeup
        some (s.set p { s.proc p with pc := .wakeup (i + 1) })
    else some { s.set p { x with pc := .idle } with lk := none }

def step (pid : Fin n → ℕ) (s : State n) : Event n → Option (State n)
  | .acquiresleep p =>
    let x := s.proc p
    if x.pc = .idle ∧ x.state = .running then some (s.set p { x with pc := .acquire }) else none
  | .releasesleep p =>
    let x := s.proc p
    if x.pc = .idle ∧ x.state = .running ∧ x.has = true then
      some (s.set p { x with pc := .release })
    else none
  | .advance p => advance pid s p
  | .scheduler p =>
    let x := s.proc p
    if x.lock = false ∧ x.state = .runnable then
      some (s.set p { x with lock := true, state := .running })
    else none
  | .yield p =>
    let x := s.proc p
    if x.pc = .idle ∧ x.state = .running ∧ x.lock = false then
      some (s.set p { x with state := .runnable, pc := .yielded })
    else none
  | .kill p => if (s.proc p).lock then none else some (s.set p (s.proc p).kill)

/-- After `initsleeplock`. -/
structure Start (s : State n) : Prop where
  lk : s.lk = none
  locked : s.locked = false
  proc : ∀ p, s.proc p = ⟨false, .running, false, .idle, false⟩

def system (pid : Fin n → ℕ) : EventSystem (State n) (Event n) where
  init := Start
  step := step pid

/-! ## The invariant -/

/-- The process has `lk->lk`. -/
def Pc.Critical : Pc → Prop
  | .test | .leave | .sleep | .swap | .clear | .wakeup _ => True
  | .idle | .yielded | .acquire | .doze | .sched | .asleep | .release => False

namespace Proc

/-- The process has set `lk->locked`. -/
def Owner (x : Proc) : Prop := x.has = true ∨ x.pc = .leave

/-- The process has found the lock taken, and sleeps or is about to. -/
def Waiting (x : Proc) : Prop := x.pc = .sleep ∨ x.pc = .swap ∨ x.pc = .doze ∨ x.state = .sleeping

/-- A process that goes to sleep has `p->lock`, one that sleeps is in `sched`, and one that
calls `releasesleep` has the lock. -/
def Ok (x : Proc) : Prop := (x.pc = .swap ∨ x.pc = .doze ∨ x.pc = .sched → x.lock = true) ∧
  (x.state = .sleeping → (x.pc = .sched ∨ x.pc = .asleep) ∧ x.chan = true) ∧
  (x.pc = .release ∨ x.pc = .clear → x.has = true)

/-- The process neither takes nor gives back the lock, is not in `wakeup`, and starts to wait
only if the lock is taken. -/
def Plain (locked : Bool) (x y : Proc) : Prop :=
  (∀ i, x.pc ≠ .wakeup i) ∧ (y.Owner ↔ x.Owner) ∧ (y.Waiting → locked = true ∨ x.Waiting)

end Proc

attribute [local simp] Proc.Owner Proc.Waiting Proc.Ok Proc.Plain Pc.Critical

variable {pid : Fin n → ℕ} {s t : State n} {p q : Fin n} {x : Proc}

/-- Somebody has `lk->lk` and has yet to look at the process. -/
def Noticed (s : State n) (p : Fin n) : Prop :=
  ∃ r i, s.lk = some r ∧ (s.proc r).pc = .wakeup i ∧ i ≤ p

/-- A process that waits will be woken up: the lock is taken, or `wakeup` has yet to come to
the process. -/
structure Inv (pid : Fin n → ℕ) (s : State n) : Prop where
  critical : ∀ p, (s.proc p).pc.Critical ↔ s.lk = some p
  ok : ∀ p, (s.proc p).Ok
  owned : ∃ o : Option (Fin n), (∀ p, (s.proc p).Owner ↔ o = some p) ∧
    s.locked = o.isSome ∧ ∀ p, o = some p → s.pid = pid p
  waits : ∀ p, (s.proc p).Waiting → s.locked = true ∨ Noticed s p

namespace Inv

theorem of_start (h : Start s) : Inv pid s := by
  refine ⟨fun p => ?_, fun p => ?_, ⟨none, fun p => ?_, h.locked, by simp⟩, fun p hp => ?_⟩
  · simp [h.proc, h.lk]
  · simp [h.proc]
  · simp [h.proc]
  · simp [h.proc] at hp

/-- What a step of one process has to keep up. -/
theorem of_update (h : Inv pid s) (hproc : t.proc = update s.proc p x)
    (hlk : ∀ q, q ≠ p → (t.lk = some q ↔ s.lk = some q))
    (hcritical : x.pc.Critical ↔ t.lk = some p) (hok : x.Ok)
    (howned : ∃ o : Option (Fin n), (∀ q, (t.proc q).Owner ↔ o = some q) ∧
      t.locked = o.isSome ∧ ∀ q, o = some q → t.pid = pid q)
    (hwaits : ∀ q, (t.proc q).Waiting → t.locked = true ∨ Noticed t q) : Inv pid t := by
  refine ⟨fun q => ?_, fun q => ?_, howned, hwaits⟩
  all_goals
    rw [hproc, update_apply]
    split
  next heq => rwa [heq]
  next hne => rw [hlk q hne, h.critical]
  next => exact hok
  next => exact h.ok q

/-- The owner is the same if the process is one as it was before. -/
theorem owned_update (h : Inv pid s) (hproc : t.proc = update s.proc p x)
    (hlocked : t.locked = s.locked) (hpid : t.pid = s.pid)
    (howner : x.Owner ↔ (s.proc p).Owner) :
    ∃ o : Option (Fin n), (∀ q, (t.proc q).Owner ↔ o = some q) ∧
      t.locked = o.isSome ∧ ∀ q, o = some q → t.pid = pid q := by
  obtain ⟨o, ho, hsome, hpid'⟩ := h.owned
  refine ⟨o, fun q => ?_, hlocked.trans hsome, fun q hq => hpid.trans (hpid' q hq)⟩
  rw [hproc, update_apply, ← ho]
  split
  next heq => rw [howner, heq]
  next => rfl

/-- A process takes or releases `lk->lk`, or does something else. -/
theorem change (h : Inv pid s) {o : Option (Fin n)}
    (hlk : ∀ q, q ≠ p → (o = some q ↔ s.lk = some q))
    (hcritical : x.pc.Critical ↔ o = some p) (hok : x.Ok)
    (hplain : Proc.Plain s.locked (s.proc p) x) : Inv pid { s.set p x with lk := o } := by
  obtain ⟨hscan, howner, hwaiting⟩ := hplain
  refine h.of_update rfl hlk hcritical hok (h.owned_update rfl rfl rfl howner) fun q hq => ?_
  have hold : s.locked = true ∨ (s.proc q).Waiting := by
    change (update s.proc p x q).Waiting at hq
    rw [update_apply] at hq
    split at hq
    next heq => exact heq ▸ hwaiting hq
    next => exact Or.inr hq
  rcases hold with hlocked | hq
  · exact Or.inl hlocked
  refine (h.waits q hq).imp_right fun ⟨r, i, hr, hi, hle⟩ => ?_
  have hne : r ≠ p := by
    rintro rfl
    exact hscan i hi
  exact ⟨r, i, (hlk r hne).mpr hr, (congrArg Proc.pc (update_of_ne hne ..)).trans hi, hle⟩

theorem stay (h : Inv pid s) (hcritical : x.pc.Critical ↔ (s.proc p).pc.Critical) (hok : x.Ok)
    (hplain : Proc.Plain s.locked (s.proc p) x) : Inv pid (s.set p x) :=
  h.change (fun _ _ => Iff.rfl) (hcritical.trans (h.critical p)) hok hplain

theorem take (h : Inv pid s) (hfree : s.lk = none) (hcritical : x.pc.Critical) (hok : x.Ok)
    (hplain : Proc.Plain s.locked (s.proc p) x) : Inv pid { s.set p x with lk := some p } :=
  h.change (fun q hq => by simp [hfree, Ne.symm hq]) (iff_of_true hcritical rfl) hok hplain

theorem give (h : Inv pid s) (hp : (s.proc p).pc.Critical) (hcritical : ¬ x.pc.Critical)
    (hok : x.Ok) (hplain : Proc.Plain s.locked (s.proc p) x) :
    Inv pid { s.set p x with lk := none } :=
  h.change (fun q hq => by simp [(h.critical p).mp hp, Ne.symm hq])
    (iff_of_false hcritical (by simp)) hok hplain

/-- Only the state of a process changes, which goes from `SLEEPING` to `RUNNABLE` or from
`RUNNABLE` to `RUNNING`. -/
theorem awake (h : Inv pid s) (p : Fin n) (b : Bool) {st : ProcState} (hst : st ≠ .sleeping)
    (hb : (s.proc p).lock = true → b = true) :
    Inv pid (s.set p { s.proc p with lock := b, state := st }) := by
  have hok := h.ok p
  refine h.of_update rfl (fun _ _ => Iff.rfl) (h.critical p)
    ⟨fun hx => hb (hok.1 hx), fun hx => absurd hx hst, hok.2.2⟩
    (h.owned_update rfl rfl rfl Iff.rfl) fun q hq => ?_
  have hpc : ∀ r, ((s.set p { s.proc p with lock := b, state := st }).proc r).pc =
      (s.proc r).pc := by
    intro r
    dsimp only [State.set]
    rw [update_apply]
    split
    next heq => rw [heq]
    next => rfl
  have hwaiting : (s.proc q).Waiting := by
    dsimp only [State.set] at hq
    rw [update_apply] at hq
    split at hq
    next heq =>
      rw [heq]
      exact hq.imp_right (Or.imp_right (Or.imp_right fun hx => absurd hx hst))
    next => exact hq
  refine (h.waits q hwaiting).imp_right fun ⟨r, i, hr, hi, hle⟩ => ?_
  exact ⟨r, i, hr, (hpc r).trans hi, hle⟩

theorem set_self (s : State n) (p : Fin n) : s.set p (s.proc p) = s := by
  unfold State.set
  rw [update_eq_self]

section

variable (h : Inv pid s)

include h

theorem wakeup (p : Fin n) : Inv pid (s.set p (s.proc p).wakeup) := by
  unfold Proc.wakeup
  split
  next => exact h.awake p (s.proc p).lock (by simp) id
  next => rwa [set_self]

theorem kill (p : Fin n) : Inv pid (s.set p (s.proc p).kill) := by
  unfold Proc.kill
  split
  next => exact h.awake p (s.proc p).lock (by simp) id
  next => rwa [set_self]

/-- The process takes the lock. -/
theorem lock (hpc : (s.proc p).pc = .test) (hlocked : s.locked = false) :
    Inv pid { s.set p { s.proc p with pc := .leave } with locked := true, pid := pid p } := by
  have hcritical := h.critical p
  have hok := h.ok p
  rw [hpc] at hcritical
  obtain ⟨o, ho, hsome, -⟩ := h.owned
  -- Nobody else is an owner.
  obtain rfl : o = none := by
    rw [hlocked] at hsome
    exact Option.isNone_iff_eq_none.mp (Option.isSome_eq_false_iff.mp hsome.symm)
  refine h.of_update rfl (fun _ _ => Iff.rfl) hcritical
    (by simpa [hpc] using hok) ⟨some p, fun q => ?_, rfl, ?_⟩ fun q _ => Or.inl rfl
  · dsimp only [State.set]
    rw [update_apply, Option.some.injEq]
    split
    next heq => exact iff_of_true (Or.inr rfl) heq.symm
    next hne => exact iff_of_false (fun hq => by simpa using (ho q).mp hq) (Ne.symm hne)
  · rintro q ⟨⟩
    rfl

/-- The owner clears the lock, and starts to wake up those that wait for it. -/
theorem clear (hpc : (s.proc p).pc = .clear) :
    Inv pid { s.set p { s.proc p with has := false, pc := .wakeup 0 } with
      locked := false
      pid := 0 } := by
  have hcritical := h.critical p
  have hok := h.ok p
  rw [hpc] at hcritical
  obtain ⟨o, ho, -, -⟩ := h.owned
  obtain rfl : o = some p := (ho p).mp (Or.inl (hok.2.2 (Or.inr hpc)))
  refine h.of_update rfl (fun _ _ => Iff.rfl) hcritical
    (by simp_all) ⟨none, fun q => ?_, rfl, by simp⟩ fun q _ => Or.inr ?_
  · dsimp only [State.set]
    rw [update_apply]
    split
    next => simp
    next hne =>
      rw [ho]
      simp [Ne.symm hne]
  · refine ⟨p, 0, hcritical.mp trivial, ?_, Nat.zero_le _⟩
    dsimp only [State.set]
    rw [update_self]

/-- `wakeup` goes on, or ends and `lk->lk` is released, when no process waits that it has not
yet looked at. -/
theorem scan {i : ℕ} {o : Option (Fin n)} {pc : Pc} (hpc : (s.proc p).pc = .wakeup i)
    (hkind : pc = .idle ∧ o = none ∨ (∃ j, pc = .wakeup j) ∧ o = some p)
    (hnext : ∀ q : Fin n, (s.proc q).Waiting → i ≤ q → ∃ j, pc = .wakeup j ∧ j ≤ q) :
    Inv pid { s.set p { s.proc p with pc := pc } with lk := o } := by
  have hp : s.lk = some p := (h.critical p).mp (by simp [hpc])
  have hok := h.ok p
  have hx : Proc.Ok { s.proc p with pc := pc } ∧ (pc.Critical ↔ o = some p) ∧
      (∀ q, q ≠ p → (o = some q ↔ s.lk = some q)) ∧ pc ≠ .leave ∧
      ¬ Proc.Waiting { s.proc p with pc := pc } := by
    simp [hpc] at hok
    rcases hkind with ⟨rfl, rfl⟩ | ⟨⟨j, rfl⟩, rfl⟩ <;>
      exact ⟨by simp [hok], by simp, fun q hq => by simp [hp, Ne.symm hq], by simp, by simp [hok]⟩
  obtain ⟨hok, hcritical, hlk, hleave, hwaiting⟩ := hx
  refine h.of_update rfl hlk hcritical hok (h.owned_update rfl rfl rfl ?_) fun q hq => ?_
  · simp [hpc, hleave]
  · have hold : (s.proc q).Waiting := by
      dsimp only [State.set] at hq
      rw [update_apply] at hq
      split at hq
      next => exact absurd hq hwaiting
      next => exact hq
    refine (h.waits q hold).imp_right fun ⟨r, k, hr, hk, hle⟩ => ?_
    cases hp.symm.trans hr
    cases hpc.symm.trans hk
    obtain ⟨j, rfl, hle⟩ := hnext q hold hle
    refine ⟨p, j, (hkind.resolve_left (by simp)).2, ?_, hle⟩
    dsimp only [State.set]
    rw [update_self]

/-- A process whose lock is free does not wait after `wakeup` has looked at it. -/
theorem not_waiting {i : ℕ} (hpc : (s.proc p).pc = .wakeup i)
    (hlock : (s.proc q).lock = false) : ¬ (s.proc q).wakeup.Waiting := by
  have hok := h.ok q
  have hsleep : (s.proc q).pc ≠ .sleep := by
    intro hsleep
    have hp := (h.critical p).mp (by simp [hpc])
    cases hp.symm.trans ((h.critical q).mp (by simp [hsleep]))
    exact absurd (hpc.symm.trans hsleep) (by simp)
  unfold Proc.wakeup
  split <;> simp_all

/-- `wakeup` wakes up the process `i`. -/
theorem wakeupNext {i : ℕ} (hi : i < n) (hpc : (s.proc p).pc = .wakeup i)
    (hlock : (s.proc ⟨i, hi⟩).lock = false)
    (hs : s.set ⟨i, hi⟩ (s.proc ⟨i, hi⟩).wakeup = t) :
    Inv pid (t.set p { t.proc p with pc := .wakeup (i + 1) }) := by
  have ht : Inv pid t := hs ▸ h.wakeup ⟨i, hi⟩
  have hpc' : (t.proc p).pc = .wakeup i := by
    rw [← hs, ← hpc]
    dsimp only [State.set]
    rw [update_apply]
    split
    next heq =>
      rw [heq, Proc.wakeup]
      split <;> rfl
    next => rfl
  have hp : t.lk = some p := (ht.critical p).mp (by simp [hpc'])
  refine ht.scan (o := t.lk) hpc' (Or.inr ⟨⟨i + 1, rfl⟩, hp⟩) fun q hq hle => ⟨_, rfl, ?_⟩
  refine Nat.lt_of_le_of_ne hle fun heq => ?_
  have hq' : q = ⟨i, hi⟩ := Fin.ext heq.symm
  rw [hq', ← hs] at hq
  dsimp only [State.set] at hq
  rw [update_self] at hq
  exact h.not_waiting hpc hlock hq

theorem advance (hstep : Sleeplock.advance pid s p = some t) : Inv pid t := by
  have hok := h.ok p
  unfold Sleeplock.advance at hstep
  dsimp only at hstep
  cases hpc : (s.proc p).pc <;> rw [hpc] at hstep <;> dsimp only at hstep <;> simp [hpc] at hok
  case idle => cases hstep
  case yielded | asleep =>
    obtain ⟨hst, ⟨⟩⟩ := Option.ite_none_right_eq_some.mp hstep
    exact h.stay (by simp [hpc]) (by simp [hst]) (by simp [hpc, hst])
  case acquire | release =>
    obtain ⟨hfree, ⟨⟩⟩ := Option.ite_none_right_eq_some.mp hstep
    exact h.take hfree trivial (by simp [hok]) (by simp [hpc, hok])
  case test =>
    split at hstep
    next hlocked =>
      cases hstep
      exact h.stay (by simp [hpc]) (by simp [hok]) (by simp [hpc, hlocked])
    next hlocked =>
      cases hstep
      exact h.lock hpc (Bool.not_eq_true _ ▸ hlocked)
  case leave | swap =>
    cases hstep
    exact h.give (by simp [hpc]) id (by simp [hok]) (by simp [hpc, hok])
  case sleep =>
    obtain ⟨-, ⟨⟩⟩ := Option.ite_none_left_eq_some.mp hstep
    exact h.stay (by simp [hpc]) (by simp [hok]) (by simp [hpc])
  case doze =>
    cases hstep
    exact h.stay (by simp [hpc]) (by simp [hok]) (by simp [hpc])
  case sched =>
    cases hstep
    exact h.stay (by simp [hpc]) (by simpa using hok.2) (by simp_all)
  case clear =>
    cases hstep
    exact h.clear hpc
  case wakeup i =>
    split at hstep
    next hi =>
      obtain ⟨hlock, ⟨⟩⟩ := Option.ite_none_left_eq_some.mp hstep
      exact h.wakeupNext hi hpc (Bool.not_eq_true _ ▸ hlock) rfl
    next hi =>
      cases hstep
      exact h.scan hpc (Or.inl ⟨rfl, rfl⟩) fun q _ hle => absurd (hle.trans_lt q.isLt) hi

theorem step {e : Event n} (hstep : Sleeplock.step pid s e = some t) : Inv pid t := by
  cases e with
  | advance p => exact h.advance hstep
  | acquiresleep p =>
    obtain ⟨⟨hpc, hst⟩, ⟨⟩⟩ := Option.ite_none_right_eq_some.mp hstep
    exact h.stay (by simp [hpc]) (by simp [hst]) (by simp [hpc, hst])
  | releasesleep p =>
    obtain ⟨⟨hpc, hst, hhas⟩, ⟨⟩⟩ := Option.ite_none_right_eq_some.mp hstep
    exact h.stay (by simp [hpc]) (by simp [hst, hhas]) (by simp [hpc, hst])
  | scheduler p =>
    obtain ⟨-, ⟨⟩⟩ := Option.ite_none_right_eq_some.mp hstep
    exact h.awake p true (by simp) fun _ => rfl
  | yield p =>
    obtain ⟨⟨hpc, hst, hlock⟩, ⟨⟩⟩ := Option.ite_none_right_eq_some.mp hstep
    exact h.stay (by simp [hpc]) (by simp) (by simp [hpc])
  | kill p =>
    obtain ⟨-, ⟨⟩⟩ := Option.ite_none_left_eq_some.mp hstep
    exact h.kill p

end

end Inv

/-- At most one process is between the return of `acquiresleep` and its `releasesleep`.
Whenever `lk->lk` is free, `locked` is set and `pid` is that of the process exactly then, and
no process sleeps on a lock that is not locked. -/
theorem sleeplock_excludes (pid : Fin n → ℕ) (s : State n) (hs : (system pid).Reachable s) :
    (∀ p q, (s.proc p).has = true → (s.proc q).has = true → p = q) ∧
    (s.lk = none → (s.locked = true ↔ ∃ p, (s.proc p).has = true) ∧
      (∀ p, (s.proc p).has = true → s.pid = pid p) ∧
      (s.locked = false → ∀ p, ¬ ((s.proc p).state = .sleeping ∧ (s.proc p).chan = true))) := by
  have h : Inv pid s := hs.invariant (fun _ => Inv.of_start) fun _ _ _ h => h.step
  obtain ⟨o, ho, hsome, hpid⟩ := h.owned
  have howner : ∀ p, (s.proc p).has = true → o = some p := fun p hp => (ho p).mp (Or.inl hp)
  refine ⟨fun p q hp hq => ?_, fun hfree => ⟨⟨fun hlocked => ?_, fun ⟨p, hp⟩ => ?_⟩,
    fun p hp => hpid p (howner p hp), fun hlocked p hp => ?_⟩⟩
  · exact Option.some.inj ((howner p hp).symm.trans (howner q hq))
  · obtain ⟨p, hp⟩ := Option.isSome_iff_exists.mp (hsome.symm.trans hlocked)
    refine ⟨p, ((ho p).mpr hp).resolve_right fun hleave => ?_⟩
    have hlk := (h.critical p).mp (by simp [hleave])
    exact absurd (hfree.symm.trans hlk) (by simp)
  · rw [hsome, howner p hp]
    rfl
  · rcases h.waits p (Or.inr (Or.inr (Or.inr hp.1))) with hx | ⟨r, i, hr, -⟩
    · exact absurd (hlocked.symm.trans hx) (by simp)
    · exact absurd (hfree.symm.trans hr) (by simp)

/-- Two processes that do not use the lock yet. -/
def unlocked : State 2 where
  lk := none
  locked := false
  pid := 0
  proc _ := ⟨false, .running, false, .idle, false⟩

/-- Process `q` is about to sleep when process `p` gives the lock back.  It goes to sleep
before `wakeup` comes to it, and gets the lock. -/
def handOver (p q : Fin 2) : List (Event 2) :=
  [.acquiresleep p, .advance p, .advance p, .advance p, .acquiresleep q, .advance q, .advance q,
    .advance q, .advance q, .releasesleep p, .advance p, .advance p, .advance p, .advance q,
    .advance q, .advance p, .advance p, .scheduler q, .advance q, .advance q, .advance q,
    .advance q]

theorem sleeplock_excludes_handOver :
    ∃ s, (system fun p : Fin 2 => p + 1).Reachable s ∧ (s.proc 1).has = true ∧ s.pid = 2 := by
  obtain ⟨s, hs, hfree, hhas⟩ : ∃ s, (system fun p : Fin 2 => p + 1).run unlocked
      (handOver 0 1) = some s ∧ s.lk = none ∧ (s.proc 1).has = true :=
    EventSystem.exists_of_any_run (by decide +kernel)
  have hreach : (system fun p : Fin 2 => p + 1).Reachable s :=
    ⟨unlocked, handOver 0 1, ⟨rfl, rfl, fun _ => rfl⟩, hs⟩
  exact ⟨s, hreach, hhas, ((sleeplock_excludes _ s hreach).2 hfree).2.1 1 hhas⟩

end OsCa.Sleeplock
