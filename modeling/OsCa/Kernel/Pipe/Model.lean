import OsCa.Kernel.Params
import OsCa.Support.EventSystem
import OsCa.Support.RingBuffer

/-!
# Pipes

This module embeds `pipewrite`, `piperead` and `pipeclose` of `kernel/pipe.c` for
one pipe, with the `sleep`, `wakeup` and `kill` of `kernel/proc.c` that they meet.
There are `n` processes, each at some place in the code, and an event moves one
of them to the next place.

The spinlock of the pipe is `lock`.  A round of a loop is one event, so a process
can be killed between any two rounds of another one.  In `sleep` the pipe's lock
is released while `p->lock` is held, at the place `fall`, and a round of `wakeup`
or `kill` has to wait for it; all other sections of `p->lock` are one event.

User memory is given with a call: what `copyin` reads, and where `copyout` can
write.  The bytes that have been stored, with the number of the call, the bytes
that have been removed, and the writes that have returned are recorded in
`stored`, `removed` and `returned`.  No code looks at these, or at the flag in
`test`, which says whether a byte has been stored since the last `wakeup`.
-/

namespace OsCa.Pipes

open Bytes

def PIPESIZE : ℕ := 512

instance : NeZero PIPESIZE := ⟨by decide⟩

/-- `struct pipe` without its lock. -/
structure Pipe where
  data : Fin PIPESIZE → Byte
  nread : Uint
  nwrite : Uint
  readopen : Bool
  writeopen : Bool

namespace Pipe

/-- `pi->nread == pi->nwrite`. -/
def Empty (pi : Pipe) : Prop := pi.nread = pi.nwrite

/-- `pi->nwrite == pi->nread + PIPESIZE`. -/
def Full (pi : Pipe) : Prop := pi.nwrite = pi.nread + BitVec.ofNat 32 PIPESIZE

instance (pi : Pipe) : Decidable pi.Empty := inferInstanceAs (Decidable (_ = _))

instance (pi : Pipe) : Decidable pi.Full := inferInstanceAs (Decidable (_ = _))

/-- `pi->data[pi->nwrite++ % PIPESIZE] = ch`. -/
def store (pi : Pipe) (ch : Byte) : Pipe :=
  { pi with
    data := Function.update pi.data (Ring.slot PIPESIZE pi.nwrite) ch
    nwrite := pi.nwrite + 1 }

/-- `pi->data[pi->nread % PIPESIZE]`. -/
def front (pi : Pipe) : Byte := pi.data (Ring.slot PIPESIZE pi.nread)

/-- `pi->nread++`. -/
def drop (pi : Pipe) : Pipe := { pi with nread := pi.nread + 1 }

/-- One end is closed. -/
def close (pi : Pipe) (writable : Bool) : Pipe :=
  if writable then { pi with writeopen := false } else { pi with readopen := false }

end Pipe

/-- The addresses a process can sleep on. -/
inductive Chan where
  | nread
  | nwrite
  deriving DecidableEq

/-- The arguments of `pipewrite`, and the number of the call. -/
structure WriteCall where
  id : ℕ
  src : ℕ → Option Byte
  n : BitVec 32

/-- The arguments of `piperead`. -/
structure ReadCall where
  dst : ℕ → Bool
  n : BitVec 32

/-- A call that may sleep, with the loop variable of `pipewrite`. -/
inductive Job where
  | write (c : WriteCall) (i : ℕ)
  | read (c : ReadCall)

/-- The channel the call sleeps on. -/
def Job.chan : Job → Chan
  | .write .. => .nwrite
  | .read .. => .nread

/-- What a call has done when it comes to its last `wakeup`. -/
inductive Outcome where
  | wrote (c : WriteCall) (i : ℕ)
  | read (c : ReadCall) (i : ℕ)
  | closed (writable : Bool)

/-- The channel of this `wakeup`. -/
def Outcome.chan : Outcome → Chan
  | .wrote .. => .nread
  | .read .. => .nwrite
  | .closed writable => if writable then .nread else .nwrite

/-- A place in the code of a process. -/
inductive Pc where
  /-- Outside of the functions for the pipe. -/
  | user
  | acquire (j : Job)
  /-- The test of the `while` loop, or for `pipewrite` of the `for` loop. -/
  | test (j : Job) (stored : Bool)
  /-- `wakeup(&pi->nread)` in the loop of `pipewrite`, at process `k`. -/
  | wake (j : Job) (k : ℕ)
  /-- The call of `sleep`. -/
  | sleep (j : Job)
  /-- In `sleep`, with `p->lock` only. -/
  | fall (j : Job)
  /-- In `sched`. -/
  | asleep (j : Job)
  /-- The `for` loop of `piperead`. -/
  | copy (c : ReadCall) (i : ℕ)
  /-- `pipeclose`. -/
  | close (writable : Bool)
  /-- The last `wakeup` of a call, at process `k`. -/
  | done (o : Outcome) (k : ℕ)

structure State (n : ℕ) where
  pipe : Pipe
  freed : Bool
  lock : Option (Fin n)
  pc : Fin n → Pc
  sleeping : Fin n → Bool
  chan : Fin n → Option Chan
  killed : Fin n → Bool
  next : ℕ
  stored : List (ℕ × Byte)
  removed : List Byte
  returned : List (WriteCall × ℕ)

inductive Event (n : ℕ) where
  | pipewrite (p : Fin n) (src : ℕ → Option Byte) (m : BitVec 32)
  | piperead (p : Fin n) (dst : ℕ → Bool) (m : BitVec 32)
  | pipeclose (p : Fin n) (writable : Bool)
  | kill (q : Fin n)
  /-- The slot of a process that is gone is used again. -/
  | fork (q : Fin n)
  /-- The process goes on. -/
  | step (p : Fin n)

variable {n : ℕ}

namespace State

def goto (s : State n) (p : Fin n) (pc : Pc) : State n :=
  { s with pc := Function.update s.pc p pc }

/-- `p->state = RUNNABLE` for a process that sleeps. -/
def rouse (s : State n) (q : Fin n) : State n :=
  { s with sleeping := Function.update s.sleeping q false }

/-- `p->lock` is held. -/
def Busy (s : State n) (q : Fin n) : Prop := ∃ j, s.pc q = .fall j

instance (s : State n) (q : Fin n) : Decidable (s.Busy q) :=
  match h : s.pc q with
  | .fall j => .isTrue ⟨j, h⟩
  | .user | .acquire _ | .test .. | .wake .. | .sleep _ | .asleep _ | .copy .. |
    .close _ | .done .. => .isFalse fun ⟨_, hj⟩ => by rw [h] at hj; cases hj

/-- One round of `wakeup(c)`. -/
def wakeup (s : State n) (c : Chan) (q : Fin n) : State n :=
  if s.sleeping q = true ∧ s.chan q = some c then s.rouse q else s

/-- `release(&pi->lock)` at the end of a call. -/
def leave (s : State n) (p : Fin n) : State n :=
  { s.goto p .user with lock := none }

/-- The end of a call after its last `wakeup`. -/
def finish (s : State n) : Outcome → State n
  | .wrote c i => { s with returned := s.returned ++ [(c, i)] }
  | .read .. => s
  | .closed _ => { s with freed := !s.pipe.readopen && !s.pipe.writeopen }

end State

/-- The test of the loops in `pipewrite`. -/
def writeTest (s : State n) (p : Fin n) (c : WriteCall) (i : ℕ) : State n :=
  if (i : ℤ) < c.n.toInt then
    if s.pipe.Full then
      if s.pipe.readopen = false ∨ s.killed p = true then
        s.leave p
      else
        s.goto p (.wake (.write c i) 0)
    else
      match c.src i with
      | none => s.goto p (.done (.wrote c i) 0)
      | some ch =>
        { s with
          pipe := s.pipe.store ch
          stored := s.stored ++ [(c.id, ch)] }.goto p (.test (.write c (i + 1)) true)
  else s.goto p (.done (.wrote c i) 0)

/-- The test of the `while` loop in `piperead`. -/
def readTest (s : State n) (p : Fin n) (c : ReadCall) : State n :=
  if s.pipe.Empty ∧ s.pipe.writeopen = true then
    if s.killed p then s.leave p else s.goto p (.sleep (.read c))
  else s.goto p (.copy c 0)

/-- A round of the `for` loop in `piperead`. -/
def readCopy (s : State n) (p : Fin n) (c : ReadCall) (i : ℕ) : State n :=
  if (i : ℤ) < c.n.toInt then
    if s.pipe.Empty then
      s.goto p (.done (.read c i) 0)
    else
      let t := { s with
        pipe := s.pipe.drop
        removed := s.removed ++ [s.pipe.front] }
      if c.dst i then t.goto p (.copy c (i + 1)) else t.goto p (.done (.read c i) 0)
  else s.goto p (.done (.read c i) 0)

/-- The process goes on from its place.  There is no step if it has to wait. -/
def advance (s : State n) (p : Fin n) : Option (State n) :=
  match s.pc p with
  | .user => none
  | .acquire j =>
    if s.lock = none ∧ s.freed = false then
      some { s.goto p (.test j false) with lock := some p }
    else none
  | .test (.write c i) _ => some (writeTest s p c i)
  | .test (.read c) _ => some (readTest s p c)
  | .wake j k =>
    if h : k < n then
      if s.Busy ⟨k, h⟩ then none
      else some ((s.wakeup .nread ⟨k, h⟩).goto p (.wake j (k + 1)))
    else some (s.goto p (.sleep j))
  | .sleep j => some { s.goto p (.fall j) with lock := none }
  | .fall j =>
    some { s.goto p (.asleep j) with
      sleeping := Function.update s.sleeping p true
      chan := Function.update s.chan p (some j.chan) }
  | .asleep j =>
    if s.sleeping p then none
    else some { s.goto p (.acquire j) with chan := Function.update s.chan p none }
  | .copy c i => some (readCopy s p c i)
  | .close writable =>
    if s.lock = none ∧ s.freed = false then
      some { s.goto p (.done (.closed writable) 0) with
        lock := some p
        pipe := s.pipe.close writable }
    else none
  | .done o k =>
    if h : k < n then
      if s.Busy ⟨k, h⟩ then none
      else some ((s.wakeup o.chan ⟨k, h⟩).goto p (.done o (k + 1)))
    else some ((s.finish o).leave p)

def step (s : State n) : Event n → Option (State n)
  | .pipewrite p src m =>
    match s.pc p with
    | .user => some { s.goto p (.acquire (.write ⟨s.next, src, m⟩ 0)) with next := s.next + 1 }
    | _ => none
  | .piperead p dst m =>
    match s.pc p with
    | .user => some (s.goto p (.acquire (.read ⟨dst, m⟩)))
    | _ => none
  | .pipeclose p writable =>
    match s.pc p with
    | .user => some (s.goto p (.close writable))
    | _ => none
  | .kill q =>
    if s.Busy q then none
    else some { s.rouse q with killed := Function.update s.killed q true }
  | .fork q =>
    match s.pc q with
    | .user => some { s with killed := Function.update s.killed q false }
    | _ => none
  | .step p => advance s p

/-- `pipealloc` has just made the pipe. -/
structure Start (s : State n) : Prop where
  nread : s.pipe.nread = 0
  nwrite : s.pipe.nwrite = 0
  readopen : s.pipe.readopen = true
  writeopen : s.pipe.writeopen = true
  freed : s.freed = false
  lock : s.lock = none
  pc : ∀ p, s.pc p = .user
  sleeping : ∀ p, s.sleeping p = false
  chan : ∀ p, s.chan p = none
  stored : s.stored = []
  removed : s.removed = []
  returned : s.returned = []

def newPipe (n : ℕ) : State n where
  pipe := ⟨fun _ => 0, 0, 0, true, true⟩
  freed := false
  lock := none
  pc _ := .user
  sleeping _ := false
  chan _ := none
  killed _ := false
  next := 0
  stored := []
  removed := []
  returned := []

theorem start_newPipe : Start (newPipe n) :=
  ⟨rfl, rfl, rfl, rfl, rfl, rfl, fun _ => rfl, fun _ => rfl, fun _ => rfl, rfl, rfl, rfl⟩

def system (n : ℕ) : EventSystem (State n) (Event n) where
  init := Start
  step := step

/-! ## Steps -/

/-- What a step does, one constructor for each way it can go. -/
inductive Move (s : State n) : Event n → State n → Prop
  | pipewrite {p : Fin n} {src : ℕ → Option Byte} {m : BitVec 32}
      (hp : s.pc p = .user) : Move s (.pipewrite p src m)
        { s.goto p (.acquire (.write ⟨s.next, src, m⟩ 0)) with next := s.next + 1 }
  | piperead {p : Fin n} {dst : ℕ → Bool} {m : BitVec 32} (hp : s.pc p = .user) :
      Move s (.piperead p dst m) (s.goto p (.acquire (.read ⟨dst, m⟩)))
  | pipeclose {p : Fin n} {writable : Bool} (hp : s.pc p = .user) :
      Move s (.pipeclose p writable) (s.goto p (.close writable))
  | kill {q : Fin n} (hq : ¬ s.Busy q) : Move s (.kill q)
        { s.rouse q with killed := Function.update s.killed q true }
  | fork {q : Fin n} (hq : s.pc q = .user) : Move s (.fork q)
        { s with killed := Function.update s.killed q false }
  | acquire {p : Fin n} {j : Job} (hp : s.pc p = .acquire j) (hlock : s.lock = none) :
      Move s (.step p) { s.goto p (.test j false) with lock := some p }
  | giveUp {p : Fin n} {c : WriteCall} {i : ℕ} {b : Bool}
      (hp : s.pc p = .test (.write c i) b) (hfull : s.pipe.Full)
      (hquit : s.pipe.readopen = false ∨ s.killed p = true) :
      Move s (.step p) (s.leave p)
  | warn {p : Fin n} {c : WriteCall} {i : ℕ} {b : Bool}
      (hp : s.pc p = .test (.write c i) b) (hfull : s.pipe.Full)
      (hopen : s.pipe.readopen = true) :
      Move s (.step p) (s.goto p (.wake (.write c i) 0))
  | store {p : Fin n} {c : WriteCall} {i : ℕ} {b : Bool} {ch : Byte}
      (hp : s.pc p = .test (.write c i) b) (hfull : ¬ s.pipe.Full)
      (hsrc : c.src i = some ch) : Move s (.step p) ({ s with
            pipe := s.pipe.store ch
            stored := s.stored ++ [(c.id, ch)] }.goto p
          (.test (.write c (i + 1)) true))
  | wrote {p : Fin n} {c : WriteCall} {i : ℕ} {b : Bool} (hp : s.pc p = .test (.write c i) b) :
      Move s (.step p) (s.goto p (.done (.wrote c i) 0))
  | quit {p : Fin n} {c : ReadCall} {b : Bool} (hp : s.pc p = .test (.read c) b) :
      Move s (.step p) (s.leave p)
  | wait {p : Fin n} {c : ReadCall} {b : Bool} (hp : s.pc p = .test (.read c) b)
      (hempty : s.pipe.Empty) (hopen : s.pipe.writeopen = true) :
      Move s (.step p) (s.goto p (.sleep (.read c)))
  | copy {p : Fin n} {c : ReadCall} {b : Bool} (hp : s.pc p = .test (.read c) b)
      (hready : ¬ (s.pipe.Empty ∧ s.pipe.writeopen = true)) :
      Move s (.step p) (s.goto p (.copy c 0))
  | wake {p : Fin n} {j : Job} {k : ℕ} (hp : s.pc p = .wake j k) (hk : k < n)
      (hfree : ¬ s.Busy ⟨k, hk⟩) :
      Move s (.step p) ((s.wakeup .nread ⟨k, hk⟩).goto p (.wake j (k + 1)))
  | sleep {p : Fin n} {j : Job} {k : ℕ} (hp : s.pc p = .wake j k) (hk : n ≤ k) :
      Move s (.step p) (s.goto p (.sleep j))
  | release {p : Fin n} {j : Job} (hp : s.pc p = .sleep j) :
      Move s (.step p) { s.goto p (.fall j) with lock := none }
  | fall {p : Fin n} {j : Job} (hp : s.pc p = .fall j) : Move s (.step p)
        { s.goto p (.asleep j) with
          sleeping := Function.update s.sleeping p true
          chan := Function.update s.chan p (some j.chan) }
  | resume {p : Fin n} {j : Job} (hp : s.pc p = .asleep j) (hwoken : s.sleeping p = false) :
      Move s (.step p)
        { s.goto p (.acquire j) with chan := Function.update s.chan p none }
  | take {p : Fin n} {c : ReadCall} {i : ℕ} (pc : Pc) (hp : s.pc p = .copy c i)
      (hempty : ¬ s.pipe.Empty)
      (hpc : pc = .copy c (i + 1) ∨ pc = .done (.read c i) 0 ∧ c.dst i = false) :
      Move s (.step p) ({ s with
            pipe := s.pipe.drop
            removed := s.removed ++ [s.pipe.front] }.goto p pc)
  | read {p : Fin n} {c : ReadCall} {i : ℕ} (hp : s.pc p = .copy c i)
      (hstop : c.n.toInt ≤ i ∨ s.pipe.Empty) :
      Move s (.step p) (s.goto p (.done (.read c i) 0))
  | close {p : Fin n} {writable : Bool} (hp : s.pc p = .close writable) (hlock : s.lock = none) :
      Move s (.step p)
        { s.goto p (.done (.closed writable) 0) with
          lock := some p
          pipe := s.pipe.close writable }
  | last {p : Fin n} {o : Outcome} {k : ℕ} (hp : s.pc p = .done o k) (hk : k < n)
      (hfree : ¬ s.Busy ⟨k, hk⟩) :
      Move s (.step p) ((s.wakeup o.chan ⟨k, hk⟩).goto p (.done o (k + 1)))
  | finish {p : Fin n} {o : Outcome} {k : ℕ} (hp : s.pc p = .done o k)
      (hk : n ≤ k) : Move s (.step p) ((s.finish o).leave p)

section Inversion

variable {s t : State n} {p : Fin n} {e : Event n}

theorem writeTest_move {c : WriteCall} {i : ℕ} {b : Bool}
    (hp : s.pc p = .test (.write c i) b) : Move s (.step p) (writeTest s p c i) := by
  unfold writeTest
  split
  · split
    next hfull =>
      split
      next hquit => exact .giveUp hp hfull hquit
      next hquit =>
        push Not at hquit
        exact .warn hp hfull (Bool.eq_true_of_not_eq_false hquit.1)
    next hfull =>
      split
      next => exact .wrote hp
      next ch hsrc => exact .store hp hfull hsrc
  · exact .wrote hp

theorem readTest_move {c : ReadCall} {b : Bool} (hp : s.pc p = .test (.read c) b) :
    Move s (.step p) (readTest s p c) := by
  unfold readTest
  split
  next hwait =>
    split
    · exact .quit hp
    · exact .wait hp hwait.1 hwait.2
  next hready => exact .copy hp hready

theorem readCopy_move {c : ReadCall} {i : ℕ} (hp : s.pc p = .copy c i) :
    Move s (.step p) (readCopy s p c i) := by
  unfold readCopy
  split
  next =>
    split
    next hempty => exact .read hp (Or.inr hempty)
    next hempty =>
      dsimp only
      split
      next => exact .take _ hp hempty (Or.inl rfl)
      next hdst => exact .take _ hp hempty (Or.inr ⟨rfl, Bool.eq_false_iff.mpr hdst⟩)
  next hi => exact .read hp (Or.inl (Int.not_lt.mp hi))

theorem advance_move (h : advance s p = some t) : Move s (.step p) t := by
  unfold advance at h
  split at h
  next => cases h
  next j hp =>
    split at h <;> cases h
    next hlock => exact .acquire hp hlock.1
  next c i b hp =>
    cases h
    exact writeTest_move hp
  next c b hp =>
    cases h
    exact readTest_move hp
  next j k hp =>
    split at h
    next hk =>
      split at h <;> cases h
      next hfree => exact .wake hp hk hfree
    next hk =>
      cases h
      exact .sleep hp (Nat.not_lt.mp hk)
  next j hp =>
    cases h
    exact .release hp
  next j hp =>
    cases h
    exact .fall hp
  next j hp =>
    split at h <;> cases h
    next hwoken => exact .resume hp (Bool.eq_false_iff.mpr hwoken)
  next c i hp =>
    cases h
    exact readCopy_move hp
  next writable hp =>
    split at h <;> cases h
    next hlock => exact .close hp hlock.1
  next o k hp =>
    split at h
    next hk =>
      split at h <;> cases h
      next hfree => exact .last hp hk hfree
    next hk =>
      cases h
      exact .finish hp (Nat.not_lt.mp hk)

theorem step_move (h : step s e = some t) : Move s e t := by
  cases e with
  | pipewrite p src m | piperead p dst m | pipeclose p writable | fork q =>
    unfold step at h
    dsimp only at h
    split at h <;> cases h
    next hp => constructor; exact hp
  | kill q =>
    unfold step at h
    dsimp only at h
    split at h <;> cases h
    next hq => exact .kill hq
  | step p => exact advance_move h

end Inversion

end OsCa.Pipes
