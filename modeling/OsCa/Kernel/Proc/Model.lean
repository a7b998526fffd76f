import Mathlib.Data.Fin.Basic
import OsCa.Support.EventSystem

/-!
# The process table

This module embeds the part of `kernel/proc.c` that several CPUs execute at the
same time: the scheduler, and `fork`, `exit`, `wait`, `sleep`, `wakeup` and
`kill`.  A CPU is at some place in the code of `scheduler` or of a process, and
an event moves one CPU to the next place.  A section that is protected by one
`p->lock` is one event, which is possible when the lock is free; where a lock
stays held from one place to another, it is recorded in `lock`.  Reads of
`pp->parent` without a lock are events of their own.

The two halves of `swtch` are separate: it saves the registers to one context
and then loads the other one.  A context that has been loaded is `stale` until
it is saved again.

User memory, open files and the current directory are left out, so the only
trace of `kalloc` is whether it succeeds.  `records` is a history of the calls;
no code looks at it.
-/

namespace OsCa.Process

def NPROC : ℕ := 64

/-- An element of `proc[]`. -/
abbrev Slot := Fin NPROC

/-- `userinit` gets the first slot. -/
def initproc : Slot := ⟨0, by decide⟩

/-- The next slot in the endless loop of `scheduler`. -/
def nextSlot (p : Slot) : Slot := ⟨(p + 1) % NPROC, Nat.mod_lt _ (by decide)⟩

/-! ## The state -/

inductive ProcState where
  | unused
  | sleeping
  | runnable
  | running
  | zombie
  deriving DecidableEq

/-- A sleep channel: the address of a `struct proc`, which only `wait` sleeps
on, or of some other object of the kernel. -/
inductive Chan where
  | proc (p : Slot)
  | other (n : ℕ)
  deriving DecidableEq

/-- A C `int`. -/
abbrev CInt := BitVec 32

/-- A place in the kernel code of a process. -/
inductive Pc where
  /-- In user space, or in code that is not part of this model. -/
  | user
  /-- The loop of `allocproc`. -/
  | forkScan (i : ℕ)
  /-- `found:`, with `np->lock` held. -/
  | forkFound (np : Slot)
  /-- `np` has its pid. -/
  | forkFill (np : Slot)
  /-- `exit`, before init is woken up. -/
  | exitInit (status : CInt)
  | exitParent (status : CInt)
  | exitLockParent (status : CInt) (original : Option Slot)
  | exitLockSelf (status : CInt) (original : Slot)
  /-- The loop of `reparent`. -/
  | reparent (status : CInt) (original : Slot) (i : ℕ)
  /-- `reparent` has found a child. -/
  | reparentChild (status : CInt) (original : Slot) (pp : Slot)
  | waitEnter (addr : Bool)
  /-- The loop of `wait`. -/
  | waitScan (addr : Bool) (i : ℕ) (havekids : Bool)
  /-- `wait` has found a child. -/
  | waitChild (addr : Bool) (np : Slot)
  /-- The loop of `kill`. -/
  | killScan (pid : CInt) (i : ℕ)
  deriving DecidableEq

/-- Where a process continues when `swtch` returns. -/
inductive Resume where
  | forkret
  | yield (pc : Pc)
  | sleep
  | wait (addr : Bool)
  /-- `exit`, which panics here. -/
  | dead
  deriving DecidableEq

inductive Context where
  | stale
  | saved (r : Resume)
  deriving DecidableEq

/-- `struct proc`; `lock` is the CPU that holds `p->lock`. -/
structure Proc (n : ℕ) where
  lock : Option (Fin n)
  state : ProcState
  parent : Option Slot
  chan : Option Chan
  killed : Bool
  xstate : CInt
  pid : CInt
  context : Context

/-- A place in the code a CPU executes. -/
inductive Code where
  /-- The loop of `scheduler`. -/
  | scan (p : Slot)
  /-- `scheduler` calls `swtch`. -/
  | picked (p : Slot)
  /-- The scheduler's context is saved. -/
  | loading (p : Slot)
  /-- `swtch` has returned to `scheduler`. -/
  | back (p : Slot)
  | run (p : Slot) (pc : Pc)
  /-- `sched` calls `swtch`. -/
  | sched (p : Slot) (r : Resume)
  /-- The context of the process is saved. -/
  | leaving (p : Slot)
  /-- `swtch` has returned to `sched`. -/
  | resumed (p : Slot) (r : Resume)
  /-- The registers were loaded from a stale context. -/
  | wild
  deriving DecidableEq

/-- The scheduler's context: the process its loop is at. -/
inductive CpuContext where
  | stale
  | saved (p : Slot)
  deriving DecidableEq

/-- `struct cpu`. -/
structure Cpu where
  proc : Option Slot
  context : CpuContext
  code : Code

/-- An entry of the history. -/
inductive Record where
  | forked (parent child : Slot) (pid : CInt)
  | adopted (child : Slot)
  | exited (p : Slot) (status : CInt)
  | waited (caller child : Slot) (pid : CInt) (status : Option CInt)
  | killed (pid : CInt)
  deriving DecidableEq

structure State (n : ℕ) where
  proc : Slot → Proc n
  cpu : Fin n → Cpu
  nextpid : CInt
  records : List Record

variable {n : ℕ}

namespace State

def modify (s : State n) (p : Slot) (f : Proc n → Proc n) : State n :=
  { s with proc := Function.update s.proc p (f (s.proc p)) }

def setCpu (s : State n) (c : Fin n) (f : Cpu → Cpu) : State n :=
  { s with cpu := Function.update s.cpu c (f (s.cpu c)) }

def goto (s : State n) (c : Fin n) (k : Code) : State n :=
  s.setCpu c fun cpu => { cpu with code := k }

def record (s : State n) (r : Record) : State n :=
  { s with records := s.records ++ [r] }

/-- `t` is what a section with `p->lock` held makes of `s`. -/
def guarded (s : State n) (p : Slot) (t : State n) : Option (State n) :=
  if (s.proc p).lock = none then some t else none

end State

namespace Proc

def acquire (c : Fin n) (p : Proc n) : Proc n := { p with lock := some c }

def release (p : Proc n) : Proc n := { p with lock := none }

/-- `freeproc`; the trapframe and the page table are left out. -/
def freeproc (p : Proc n) : Proc n :=
  { p with
    pid := 0
    parent := none
    chan := none
    killed := false
    xstate := 0
    state := .unused }

/-- The body of the loop of `wakeup`; `wakeup1(q)` is the same with the channel
`q`. -/
def wakeup (chan : Chan) (p : Proc n) : Proc n := if p.state = .sleeping ∧ p.chan = some chan then
    { p with state := .runnable }
  else p

/-- What `kill` does to the process with the given pid. -/
def kill (p : Proc n) : Proc n :=
  { p with
    killed := true
    state := if p.state = .sleeping then .runnable else p.state }

end Proc

/-! ## Steps -/

/-- What `kalloc` gives to `fork`. -/
inductive Alloc where
  | noTrapframe
  | noPagetable
  | noCopy
  | enough
  deriving DecidableEq

/-- What a CPU does next.  `step` continues where it is; the other events say
which system call a process makes, or fix what the model leaves open. -/
inductive Event where
  | step
  | fork
  | exit (status : CInt)
  | wait (addr : Bool)
  | kill (pid : CInt)
  | sleep (n : ℕ)
  /-- A timer interrupt. -/
  | yield
  | alloc (a : Alloc)
  /-- `copyout` in `wait` fails. -/
  | copyoutFails
  /-- One section of `wakeup`, which any code may call. -/
  | wakeup (p : Slot) (chan : Chan)
  deriving DecidableEq

/-- Places at which interrupts are on: no spinlock is held. -/
def Pc.Interruptible : Pc → Prop
  | .user | .forkScan _ | .exitInit _ | .exitParent _ | .exitLockParent _ _
  | .waitEnter _ | .killScan _ _ => True
  | _ => False

instance : DecidablePred Pc.Interruptible := fun pc => by
  cases pc <;> unfold Pc.Interruptible <;> infer_instance

/-- `scheduler` on CPU `c`. -/
def schedulerStep (s : State n) (c : Fin n) (p : Slot) : Option (State n) :=
  s.guarded p <| if (s.proc p).state = .runnable then
      (s.modify p fun q => { q with lock := some c, state := .running }).setCpu
        c fun cpu => { cpu with proc := some p, code := .picked p }
    else
      s.goto c (.scan (nextSlot p))

/-- `fork` by process `p`. -/
def forkStep (s : State n) (c : Fin n) (p : Slot) : Pc → Event → Option (State n)
  | .forkScan i, .step =>
    if h : i < NPROC then
      s.guarded ⟨i, h⟩ <| if (s.proc ⟨i, h⟩).state = .unused then
          (s.modify ⟨i, h⟩ (Proc.acquire c)).goto c (.run p (.forkFound ⟨i, h⟩))
        else
          s.goto c (.run p (.forkScan (i + 1)))
    else
      some (s.goto c (.run p .user))
  | .forkFound np, .step =>
    some { (s.modify np fun q => { q with pid := s.nextpid }).goto c
      (.run p (.forkFill np)) with nextpid := s.nextpid + 1 }
  | .forkFill np, .alloc .noTrapframe => some ((s.modify np Proc.release).goto c (.run p .user))
  | .forkFill np, .alloc .noPagetable =>
    some ((s.modify np fun q => q.freeproc.release).goto c (.run p .user))
  | .forkFill np, .alloc .noCopy =>
    some ((s.modify np fun q => q.freeproc.release).goto c (.run p .user))
  | .forkFill np, .alloc .enough =>
    some (((s.modify np fun q =>
      { q with
        context := .saved .forkret
        parent := some p
        state := .runnable
        lock := none }).goto c (.run p .user)).record (.forked p np (s.proc np).pid))
  | _, _ => none

/-- `exit` by process `p`. -/
def exitStep (s : State n) (c : Fin n) (p : Slot) : Pc → Option (State n)
  | .exitInit st =>
    s.guarded initproc <| (s.modify initproc (Proc.wakeup (.proc initproc))).goto c
        (.run p (.exitParent st))
  | .exitParent st => s.guarded p <| s.goto c (.run p (.exitLockParent st (s.proc p).parent))
  | .exitLockParent st (some o) =>
    s.guarded o <| (s.modify o (Proc.acquire c)).goto c (.run p (.exitLockSelf st o))
  | .exitLockSelf st o =>
    s.guarded p <| (s.modify p (Proc.acquire c)).goto c (.run p (.reparent st o 0))
  | .reparent st o i =>
    if h : i < NPROC then
      if (s.proc ⟨i, h⟩).parent = some p then
        some (s.goto c (.run p (.reparentChild st o ⟨i, h⟩)))
      else
        some (s.goto c (.run p (.reparent st o (i + 1))))
    else
      some ((((s.modify o fun q => (q.wakeup (.proc o)).release).modify p
        fun q => { q with xstate := st, state := .zombie }).goto c
          (.sched p .dead)).record (.exited p st))
  | .reparentChild st o pp =>
    s.guarded pp <| ((s.modify pp fun q => { q with parent := some initproc }).goto c
        (.run p (.reparent st o (pp + 1)))).record (.adopted pp)
  | _ => none

/-- `wait` by process `p`. -/
def waitStep (s : State n) (c : Fin n) (p : Slot) : Pc → Event → Option (State n)
  | .waitEnter addr, .step =>
    s.guarded p <| (s.modify p (Proc.acquire c)).goto c (.run p (.waitScan addr 0 false))
  | .waitScan addr i havekids, .step =>
    if h : i < NPROC then
      if (s.proc ⟨i, h⟩).parent = some p then
        some (s.goto c (.run p (.waitChild addr ⟨i, h⟩)))
      else
        some (s.goto c (.run p (.waitScan addr (i + 1) havekids)))
    else if havekids = false ∨ (s.proc p).killed = true then
      some ((s.modify p Proc.release).goto c (.run p .user))
    else
      some ((s.modify p fun q =>
        { q with chan := some (.proc p), state := .sleeping }).goto c
          (.sched p (.wait addr)))
  | .waitChild addr np, .step =>
    s.guarded np <| if (s.proc np).state = .zombie then
        (((s.modify np Proc.freeproc).modify p Proc.release).goto c
          (.run p .user)).record (.waited p np (s.proc np).pid
            (if addr then some (s.proc np).xstate else none))
      else
        s.goto c (.run p (.waitScan addr (np + 1) true))
  | .waitChild true np, .copyoutFails =>
    if (s.proc np).state = .zombie then
      s.guarded np ((s.modify p Proc.release).goto c (.run p .user))
    else none
  | _, _ => none

/-- `kill` by process `p`. -/
def killStep (s : State n) (c : Fin n) (p : Slot) : Pc → Option (State n)
  | .killScan pid i =>
    if h : i < NPROC then
      s.guarded ⟨i, h⟩ <| if (s.proc ⟨i, h⟩).pid = pid then
          ((s.modify ⟨i, h⟩ Proc.kill).goto c (.run p .user)).record (.killed pid)
        else
          s.goto c (.run p (.killScan pid (i + 1)))
    else
      some (s.goto c (.run p .user))
  | _ => none

/-- A system call that process `p` makes. -/
def userStep (s : State n) (c : Fin n) (p : Slot) : Event → Option (State n)
  | .fork => some (s.goto c (.run p (.forkScan 0)))
  | .exit st =>
    -- panic("init exiting")
    if p = initproc then none else some (s.goto c (.run p (.exitInit st)))
  | .wait addr => some (s.goto c (.run p (.waitEnter addr)))
  | .kill pid => some (s.goto c (.run p (.killScan pid 0)))
  | .sleep k =>
    s.guarded p <| (s.modify p fun q =>
        { q with
          lock := some c
          chan := some (.other k)
          state := .sleeping }).goto c (.sched p .sleep)
  | _ => none

def runStep (s : State n) (c : Fin n) (p : Slot) (pc : Pc) : Event → Option (State n)
  | .yield =>
    if pc.Interruptible then
      s.guarded p <| (s.modify p fun q => { q with lock := some c, state := .runnable }).goto
          c (.sched p (.yield pc))
    else none
  | e =>
    match pc with
    | .user => userStep s c p e
    | .forkScan _ | .forkFound _ | .forkFill _ => forkStep s c p pc e
    | .waitEnter _ | .waitScan _ _ _ | .waitChild _ _ => waitStep s c p pc e
    | .killScan _ _ => if e = .step then killStep s c p pc else none
    | _ => if e = .step then exitStep s c p pc else none

/-- What happens when `sched` returns. -/
def resumeStep (s : State n) (c : Fin n) (p : Slot) : Resume → Option (State n)
  | .forkret => some ((s.modify p Proc.release).goto c (.run p .user))
  | .yield pc => some ((s.modify p Proc.release).goto c (.run p pc))
  | .sleep =>
    some ((s.modify p fun q => { q with chan := none, lock := none }).goto c (.run p .user))
  | .wait addr =>
    some ((s.modify p fun q => { q with chan := none }).goto c (.run p (.waitScan addr 0 false)))
  -- panic("zombie exit")
  | .dead => none

/-- The two halves of `swtch`, and what surrounds it. -/
def switchStep (s : State n) (c : Fin n) : Code → Option (State n)
  | .picked p =>
    some (s.setCpu c fun cpu =>
      { cpu with context := .saved p, code := .loading p })
  | .loading p =>
    match (s.proc p).context with
    | .saved r => some ((s.modify p fun q => { q with context := .stale }).goto c (.resumed p r))
    | .stale => some (s.goto c .wild)
  | .sched p r => some ((s.modify p fun q => { q with context := .saved r }).goto c (.leaving p))
  | .leaving _ =>
    match (s.cpu c).context with
    | .saved q =>
      some (s.setCpu c fun cpu =>
        { cpu with context := .stale, code := .back q })
    | .stale => some (s.goto c .wild)
  | .back p =>
    some ((s.modify p Proc.release).setCpu c fun cpu =>
      { cpu with proc := none, code := .scan (nextSlot p) })
  | _ => none

def step (s : State n) (ev : Fin n × Event) : Option (State n) :=
  match ev.2 with
  | .wakeup p chan => s.guarded p (s.modify p (Proc.wakeup chan))
  | e =>
    match (s.cpu ev.1).code with
    | .run p pc => runStep s ev.1 p pc e
    | .scan p => if e = .step then schedulerStep s ev.1 p else none
    | .resumed p r => if e = .step then resumeStep s ev.1 p r else none
    | k => if e = .step then switchStep s ev.1 k else none

/-! ## The start -/

/-- A slot after `procinit`. -/
def freshProc (n : ℕ) : Proc n where
  lock := none
  state := .unused
  parent := none
  chan := none
  killed := false
  xstate := 0
  pid := 0
  context := .stale

/-- After `userinit`, with every CPU at the start of `scheduler`. -/
def boot (n : ℕ) : State n where
  proc := Function.update (fun _ => freshProc n) initproc
    { freshProc n with state := .runnable, pid := 1, context := .saved .forkret }
  cpu _ := ⟨none, .stale, .scan initproc⟩
  nextpid := 2
  records := []

/-- `n` CPUs. -/
def system (n : ℕ) : EventSystem (State n) (Fin n × Event) where
  init s := s = boot n
  step := step

end OsCa.Process
