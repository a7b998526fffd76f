import OsCa.Support.EventSystem
import OsCa.Kernel.Log.Model

/-!
# Concurrent operations on the log

`begin_op`, `log_write` and `end_op` of `kernel/log.c`, called by any number
of processes.  Each critical section of `log.lock` is one event.  The two
tests of `log_write` happen before it takes the lock, and `commit()` runs
without the lock, so they are events of their own; other processes may run
between any two of them.

The fields `op`, `used`, `nextOp`, `writes` and `commits` of a state are not
in the source.  They number the operations, remember which blocks each
operation has logged and in which transaction, and record the header that each
commit found.
-/

namespace OsCa.Log

open Function

/-! ## The steps of a commit -/

/-- Where a process stands inside `commit()`. -/
inductive CommitPc where
  | entry
  | writeLog (tail : ℕ)
  | writeHead
  | installTrans (tail : ℕ)
  | clearCount
  | eraseHead
  | done
  deriving DecidableEq

/-- One step of `commit()`.  Every loop test reads `log.lh.n` again. -/
def commitStep (L : LogArea) (m : Machine) : CommitPc → CommitPc × Machine
  | .entry => (if 0 < m.lh.length then .writeLog 0 else .done, m)
  | .writeLog tail =>
    if tail < m.lh.length then (.writeLog (tail + 1), writeLogBody L tail m)
    else (.writeHead, m)
  | .writeHead => (.installTrans 0, Log.writeHead L m)
  | .installTrans tail =>
    if tail < m.lh.length then
      (.installTrans (tail + 1), installTransBody L tail m)
    else (.clearCount, m)
  | .clearCount => (.eraseHead, { m with lh := [] })
  | .eraseHead => (.done, Log.writeHead L m)
  | .done => (.done, m)

/-! ## Processes -/

/-- Where a process stands with respect to `log.c`. -/
inductive Pc where
  /-- Outside of any file system operation. -/
  | outside
  /-- In `begin_op`, about to take `log.lock`. -/
  | beginOp
  /-- In `begin_op`, asleep on `&log`. -/
  | sleeping
  /-- Between `begin_op` and `end_op`. -/
  | inOp
  /-- In `log_write`, past its two tests. -/
  | logWrite (b : Uint)
  /-- In `end_op`, running `commit()`. -/
  | commit (c : CommitPc)
  deriving DecidableEq

/-- The panics of `end_op` and `log_write`. -/
inductive Panic where
  | logCommitting
  | tooBigATransaction
  | logWriteOutsideOfTrans
  deriving DecidableEq

/-- The process is between `begin_op` and `end_op`. -/
def Pc.Inside (pc : Pc) : Prop := pc = .inOp ∨ ∃ b, pc = .logWrite b

/-- A completed `log_write`: the operation that made it, the block, and the
number of the transaction it went into. -/
structure LogWrite where
  op : ℕ
  block : Uint
  tx : ℕ
  deriving DecidableEq

structure State (Pid : Type*) where
  machine : Machine
  outstanding : ℤ
  committing : Bool
  pc : Pid → Pc
  panic : Option Panic
  op : Pid → ℕ
  used : Pid → List Uint
  nextOp : ℕ
  writes : List LogWrite
  commits : List (List Uint)

/-- The number of the transaction that is being collected. -/
def State.tx {Pid : Type*} (s : State Pid) : ℕ := s.commits.length

inductive Event (Pid : Type*) where
  | callBeginOp (p : Pid)
  | beginOp (p : Pid)
  | modify (p : Pid) (b : Uint) (data : Block)
  | logWriteTest (p : Pid) (b : Uint)
  | logWriteRecord (p : Pid) (b : Uint)
  | endOp (p : Pid)
  | commitStep (p : Pid) (c : CommitPc)
  | finishCommit (p : Pid)

variable {Pid : Type*} [DecidableEq Pid]

/-- `wakeup(&log)`: every process asleep on the log becomes runnable and will
take the lock again. -/
def wakeup (pc : Pid → Pc) : Pid → Pc := fun q => if pc q = .sleeping then .beginOp else pc q

def State.setPc (s : State Pid) (p : Pid) (c : Pc) : State Pid :=
  { s with pc := update s.pc p c }

/-- One pass through the loop of `begin_op`. -/
def beginOp (s : State Pid) (p : Pid) : State Pid := if s.committing then
    s.setPc p .sleeping
  else if (s.machine.lh.length : ℤ) + (s.outstanding + 1) * MAXOPBLOCKS > LOGSIZE then
    s.setPc p .sleeping
  else
    { s with
      outstanding := s.outstanding + 1
      pc := update s.pc p .inOp
      op := update s.op p s.nextOp
      used := update s.used p []
      nextOp := s.nextOp + 1 }

/-- An operation changes the contents of a buffer it has locked. -/
def modify (s : State Pid) (b : Uint) (data : Block) : State Pid :=
  { s with
    machine := { s.machine with
      cache := update s.machine.cache b.toNat (some data) } }

/-- The two tests at the start of `log_write`. -/
def logWriteTest (L : LogArea) (s : State Pid) (p : Pid) (b : Uint) : State Pid :=
  let s := { s with used := update s.used p ((s.used p).insert b) }
  if s.machine.lh.length ≥ LOGSIZE ∨ s.machine.lh.length ≥ L.size - 1 then
    { s with panic := some .tooBigATransaction }
  else if s.outstanding < 1 then
    { s with panic := some .logWriteOutsideOfTrans }
  else
    s.setPc p (.logWrite b)

/-- The critical section of `log_write`: absorb the block if it is recorded
already, and otherwise append it to the header. -/
def logWriteRecord (s : State Pid) (p : Pid) (b : Uint) : State Pid :=
  { s with
    machine := { s.machine with
      lh := if b ∈ s.machine.lh then s.machine.lh else s.machine.lh ++ [b] }
    pc := update s.pc p .inOp
    writes := s.writes ++ [⟨s.op p, b, s.tx⟩] }

/-- The first critical section of `end_op`. -/
def endOp (s : State Pid) (p : Pid) : State Pid :=
  let s := { s with outstanding := s.outstanding - 1 }
  if s.committing then
    { s with panic := some .logCommitting }
  else if s.outstanding = 0 then
    { s with
      committing := true
      pc := update s.pc p (.commit .entry)
      commits := s.commits ++ [s.machine.lh] }
  else
    { s with pc := update (wakeup s.pc) p .outside }

/-- The second critical section of `end_op`, after `commit()`. -/
def finishCommit (s : State Pid) (p : Pid) : State Pid :=
  { s with
    committing := false
    pc := update (wakeup s.pc) p .outside }

/-- The event is the next thing its process does. -/
def Event.Enabled (s : State Pid) : Event Pid → Prop
  | .callBeginOp p => s.pc p = .outside
  | .beginOp p => s.pc p = .beginOp
  | .modify p _ _ => s.pc p = .inOp
  | .logWriteTest p _ => s.pc p = .inOp
  | .logWriteRecord p b => s.pc p = .logWrite b
  | .endOp p => s.pc p = .inOp
  | .commitStep p c => s.pc p = .commit c ∧ c ≠ .done
  | .finishCommit p => s.pc p = .commit .done

instance (s : State Pid) (e : Event Pid) : Decidable (e.Enabled s) :=
  match e with
  | .callBeginOp p => inferInstanceAs (Decidable (s.pc p = _))
  | .beginOp p => inferInstanceAs (Decidable (s.pc p = _))
  | .modify p _ _ => inferInstanceAs (Decidable (s.pc p = _))
  | .logWriteTest p _ => inferInstanceAs (Decidable (s.pc p = _))
  | .logWriteRecord p _ => inferInstanceAs (Decidable (s.pc p = _))
  | .endOp p => inferInstanceAs (Decidable (s.pc p = _))
  | .commitStep p c => inferInstanceAs (Decidable (s.pc p = _ ∧ c ≠ _))
  | .finishCommit p => inferInstanceAs (Decidable (s.pc p = _))

/-- The state after an event. -/
def Event.effect (L : LogArea) (s : State Pid) : Event Pid → State Pid
  | .callBeginOp p => s.setPc p .beginOp
  | .beginOp p => Log.beginOp s p
  | .modify _ b data => Log.modify s b data
  | .logWriteTest p b => Log.logWriteTest L s p b
  | .logWriteRecord p b => Log.logWriteRecord s p b
  | .endOp p => Log.endOp s p
  | .commitStep p c =>
    { s with
      machine := (Log.commitStep L s.machine c).2
      pc := update s.pc p (.commit (Log.commitStep L s.machine c).1) }
  | .finishCommit p => Log.finishCommit s p

/-- A panic stops the kernel: no event is possible after it. -/
def step (L : LogArea) (s : State Pid) (e : Event Pid) : Option (State Pid) :=
  if s.panic = none ∧ e.Enabled s then some (e.effect L s) else none

/-- The kernel has just been started: `initlog` has emptied the log and no
process has called `begin_op` yet. -/
structure Start (s : State Pid) : Prop where
  lh : s.machine.lh = []
  outstanding : s.outstanding = 0
  committing : s.committing = false
  pc : ∀ p, s.pc p = .outside
  panic : s.panic = none
  writes : s.writes = []
  commits : s.commits = []

/-- A start state: nothing is cached and no operation has run. -/
def startState (Pid : Type*) (d : Disk) : State Pid where
  machine := boot d
  outstanding := 0
  committing := false
  pc := fun _ => .outside
  panic := none
  op := fun _ => 0
  used := fun _ => []
  nextOp := 0
  writes := []
  commits := []

omit [DecidableEq Pid] in
theorem start_startState (d : Disk) : Start (startState Pid d) :=
  ⟨rfl, rfl, rfl, fun _ => rfl, rfl, rfl, rfl⟩

/-- The log shared by the processes of type `Pid`. -/
def system (Pid : Type*) [DecidableEq Pid] (L : LogArea) : EventSystem (State Pid) (Event Pid) where
  init := Start
  step := step L

theorem step_eq_some_iff {L : LogArea} {s t : State Pid} {e : Event Pid} :
    step L s e = some t ↔ s.panic = none ∧ e.Enabled s ∧ t = e.effect L s := by
  unfold step
  split
  next h =>
    simp only [Option.some.injEq]
    constructor
    · intro heq
      exact ⟨h.1, h.2, heq.symm⟩
    · intro heq
      exact heq.2.2.symm
  next h =>
    simp only [reduceCtorEq, false_iff]
    rintro ⟨hpanic, henabled, -⟩
    exact h ⟨hpanic, henabled⟩

end OsCa.Log
