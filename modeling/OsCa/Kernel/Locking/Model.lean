import OsCa.Support.Action
import OsCa.Kernel.Proc.Model

/-!
# Spinlocks and sleeping

This module embeds `kernel/spinlock.c`, `sleep`, `wakeup` and `sched` of
`kernel/proc.c`, and the calls that may sleep: `consolewrite`, `consoleread`,
`pipewrite`, `piperead`, `acquiresleep`, `begin_op` and `virtio_disk_rw`.

The state is that of the CPU and the process that makes the call.  The data that
locks protect can be changed by others whenever the call does not have the lock, and
the registers of a device at any time, so what a test finds is given by a list of
answers.  A call is followed until it returns, panics, or has used up the answers or
the bound on the rounds of its loops.
-/

namespace OsCa.Locking

open Process (NPROC)

/-- The locks: those of the objects of the call, and `p->lock` for each process. -/
inductive Lock where
  | cons
  | uartTx
  | pipe
  | sleeplock
  | log
  | vdisk
  | proc (i : Fin NPROC)
  deriving DecidableEq

/-- What the code tests. -/
inductive Question where
  | copied
  | killed
  | panicked
  /-- `((uart_tx_w + 1) % UART_TX_BUF_SIZE) == uart_tx_r`. -/
  | uartFull
  /-- `uart_tx_w == uart_tx_r`. -/
  | uartEmpty
  /-- `ReadReg(LSR) & LSR_TX_IDLE`. -/
  | uartIdle
  | consEmpty
  /-- The character is `C('D')`. -/
  | eof
  | newline
  | pipeFull
  | pipeEmpty
  | readopen
  | writeopen
  | locked
  | committing
  | logFull
  /-- `alloc_desc` finds a free descriptor. -/
  | descFree
  /-- `i >= NUM` in `free_desc`. -/
  | descRange
  /-- `disk.free[i]` in `free_desc`. -/
  | descFreed
  /-- `b->disk == 1`. -/
  | busy
  /-- `flag & VRING_DESC_F_NEXT`. -/
  | chained
  deriving DecidableEq

/-- A call of `sleep`, and the locks that were held. -/
structure Sleep where
  lk : Lock
  held : List Lock

/-- What the process has done since the call began. -/
structure History where
  asked : List (Question × Bool)
  sleeps : List Sleep
  /-- `noff` at each entry of `sched`. -/
  scheds : List ℕ

structure Cpu extends History where
  /-- The process that makes the call. -/
  me : Fin NPROC
  noff : ℕ
  intena : Bool
  /-- Device interrupts are enabled. -/
  intr : Bool
  held : List Lock
  /-- `p->state == RUNNING`. -/
  running : Bool
  answers : List Bool

inductive Stop where
  | panic (msg : String)
  /-- The call goes on beyond what is followed. -/
  | cut
  deriving DecidableEq

abbrev Code (α : Type) := Action (Stop × Cpu) Cpu α

open OsCa.Action

def panic (msg : String) : Code Unit := do
  let c ← read
  fail (.panic msg, c)

def cut {α : Type} : Code α := do
  let c ← read
  fail (.cut, c)

/-- A test. -/
def ask (q : Question) : Code Bool := do
  let c ← read
  match c.answers with
  | [] => cut
  | b :: rest => do
      update fun c => { c with answers := rest, asked := c.asked ++ [(q, b)] }
      return b

/-! ## Spinlocks -/

def pushOff : Code Unit := update fun c =>
    { c with
      intr := false
      intena := if c.noff = 0 then c.intr else c.intena
      noff := c.noff + 1 }

def popOff : Code Unit := do
  let c ← read
  if c.intr then panic "pop_off - interruptible"
  else if c.noff < 1 then panic "pop_off"
  else
    update fun c =>
      { c with
        noff := c.noff - 1
        intr := decide (c.noff - 1 = 0) && c.intena }

def acquire (lk : Lock) : Code Unit := do
  pushOff
  let c ← read
  if lk ∈ c.held then panic "acquire"
  else update fun c => { c with held := lk :: c.held }

def release (lk : Lock) : Code Unit := do
  let c ← read
  if lk ∉ c.held then panic "release"
  else do
    update fun c => { c with held := c.held.erase lk }
    popOff

/-! ## Sleeping -/

/-- The process is running again when `sched` returns, with `intena` as it was and
`p->lock` taken for it by the scheduler, on whichever CPU that is. -/
def sched : Code Unit := do
  update fun c => { c with scheds := c.scheds ++ [c.noff] }
  let c ← read
  if .proc c.me ∉ c.held then panic "sched p->lock"
  else if c.noff ≠ 1 then panic "sched locks"
  else if c.running then panic "sched running"
  else if c.intr then panic "sched interruptible"
  else update fun c => { c with running := true }

/-- `if (b) x`. -/
def when (b : Bool) (x : Code Unit) : Code Unit := if b then x else pure ()

def sleep (lk : Lock) : Code Unit := do
  update fun c => { c with sleeps := c.sleeps ++ [⟨lk, c.held⟩] }
  let p ← read
  when (lk ≠ .proc p.me) do
    acquire (.proc p.me)
    release lk
  update fun c => { c with running := false }
  sched
  when (lk ≠ .proc p.me) do
    release (.proc p.me)
    acquire lk

def wakeup : Code Unit := (List.finRange NPROC).forM fun i => do
    acquire (.proc i)
    release (.proc i)

/-! ## Loops -/

/-- How a round of a loop ends: with the next round, at the end of the loop, or with
the end of the call. -/
inductive Flow where
  | next
  | leave
  | return

/-- At most `n` rounds of a loop, which ends if they are used up. -/
def forLoop : ℕ → Code Flow → Code Flow
  | 0, _ => pure .leave
  | n + 1, body => do
      match ← body with
      | .next => forLoop n body
      | .leave => pure .leave
      | .return => pure .return

/-- A loop, of which at most `fuel` rounds are followed. -/
def whileLoop : ℕ → Code Flow → Code Flow
  | 0, _ => cut
  | fuel + 1, body => do
      match ← body with
      | .next => whileLoop fuel body
      | .leave => pure .leave
      | .return => pure .return

/-- What comes after a loop, if the call has not returned in it. -/
def after (x rest : Code Flow) : Code Flow := do
  match ← x with
  | .return => pure .return
  | .next | .leave => rest

/-- The number of rounds of a loop up to an `int`. -/
def rounds (n : BitVec 32) : ℕ := n.toInt.toNat

/-! ## The calls -/

section Calls

variable (fuel : ℕ)

def uartstart : Code Flow := whileLoop fuel do
    if ← ask .uartEmpty then return .leave
    if !(← ask .uartIdle) then return .leave
    wakeup
    return .next

def uartputc : Code Flow := do
  acquire .uartTx
  when (← ask .panicked) cut
  whileLoop fuel do
    if ← ask .uartFull then do
      sleep .uartTx
      return .next
    else do
      let _ ← uartstart fuel
      release .uartTx
      return .leave

def consolewrite (n : BitVec 32) : Code Flow := do
  acquire .cons
  after (forLoop (rounds n) do
      if !(← ask .copied) then return .leave
      let _ ← uartputc fuel
      return .next) do
    release .cons
    return .return

def consoleread (n : BitVec 32) : Code Flow := do
  acquire .cons
  after (forLoop (rounds n) do
      after (whileLoop fuel do
          if !(← ask .consEmpty) then return .leave
          if ← ask .killed then do
            release .cons
            return .return
          sleep .cons
          return .next) do
        if ← ask .eof then return .leave
        if !(← ask .copied) then return .leave
        if ← ask .newline then return .leave
        return .next) do
    release .cons
    return .return

def pipewrite (n : BitVec 32) : Code Flow := do
  acquire .pipe
  after (forLoop (rounds n) do
      after (whileLoop fuel do
          if !(← ask .pipeFull) then return .leave
          if !(← ask .readopen) then do
            release .pipe
            return .return
          if ← ask .killed then do
            release .pipe
            return .return
          wakeup
          sleep .pipe
          return .next) do
        if !(← ask .copied) then return .leave
        return .next) do
    wakeup
    release .pipe
    return .return

def piperead (n : BitVec 32) : Code Flow := do
  acquire .pipe
  after (whileLoop fuel do
      if !(← ask .pipeEmpty) then return .leave
      if !(← ask .writeopen) then return .leave
      if ← ask .killed then do
        release .pipe
        return .return
      sleep .pipe
      return .next) do
    let _ ← forLoop (rounds n) do
      if ← ask .pipeEmpty then return .leave
      if !(← ask .copied) then return .leave
      return .next
    wakeup
    release .pipe
    return .return

def acquiresleep : Code Flow := do
  acquire .sleeplock
  let _ ← whileLoop fuel do
    if !(← ask .locked) then return .leave
    sleep .sleeplock
    return .next
  release .sleeplock
  return .return

def beginOp : Code Flow := do
  acquire .log
  whileLoop fuel do
    if ← ask .committing then do
      sleep .log
      return .next
    else if ← ask .logFull then do
      sleep .log
      return .next
    else do
      release .log
      return .leave

def freeDesc : Code Unit := do
  if ← ask .descRange then panic "free_desc 1"
  else if ← ask .descFreed then panic "free_desc 2"
  else wakeup

/-- `alloc3_desc`, and whether it has got the descriptors.  If not, those that it has
got are freed again. -/
def alloc3Desc : Code Bool := do
  if !(← ask .descFree) then return false
  if !(← ask .descFree) then do
    freeDesc
    return false
  if !(← ask .descFree) then do
    freeDesc
    freeDesc
    return false
  return true

def freeChain : Code Flow := whileLoop fuel do
    let next ← ask .chained
    freeDesc
    if next then return .next else return .leave

def virtioDiskRw : Code Flow := do
  acquire .vdisk
  let _ ← whileLoop fuel do
    if ← alloc3Desc then return .leave
    sleep .vdisk
    return .next
  let _ ← whileLoop fuel do
    if !(← ask .busy) then return .leave
    sleep .vdisk
    return .next
  let _ ← freeChain fuel
  release .vdisk
  return .return

end Calls

inductive Call where
  | consolewrite (n : BitVec 32)
  | consoleread (n : BitVec 32)
  | pipewrite (n : BitVec 32)
  | piperead (n : BitVec 32)
  | acquiresleep
  | beginOp
  | virtioDiskRw

def Call.code (fuel : ℕ) : Call → Code Flow
  | .consolewrite n => Locking.consolewrite fuel n
  | .consoleread n => Locking.consoleread fuel n
  | .pipewrite n => Locking.pipewrite fuel n
  | .piperead n => Locking.piperead fuel n
  | .acquiresleep => Locking.acquiresleep fuel
  | .beginOp => Locking.beginOp fuel
  | .virtioDiskRw => Locking.virtioDiskRw fuel

/-- The process holds no spinlock. -/
structure Entry (c : Cpu) : Prop where
  noff : c.noff = 0
  held : c.held = []
  running : c.running = true
  asked : c.asked = []
  sleeps : c.sleeps = []
  scheds : c.scheds = []

/-- The state in which the call has ended, and how. -/
def outcome {α : Type} (x : Except (Stop × Cpu) (α × Cpu)) : Option Stop × Cpu :=
  match x with
  | .ok (_, c) => (none, c)
  | .error (e, c) => (some e, c)

/-- The panics of `sched`. -/
def schedPanics : List String :=
  ["sched p->lock", "sched locks", "sched running", "sched interruptible"]

/-- The lock given to `sleep` was always the only one held, `sched` was always entered
with `noff == 1`, and the call has not ended in a panic of `sched`. -/
structure Disciplined (r : Option Stop × Cpu) : Prop where
  sleeps : ∀ x ∈ r.2.sleeps, x.held = [x.lk]
  scheds : ∀ n ∈ r.2.scheds, n = 1
  panics : ∀ msg ∈ schedPanics, r.1 ≠ some (.panic msg)

end OsCa.Locking
