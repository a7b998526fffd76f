import Mathlib.Data.Fintype.Prod
import Mathlib.Data.Fintype.Sum
import OsCa.Kernel.Bio.Model
import OsCa.Kernel.Log.Model
import OsCa.Kernel.Proc.Model

/-!
# The log as a user of the buffer cache

Processes read, change and log blocks between `begin_op` and `end_op`, or only
read them at any time, and the last `end_op` runs `commit()`.  Every access to a
buffer is a step of `OsCa.Bio`, so that steps of other processes may come between
any two of them.  The log stays within its capacity: a `log_write` that fails one
of its tests panics, and is no step.

`log.outstanding` counts the processes between `begin_op` and `end_op`; which
processes they are is left out.  A process never has more than `NBUF` buffers,
because it would have to wait for itself, and waits for one more at most.

The fields `written`, `latest` and `installed` of a state are not in the source:
the blocks of all calls of `log_write` since the last commit, what has last been
stored in the buffer of a block, and the blocks that `install_trans` has written
home.
-/

namespace OsCa.Pins

open Log
open Process (NPROC)
open Bio (NBUF)

/-- The device of the file system and its log. -/
def ROOTDEV : Uint := 1

/-- The buffers of `install_trans`: of a log block, and of its home block.  In
`write_log` they are called `to` and `from`. -/
inductive Reg where
  | lbuf
  | dbuf
  deriving DecidableEq

instance : Fintype Reg where
  elems := {.lbuf, .dbuf}
  complete r := by cases r <;> decide

/-- Callers of the buffer cache: a process for each of its buffers, and
`commit()`. -/
inductive Handle where
  | process (p : Fin NPROC) (k : Fin (NBUF + 1))
  | commit (r : Reg)
  deriving DecidableEq

def Handle.equiv : (Fin NPROC × Fin (NBUF + 1)) ⊕ Reg ≃ Handle where
  toFun := Sum.elim (fun x => .process x.1 x.2) .commit
  invFun
    | .process p k => .inl (p, k)
    | .commit r => .inr r
  left_inv x := by rcases x with ⟨p, k⟩ | r <;> rfl
  right_inv h := by cases h <;> rfl

instance : Fintype Handle := Fintype.ofEquiv _ Handle.equiv

/-! ## The program of `commit()` -/

inductive Instr where
  | bget (r : Reg) (b : Uint)
  | acquiresleep (r : Reg)
  | fill (r : Reg)
  /-- `memmove(dst->data, src->data, BSIZE)` -/
  | memmove (dst src : Reg)
  /-- The stores of `write_head`. -/
  | fillHead (r : Reg)
  | bwrite (r : Reg)
  | bunpin (r : Reg)
  | releasesleep (r : Reg)
  | brelse (r : Reg)
  /-- `log.lh.n = 0` -/
  | clear
  deriving DecidableEq

def bread (r : Reg) (b : Uint) : List Instr := [.bget r b, .acquiresleep r, .fill r]

def brelse (r : Reg) : List Instr := [.releasesleep r, .brelse r]

/-- The number of a block of the log. -/
def logBlock (L : LogArea) (tail : ℕ) : Uint := BitVec.ofNat 32 (L.start + tail + 1)

/-- `write_log` from round `tail` on. -/
def writeLog (L : LogArea) : ℕ → List Uint → List Instr
  | _, [] => []
  | tail, b :: lh =>
    bread .lbuf (logBlock L tail) ++ bread .dbuf b ++
      [.memmove .lbuf .dbuf, .bwrite .lbuf] ++ brelse .dbuf ++ brelse .lbuf ++
      writeLog L (tail + 1) lh

/-- `install_trans(0)` from round `tail` on. -/
def installTrans (L : LogArea) : ℕ → List Uint → List Instr
  | _, [] => []
  | tail, b :: lh =>
    bread .lbuf (logBlock L tail) ++ bread .dbuf b ++
      [.memmove .dbuf .lbuf, .bwrite .dbuf, .bunpin .dbuf] ++ brelse .lbuf ++
      brelse .dbuf ++ installTrans L (tail + 1) lh

def writeHead (L : LogArea) : List Instr :=
  bread .lbuf (BitVec.ofNat 32 L.start) ++ [.fillHead .lbuf, .bwrite .lbuf] ++ brelse .lbuf

/-- `commit()` for the blocks `lh`.  Nothing changes the header until `commit()`
does, so its loops are unrolled. -/
def commit (L : LogArea) (lh : List Uint) : List Instr := if 0 < lh.length then
    writeLog L 0 lh ++ (writeHead L ++ (installTrans L 0 lh ++ (.clear :: writeHead L)))
  else
    []

/-! ## States and steps -/

structure State where
  bio : Bio.State Handle
  /-- `log.lh.block[0]`, ..., `log.lh.block[log.lh.n - 1]` -/
  lh : List Uint
  outstanding : ℕ
  committing : Bool
  /-- What is left of `commit()`. -/
  rest : List Instr
  written : List Uint
  latest : Uint → Block
  installed : List Uint

/-- What a process does with a buffer, apart from `log_write`. -/
inductive Use where
  | bget (b : Uint)
  | acquiresleep
  | fill
  | store (data : Block)
  | releasesleep
  | brelse

inductive Event where
  | beginOp
  | use (p : Fin NPROC) (k : Fin (NBUF + 1)) (u : Use)
  | logWrite (p : Fin NPROC) (k : Fin (NBUF + 1))
  | endOp
  /-- The next instruction of `commit()`. -/
  | commit
  /-- The rest of `end_op` after `commit()`. -/
  | finish

namespace State

/-- A step of the buffer cache. -/
def cacheStep (s : State) (e : Bio.Event Handle) : Option State :=
  (Bio.step s.bio e).map fun bio => { s with bio := bio }

/-- A store to the data of a buffer. -/
def store (s : State) (h : Handle) (data : Block) : Option State :=
  match s.bio.phase h with
  | .holding i =>
    ({ s with latest :=
      Function.update s.latest (s.bio.cache.buf i).blockno data }).cacheStep (.store h data)
  | _ => none

def use (s : State) (h : Handle) : Use → Option State
  | .bget b => s.cacheStep (.bget h ROOTDEV b)
  | .acquiresleep => s.cacheStep (.acquiresleep h)
  | .fill => s.cacheStep (.fill h)
  | .store data => s.store h data
  | .releasesleep => s.cacheStep (.releasesleep h)
  | .brelse => s.cacheStep (.brelse h)

/-- One instruction of `commit()`. -/
def exec (s : State) : Instr → Option State
  | .bget r b => s.use (.commit r) (.bget b)
  | .acquiresleep r => s.use (.commit r) .acquiresleep
  | .fill r => s.use (.commit r) .fill
  | .memmove dst src =>
    match s.bio.phase (.commit src) with
    | .holding i => s.store (.commit dst) (s.bio.cache.buf i).data
    | _ => none
  | .fillHead r =>
    match s.bio.phase (.commit r) with
    | .holding i => s.store (.commit r) (encodeHead (s.bio.cache.buf i).data s.lh)
    | _ => none
  | .bwrite r =>
    match s.bio.phase (.commit r) with
    | .holding i =>
      ({ s with installed := if r = Reg.dbuf then (s.bio.cache.buf i).blockno :: s.installed
        else s.installed }).cacheStep (.bwrite (.commit r))
    | _ => none
  | .bunpin r => s.cacheStep (.bunpin (.commit r))
  | .releasesleep r => s.use (.commit r) .releasesleep
  | .brelse r => s.use (.commit r) .brelse
  | .clear => some { s with lh := [], written := [] }

/-- `log_write` of buffer `i`.  A block that is in the header already is
absorbed. -/
def logWrite (L : LogArea) (s : State) (i : Fin NBUF) : Option State :=
  if s.lh.length ≥ LOGSIZE ∨ s.lh.length ≥ L.size - 1 then
    none
  else if s.outstanding < 1 then
    none
  else
    let b := (s.bio.cache.buf i).blockno
    let s := { s with
      written := s.written ++ [b]
      latest := Function.update s.latest b (s.bio.cache.buf i).data }
    if b ∈ s.lh then
      some s
    else
      ({ s with lh := s.lh ++ [b] }).cacheStep (.bpin i)

end State

def step (L : LogArea) (s : State) : Event → Option State
  | .beginOp =>
    if s.committing then
      none
    else if s.lh.length + (s.outstanding + 1) * MAXOPBLOCKS > LOGSIZE then
      none
    else
      some { s with outstanding := s.outstanding + 1 }
  | .use p k u => s.use (.process p k) u
  | .logWrite p k =>
    match s.bio.phase (.process p k) with
    | .holding i => s.logWrite L i
    | _ => none
  | .endOp =>
    if s.outstanding < 1 ∨ s.committing then
      none
    else if s.outstanding = 1 then
      some { s with
        outstanding := 0
        committing := true
        rest := commit L s.lh
        installed := [] }
    else
      some { s with outstanding := s.outstanding - 1 }
  | .commit =>
    match s.rest with
    | [] => none
    | ins :: rest => (s.exec ins).map fun s => { s with rest := rest }
  | .finish =>
    if s.committing ∧ s.rest = [] then
      some { s with committing := false }
    else
      none

/-- After recovery: the log is empty, and nobody has a buffer. -/
structure Start (s : State) : Prop where
  cache : (Bio.system Handle).Reachable s.bio
  outside : ∀ h, s.bio.phase h = .outside
  pins : ∀ i, s.bio.pins i = 0
  lh : s.lh = []
  outstanding : s.outstanding = 0
  committing : s.committing = false
  rest : s.rest = []
  written : s.written = []

def system (L : LogArea) : EventSystem State Event where
  init := Start
  step := step L

end OsCa.Pins
