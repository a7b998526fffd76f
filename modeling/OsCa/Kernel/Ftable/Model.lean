import OsCa.Support.Counting
import OsCa.Kernel.Sysfile.Model

/-!
# The table of open files

This module embeds `kernel/file.c`, the calls `open`, `dup`, `close` and `pipe` of
`kernel/sysfile.c`, and what `fork` and `exit` of `kernel/proc.c` do with open files.
Processes run interleaved.  One step is what a process does under one acquisition of
`ftable.lock`, with its accesses to its own `ofile`, which no other process reads.

What lies outside the table is an answer in the event: whether `open` finds an inode,
whether `kalloc` has a page and `copyout` a good address, and which slot `allocproc`
finds.  `exec` does not touch open files.

Every inode reference that `open` gets, and every end of a pipe, has a number: the
count `opened` at that time.  `released` lists the numbers in the order in which `iput`
and `pipeclose` were called for them.
-/

namespace OsCa.Ftable

open Sysfile (NFILE NOFILE NPROC O_WRONLY O_RDWR)

inductive FdType where
  | none
  | pipe
  | inode
  | device
  deriving DecidableEq

/-- `struct file`, with the number of its inode reference or pipe end. -/
structure File where
  ref : ℕ
  type : FdType
  writable : Bool
  no : ℕ

/-- What a process has still to do before the present call goes on. -/
inductive Job where
  | fileclose (f : Fin NFILE)
  | pipeclose (writable : Bool) (no : ℕ)
  | iput (no : ℕ)
  deriving DecidableEq

/-- Where a process is. -/
inductive Pc where
  | user
  /-- In `pipealloc`, with `*f0`. -/
  | pipealloc (f0 : Fin NFILE)
  /-- In the loop of `fork`. -/
  | fork (np : Fin NPROC) (i : ℕ)
  /-- In the loop of `exit`. -/
  | exit (fd : ℕ)
  deriving DecidableEq

inductive ProcState where
  | unused
  /-- Allocated by `fork`, which has its lock. -/
  | embryo
  | running
  | zombie
  deriving DecidableEq

structure Proc where
  state : ProcState
  ofile : Fin NOFILE → Option (Fin NFILE)
  pc : Pc
  todo : List Job

structure State where
  file : Fin NFILE → File
  proc : Fin NPROC → Proc
  opened : ℕ
  released : List ℕ
  panic : Option String

def setFile (s : State) (f : Fin NFILE) (x : File) : State :=
  { s with file := Function.update s.file f x }

def setProc (s : State) (p : Fin NPROC) (x : Proc) : State :=
  { s with proc := Function.update s.proc p x }

/-! ## `file.c` -/

/-- The first entry with `ref == 0`. -/
def filealloc (s : State) : Option (Fin NFILE) :=
  (List.finRange NFILE).find? fun f => (s.file f).ref = 0

def filedup (s : State) (f : Fin NFILE) : State :=
  if (s.file f).ref < 1 then { s with panic := some "filedup" }
  else setFile s f { s.file f with ref := (s.file f).ref + 1 }

/-- What `fileclose` does with the copy `ff` of the last reference. -/
def File.close (ff : File) : List Job :=
  match ff.type with
  | .none => []
  | .pipe => [.pipeclose ff.writable ff.no]
  | .inode | .device => [.iput ff.no]

/-- `fileclose` up to the release of `ftable.lock`; the process has the rest to do. -/
def fileclose (s : State) (p : Fin NPROC) (f : Fin NFILE) : State :=
  if (s.file f).ref < 1 then { s with panic := some "fileclose" }
  else if (s.file f).ref - 1 > 0 then
    setFile s f { s.file f with ref := (s.file f).ref - 1 }
  else
    setProc (setFile s f { s.file f with ref := 0, type := .none }) p
      { s.proc p with todo := (s.file f).close ++ (s.proc p).todo }

/-! ## `sysfile.c` -/

/-- The open file of a descriptor. -/
def argfd (pr : Proc) (fd : BitVec 32) : Option (Fin NOFILE × Fin NFILE) :=
  if h : 0 ≤ fd.toInt ∧ fd.toInt.toNat < NOFILE then
    (pr.ofile ⟨fd.toInt.toNat, h.2⟩).map fun f => (⟨fd.toInt.toNat, h.2⟩, f)
  else none

/-- The first free descriptor. -/
def fdalloc (ofile : Fin NOFILE → Option (Fin NFILE)) : Option (Fin NOFILE) :=
  (List.finRange NOFILE).find? fun fd => (ofile fd).isNone

def sysDup (s : State) (p : Fin NPROC) (fd : BitVec 32) : State :=
  match argfd (s.proc p) fd with
  | none => s
  | some (_, f) =>
    match fdalloc (s.proc p).ofile with
    | none => s
    | some fd' =>
      filedup (setProc s p
        { s.proc p with ofile := Function.update (s.proc p).ofile fd' (some f) }) f

def sysClose (s : State) (p : Fin NPROC) (fd : BitVec 32) : State :=
  match argfd (s.proc p) fd with
  | none => s
  | some (fd, f) =>
    fileclose (setProc s p
      { s.proc p with ofile := Function.update (s.proc p).ofile fd none }) p f

/-- `sys_open` from `filealloc` on, with the inode found. -/
def sysOpen (s : State) (p : Fin NPROC) (device : Bool) (omode : BitVec 32) : State :=
  let k := s.opened
  let s := { s with opened := k + 1 }
  match filealloc s with
  | none => setProc s p { s.proc p with todo := [.iput k] }
  | some f =>
    match fdalloc (s.proc p).ofile with
    | none =>
      setProc (setFile s f { s.file f with ref := 1 }) p
        { s.proc p with todo := [.fileclose f, .iput k] }
    | some fd =>
      setProc (setFile s f
        { ref := 1
          type := if device then .device else .inode
          writable := decide (omode &&& O_WRONLY ≠ 0 ∨ omode &&& O_RDWR ≠ 0)
          no := k }) p
        { s.proc p with ofile := Function.update (s.proc p).ofile fd (some f) }

/-- `pipealloc` up to the first `filealloc`. -/
def sysPipe (s : State) (p : Fin NPROC) : State :=
  match filealloc s with
  | none => s
  | some f =>
    setProc (setFile s f { s.file f with ref := 1 }) p
      { s.proc p with pc := .pipealloc f }

/-- The descriptors of a pipe, if there are two and the user gets them. -/
def pipeFds (ofile : Fin NOFILE → Option (Fin NFILE)) (rf wf : Fin NFILE)
    (copyout : Bool) : Option (Fin NOFILE → Option (Fin NFILE)) :=
  match fdalloc ofile with
  | none => none
  | some fd0 =>
    match fdalloc (Function.update ofile fd0 (some rf)) with
    | none => none
    | some fd1 =>
      if copyout then
        some (Function.update (Function.update ofile fd0 (some rf)) fd1 (some wf))
      else none

/-- The rest of `sys_pipe`.  Where it fails after a `fdalloc`, the descriptor is free
again. -/
def sysPipeRest (s : State) (p : Fin NPROC) (rf : Fin NFILE) (kalloc copyout : Bool) :
    State :=
  match filealloc s with
  | none => setProc s p { s.proc p with pc := .user, todo := [.fileclose rf] }
  | some wf =>
    if kalloc then
      let k := s.opened
      let t := setFile (setFile { s with opened := k + 2 } rf
        { s.file rf with type := .pipe, writable := false, no := k }) wf
        { ref := 1, type := .pipe, writable := true, no := k + 1 }
      match pipeFds (s.proc p).ofile rf wf copyout with
      | none =>
        setProc t p
          { s.proc p with pc := .user, todo := [.fileclose rf, .fileclose wf] }
      | some ofile => setProc t p { s.proc p with pc := .user, ofile := ofile }
    else
      setProc (setFile s wf { s.file wf with ref := 1 }) p
        { s.proc p with pc := .user, todo := [.fileclose rf, .fileclose wf] }

/-! ## `proc.c` -/

/-- `fork`, with the slot that `allocproc` has found, if it and `uvmcopy` succeed. -/
def fork (s : State) (p : Fin NPROC) (np : Option (Fin NPROC)) : Option State :=
  match np with
  | none => some s
  | some np =>
    if (s.proc np).state = .unused then
      some (setProc (setProc s np { s.proc np with state := .embryo }) p
        { s.proc p with pc := .fork np 0 })
    else none

/-- A round of the loop of `fork`, or its end. -/
def forkRound (s : State) (p np : Fin NPROC) (i : ℕ) : State :=
  if h : i < NOFILE then
    let t := setProc s p { s.proc p with pc := .fork np (i + 1) }
    match (s.proc p).ofile ⟨i, h⟩ with
    | none => t
    | some f =>
      filedup (setProc t np
        { s.proc np with ofile := Function.update (s.proc np).ofile ⟨i, h⟩ (some f) }) f
  else
    setProc (setProc s np { s.proc np with state := .running }) p
      { s.proc p with pc := .user }

/-- A round of the loop of `exit`, or its end. -/
def exitRound (s : State) (p : Fin NPROC) (i : ℕ) : State :=
  if h : i < NOFILE then
    match (s.proc p).ofile ⟨i, h⟩ with
    | none => setProc s p { s.proc p with pc := .exit (i + 1) }
    | some f =>
      fileclose (setProc s p
        { s.proc p with
          pc := .exit (i + 1)
          ofile := Function.update (s.proc p).ofile ⟨i, h⟩ none }) p f
  else setProc s p { s.proc p with pc := .user, state := .zombie }

/-! ## Runs -/

inductive Call where
  /-- `open`, with whether the inode is a device, or `none` if the path is bad. -/
  | open (found : Option Bool) (omode : BitVec 32)
  | dup (fd : BitVec 32)
  | close (fd : BitVec 32)
  | pipe
  | fork (np : Option (Fin NPROC))
  | exec
  | exit
  /-- `wait`, in which `freeproc` frees the slot of a zombie. -/
  | wait (child : Fin NPROC)

inductive Event where
  | call (c : Call)
  /-- The present call goes on. -/
  | go (kalloc copyout : Bool)

theorem nproc_pos : 0 < NPROC := by decide

/-- `init`, which does not exit. -/
def initproc : Fin NPROC := ⟨0, nproc_pos⟩

def Call.start (s : State) (p : Fin NPROC) : Call → Option State
  | .open none _ => some s
  | .open (some device) omode => some (sysOpen s p device omode)
  | .dup fd => some (sysDup s p fd)
  | .close fd => some (sysClose s p fd)
  | .pipe => some (sysPipe s p)
  | .fork np => Ftable.fork s p np
  | .exec => some s
  | .exit =>
    if p = initproc then none
    else some (setProc s p { s.proc p with pc := .exit 0 })
  | .wait child =>
    if (s.proc child).state = .zombie then
      some (setProc s child { s.proc child with state := .unused })
    else none

def Job.run (s : State) (p : Fin NPROC) : Job → State
  | .fileclose f => Ftable.fileclose s p f
  | .pipeclose _ no | .iput no => { s with released := s.released ++ [no] }

/-- A process that is not waiting for a `Job` goes on from its place. -/
def resume (s : State) (p : Fin NPROC) (kalloc copyout : Bool) : Pc → Option State
  | .user => none
  | .pipealloc f0 => some (sysPipeRest s p f0 kalloc copyout)
  | .fork np i => some (forkRound s p np i)
  | .exit i => some (exitRound s p i)

def step (s : State) (e : Fin NPROC × Event) : Option State := let pr := s.proc e.1
  if s.panic.isSome ∨ pr.state ≠ .running then none
  else
    match e.2, pr.todo with
    | .go _ _, job :: rest => some (job.run (setProc s e.1 { pr with todo := rest }) e.1)
    | .go kalloc copyout, [] => resume s e.1 kalloc copyout pr.pc
    | .call c, [] => if pr.pc = .user then c.start s e.1 else none
    | .call _, _ :: _ => none

def idle (state : ProcState) : Proc where
  state := state
  ofile := fun _ => none
  pc := .user
  todo := []

def boot : State where
  file := fun _ => ⟨0, .none, false, 0⟩
  proc := fun p => idle (if p = initproc then .running else .unused)
  opened := 0
  released := []
  panic := none

def system : EventSystem State (Fin NPROC × Event) where
  init := fun s => s = boot
  step := step

/-! ## Accounts -/

/-- The descriptors of a process that refer to `f`. -/
def Proc.slots (pr : Proc) (f : Fin NFILE) : ℕ :=
  (Finset.univ.filter fun fd => pr.ofile fd = some f).card

def Pc.refs (f : Fin NFILE) : Pc → ℕ
  | .pipealloc f0 => if f0 = f then 1 else 0
  | _ => 0

/-- The references to `f` that a process has, in descriptors or inside a call. -/
def Proc.refs (pr : Proc) (f : Fin NFILE) : ℕ :=
  pr.slots f + pr.pc.refs f + pr.todo.count (.fileclose f)

def Job.releases (k : ℕ) : Job → Bool
  | .fileclose _ => false
  | .pipeclose _ no | .iput no => no = k

/-- How often a process is about to release `k`. -/
def Proc.puts (pr : Proc) (k : ℕ) : ℕ := pr.todo.countP (Job.releases k)

/-- The entry stands for the inode reference or pipe end `k`. -/
def File.Has (x : File) (k : ℕ) : Prop := x.type ≠ .none ∧ x.no = k

instance (x : File) (k : ℕ) : Decidable (x.Has k) := inferInstanceAs (Decidable (_ ∧ _))

/-- No call is in progress. -/
def State.Quiet (s : State) : Prop := ∀ p, (s.proc p).pc = .user ∧ (s.proc p).todo = []

/-- The descriptors of all processes that refer to `f`. -/
def State.slots (s : State) (f : Fin NFILE) : ℕ := ∑ p, (s.proc p).slots f

end OsCa.Ftable
