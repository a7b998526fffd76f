import OsCa.User.Shell.Model
import OsCa.Support.EventSystem

/-!
# Running a command

This module embeds `runcmd` of `user/sh.c` with the descriptor tables that `pipe`,
`dup`, `close`, `open` and `fork` of the kernel work on.  There are any number of
processes, and an event lets one of them make its next system call.

`node` is the path of a process in the tree of the command: it stands for the
pointer that `runcmd` was called with.  Calls of `fork` succeed, and calls of `pipe`
and `dup` fail only if the table of the process is full.  A program that has been
executed only exits.
-/

namespace OsCa.Shell

open Function

/-- The number of descriptors of a process. -/
def NOFILE : ℕ := 16

inductive File (α : Type) where
  /-- What the shell has open as `fd`. -/
  | shell (fd : ℕ)
  | readEnd (pipe : ℕ)
  | writeEnd (pipe : ℕ)
  | opened (name : α) (mode : BitVec 32)
  deriving DecidableEq

abbrev Fds (α : Type) := ℕ → Option (File α)

inductive Call (α : Type) where
  | close (fd : ℕ)
  | dup (fd : ℕ)
  | openFile (name : α) (mode : BitVec 32)

/-- What a process does after its calls. -/
inductive Next (α : Type) where
  | run (cmd : Cmd α)
  /-- The first `fork1` for a pipe, with `p[0]` and `p[1]`. -/
  | forkLeft (left right : Cmd α) (p₀ p₁ : ℕ)
  | forkRight (right : Cmd α) (p₀ p₁ : ℕ)
  /-- `k` calls of `wait`, and then another command or `exit`. -/
  | wait (k : ℕ) (after : Option (Cmd α))
  | running (argv : List α)
  | zombie

structure Proc (α : Type) where
  parent : Option ℕ
  node : List Bool
  calls : List (Call α)
  next : Next α
  fds : Fds α

structure State (α : Type) where
  procs : ℕ → Option (Proc α)
  /-- The number of processes, and of pipes, that there have been. -/
  nproc : ℕ
  npipe : ℕ

inductive Event where
  /-- A system call.  `ok` says whether `open` or `exec` succeeds. -/
  | step (p : ℕ) (ok : Bool)
  /-- `wait` finds the child `q`. -/
  | reap (p q : ℕ)
  /-- A program exits. -/
  | exit (p : ℕ)

variable {α : Type}

/-- The file gets the lowest free descriptor. -/
def fdalloc (fds : Fds α) (f : File α) : Option (ℕ × Fds α) :=
  ((List.range NOFILE).find? fun fd => (fds fd).isNone).map fun fd => (fd, update fds fd (some f))

def close (fds : Fds α) (fd : ℕ) : Fds α := update fds fd none

def dup (fds : Fds α) (fd : ℕ) : Fds α :=
  match fds fd with
  | none => fds
  | some f => ((fdalloc fds f).map Prod.snd).getD fds

/-- `pipe(p)` for the pipe number `k`. -/
def pipe (fds : Fds α) (k : ℕ) : Option (ℕ × ℕ × Fds α) := do
  let (p₀, fds) ← fdalloc fds (.readEnd k)
  let (p₁, fds) ← fdalloc fds (.writeEnd k)
  some (p₀, p₁, fds)

namespace Proc

def exit (pr : Proc α) : Proc α :=
  { pr with calls := [], next := .zombie, fds := fun _ => none }

/-- A child that makes the calls and then runs the command. -/
def child (pr : Proc α) (p : ℕ) (right : Bool) (calls : List (Call α)) (cmd : Cmd α) : Proc α :=
  { parent := some p, node := pr.node ++ [right], calls := calls, next := .run cmd, fds := pr.fds }

/-- The first of the calls. -/
def call (pr : Proc α) (ok : Bool) (c : Call α) (rest : List (Call α)) : Proc α :=
  match c with
  | .close fd => { pr with calls := rest, fds := close pr.fds fd }
  | .dup fd => { pr with calls := rest, fds := dup pr.fds fd }
  | .openFile name mode =>
    match ok, fdalloc pr.fds (.opened name mode) with
    | true, some (_, fds) => { pr with calls := rest, fds := fds }
    | _, _ => pr.exit

end Proc

namespace State

def set (s : State α) (p : ℕ) (pr : Proc α) : State α :=
  { s with procs := update s.procs p (some pr) }

/-- The process forks. -/
def fork (s : State α) (p : ℕ) (pr child : Proc α) : State α :=
  { s with
    procs := update (update s.procs p (some pr)) s.nproc (some child)
    nproc := s.nproc + 1 }

/-- `runcmd`. -/
def runcmd (s : State α) (p : ℕ) (pr : Proc α) (ok : Bool) : Cmd α → State α
  | .exec argv =>
    match argv, ok with
    | [], _ | _, false => s.set p pr.exit
    | argv, true => s.set p { pr with next := .running argv }
  | .redir cmd file mode fd =>
    s.set p { pr with
      node := pr.node ++ [false]
      calls := [.close fd, .openFile file mode]
      next := .run cmd }
  | .pipe left right =>
    match pipe pr.fds s.npipe with
    | none => s.set p pr.exit
    | some (p₀, p₁, fds) =>
      { s.set p { pr with next := .forkLeft left right p₀ p₁, fds := fds } with
        npipe := s.npipe + 1 }
  | .list left right => s.fork p { pr with next := .wait 1 (some right) } (pr.child p false [] left)
  | .back cmd => s.fork p pr.exit (pr.child p false [] cmd)

/-- What comes after the calls. -/
def proceed (s : State α) (p : ℕ) (pr : Proc α) (ok : Bool) : Option (State α) :=
  match pr.next with
  | .run cmd => some (s.runcmd p pr ok cmd)
  | .forkLeft left right p₀ p₁ =>
    some (s.fork p { pr with next := .forkRight right p₀ p₁ }
      (pr.child p false [.close 1, .dup p₁, .close p₀, .close p₁] left))
  | .forkRight right p₀ p₁ =>
    some (s.fork p { pr with calls := [.close p₀, .close p₁], next := .wait 2 none }
      (pr.child p true [.close 0, .dup p₀, .close p₀, .close p₁] right))
  | .wait 0 none => some (s.set p pr.exit)
  | .wait 0 (some cmd) => some (s.set p { pr with node := pr.node ++ [true], next := .run cmd })
  | .wait (k + 1) after =>
    -- Without a child, `wait` returns at once.
    if (List.range s.nproc).all fun q => (s.procs q).all fun c => decide (c.parent ≠ some p) then
      some (s.set p { pr with next := .wait k after })
    else none
  | .running _ | .zombie => none

end State

def step (s : State α) : Event → Option (State α)
  | .step p ok =>
    match s.procs p with
    | none => none
    | some pr =>
      match pr.calls with
      | [] => s.proceed p pr ok
      | c :: rest => some (s.set p (pr.call ok c rest))
  | .reap p q =>
    match s.procs p, s.procs q with
    | some pr, some c =>
      match pr.calls, pr.next, c.next with
      | [], .wait (k + 1) after, .zombie =>
        if c.parent = some p then
          some { s with
            procs := update (update s.procs p (some { pr with next := .wait k after })) q none }
        else none
      | _, _, _ => none
    | _, _ => none
  | .exit p =>
    match s.procs p with
    | none => none
    | some pr =>
      match pr.next with
      | .running _ => some (s.set p pr.exit)
      | _ => none

/-- The descriptors of a process that the shell has forked. -/
def shellFds (α : Type) : Fds α := fun fd => if fd < 3 then some (.shell fd) else none

/-- One process, which is about to run the command. -/
def start (cmd : Cmd α) : State α where
  procs p := if p = 0 then some ⟨none, [], [], .run cmd, shellFds α⟩ else none
  nproc := 1
  npipe := 0

def system (cmd : Cmd α) : EventSystem (State α) Event where
  init s := s = start cmd
  step := step

/-- `c1 | c2 | ... | cn`. -/
def pipeline : List (List α) → Cmd α
  | [] => .exec []
  | [argv] => .exec argv
  | argv :: rest => .pipe (.exec argv) (pipeline rest)

end OsCa.Shell
