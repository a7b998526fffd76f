import Mathlib.Data.Fintype.Basic
import Mathlib.Tactic.FinCases
import OsCa.Support.EventSystem
import OsCa.Support.Ring

/-!
# The user-level threads library

This module embeds `user/threads.c` together with `user/setjmp.S`.  Threads
are records in memory, reached through pointers; the ready threads form a
circular doubly linked list with `current_thread` as its head.  A context
switch is a `longjmp` to a buffer that some `setjmp` filled: the routines are
given by their lists of stores and loads.

A run of the whole program alternates between code outside the library (main,
or the current thread's function) and library code.  Calls of the library are
events.  `setjmp` and `longjmp` both end in `ret`, so both leave the machine
at an address in `pc`; the event `proceed` continues from there with the code
that follows the call of `setjmp` at that address.
-/

namespace OsCa.Threads

abbrev Word := BitVec 64

def NULL : Word := 0

/-! ## `setjmp` and `longjmp` -/

/-- `struct jmp_buf_data`: `s_regs[12]`, `ra`, `sp`. -/
abbrev JmpBuf := Fin 14 → Word

/-- The registers that survive a call, as a program sees them. -/
@[ext]
structure Context where
  s : Fin 12 → Word
  ra : Word
  sp : Word

structure Regs extends Context where
  a0 : Word
  pc : Word

inductive Reg where
  | s (i : Fin 12)
  | ra
  | sp

def Regs.get (r : Regs) : Reg → Word
  | .s i => r.s i
  | .ra => r.ra
  | .sp => r.sp

def Regs.set (r : Regs) (v : Word) : Reg → Regs
  | .s i => { r with s := Function.update r.s i v }
  | .ra => { r with ra := v }
  | .sp => { r with sp := v }

/-- The instructions `STORE_IDX(reg, idx)` of `setjmp`. -/
def setjmpStores : List (Reg × Fin 14) :=
  [(.s 0, 0), (.s 1, 1), (.s 2, 2), (.s 3, 3), (.s 4, 4), (.s 5, 5),
    (.s 6, 6), (.s 7, 7), (.s 8, 8), (.s 9, 9), (.s 10, 10), (.s 11, 11),
    (.ra, 12), (.sp, 13)]

/-- The instructions `LOAD_IDX(reg, idx)` of `longjmp`. -/
def longjmpLoads : List (Reg × Fin 14) :=
  [(.s 0, 0), (.s 1, 1), (.s 2, 2), (.s 3, 3), (.s 4, 4), (.s 5, 5),
    (.s 6, 6), (.s 7, 7), (.s 8, 8), (.s 9, 9), (.s 10, 10), (.s 11, 11),
    (.ra, 12), (.sp, 13)]

def setjmp (buf : JmpBuf) (r : Regs) : JmpBuf × Regs :=
  (setjmpStores.foldl (fun b st => Function.update b st.2 (r.get st.1)) buf,
    { r with a0 := 0, pc := r.ra })

def longjmp (buf : JmpBuf) (ret : Word) (r : Regs) : Regs :=
  let r := longjmpLoads.foldl (fun r ld => r.set (buf ld.2) ld.1) r
  { r with a0 := if ret = 0 then 1 else ret, pc := r.ra }

/-- The fields of a buffer: `env->s_regs`, `env->ra` and `env->sp`. -/
def JmpBuf.context (buf : JmpBuf) : Context where
  s i := buf (i.castLE (by decide))
  ra := buf 12
  sp := buf 13

/-- The assignment `env->sp = sp`. -/
def JmpBuf.setSp (buf : JmpBuf) (sp : Word) : JmpBuf := Function.update buf 13 sp

/-! ## Memory -/

/-- `struct thread`.  `tag` is not in the source: it numbers the threads in the order of their
creation, also when `ID`, which is an `int`, has wrapped. -/
structure Thread where
  fp : Word
  arg : Word
  stack : Word
  stackP : Word
  env : JmpBuf
  ID : BitVec 32
  tag : ℕ
  bufSet : ℤ
  previous : Word
  next : Word

inductive BlockKind where
  | struct
  | stack
  deriving DecidableEq, Repr

/-- A block handed out by `malloc`: thread `thread`'s structure or stack. -/
structure Blk where
  thread : ℕ
  kind : BlockKind
  deriving DecidableEq, Repr

/-- The variables of the library and the memory it uses.  `heap` records which
addresses `malloc` has handed out and not got back, `freed` the blocks given
to `free`, `badFrees` counts calls of `free` on an address that is not
allocated, and `tags` is the tag of the next thread. -/
structure Lib where
  mem : Word → Thread
  currentThread : Word
  id : BitVec 32
  tags : ℕ
  heap : Word → Option Blk
  freed : List Blk
  badFrees : ℕ

namespace Lib

def modify (L : Lib) (p : Word) (f : Thread → Thread) : Lib :=
  { L with mem := Function.update L.mem p (f (L.mem p)) }

/-- `malloc` returning `p`.  The contents of the block are whatever they
were. -/
def malloc (L : Lib) (p : Word) (b : Blk) : Lib :=
  { L with heap := Function.update L.heap p (some b) }

def free (L : Lib) (p : Word) : Lib :=
  match L.heap p with
  | some b =>
    { L with heap := Function.update L.heap p none, freed := L.freed ++ [b] }
  | none => { L with badFrees := L.badFrees + 1 }

/-- `thread_create`, where the two calls of `malloc` return `t` and
`newStack`. -/
def threadCreate (L : Lib) (f arg t newStack : Word) : Lib := let L := L.malloc t ⟨L.tags, .struct⟩
  let L := L.malloc newStack ⟨L.tags, .stack⟩
  let newStackP := newStack + 0x100 * 8 - 0x2 * 8
  let L := L.modify t fun th =>
    { th with
      fp := f, arg := arg, ID := L.id, tag := L.tags, bufSet := 0,
      stack := newStack, stackP := newStackP }
  { L with id := L.id + 1, tags := L.tags + 1 }

def threadAddRunqueue (L : Lib) (t : Word) : Lib := if L.currentThread = NULL then
    let L := { L with currentThread := t }
    let L := L.modify L.currentThread fun th => { th with previous := t }
    L.modify L.currentThread fun th => { th with next := t }
  else
    let L := L.modify (L.mem L.currentThread).previous fun th =>
      { th with next := t }
    let L := L.modify t fun th =>
      { th with previous := (L.mem L.currentThread).previous }
    let L := L.modify L.currentThread fun th => { th with previous := t }
    L.modify t fun th => { th with next := L.currentThread }

def schedule (L : Lib) : Lib :=
  { L with currentThread := (L.mem L.currentThread).next }

/-- `thread_exit` up to the final call of `dispatch` or `longjmp`. -/
def threadExit (L : Lib) : Lib := let current := L.currentThread
  if (L.mem current).next ≠ current then
    let L := L.free (L.mem current).stack
    let L := L.modify (L.mem current).next fun th =>
      { th with previous := (L.mem current).previous }
    let L := L.modify (L.mem current).previous fun th =>
      { th with next := (L.mem current).next }
    let nextThread := (L.mem current).next
    let L := L.free current
    { L with currentThread := nextThread }
  else
    let L := L.free (L.mem current).stack
    let L := L.free current
    { L with currentThread := NULL }

end Lib

/-! ## The machine -/

/-- The return addresses of the three calls of `setjmp`. -/
structure Code where
  yieldRet : Word
  dispatchRet : Word
  startRet : Word
  yield_ne_dispatch : yieldRet ≠ dispatchRet
  yield_ne_start : yieldRet ≠ startRet
  dispatch_ne_start : dispatchRet ≠ startRet

inductive Mode where
  | main
  | thread
  /-- Just returned from `setjmp` or `longjmp`, to the address in `pc`. -/
  | returning
  deriving DecidableEq, Repr

/-- What the library does, as it is seen from outside.  Threads are named by
their tags. -/
inductive Obs where
  | create (i : ℕ) (f arg stackP : Word)
  | add (i : ℕ)
  | start (saved : Context)
  | yield (i : ℕ) (saved : Context)
  | schedule
  | enter (i : ℕ) (f arg sp : Word)
  | resume (i : ℕ) (regs : Context) (a0 : Word)
  | exit (i : ℕ)
  | finish (regs : Context) (a0 : Word)

/-- `pending` and `trace` are ghost state: the pointers that `thread_create`
returned and that have not been added to the queue, and what has happened. -/
structure State where
  lib : Lib
  envSt : JmpBuf
  regs : Regs
  mode : Mode
  pending : List Word
  trace : List Obs

namespace State

def current (s : State) : Thread := s.lib.mem s.lib.currentThread

def observe (s : State) (o : Obs) : State :=
  { s with trace := s.trace ++ [o] }

/-- A call `setjmp(current_thread->env)`. -/
def setjmpCurrent (s : State) (c : Context) : State :=
  let r := setjmp s.current.env { s.regs with toContext := c }
  { s with
    lib := s.lib.modify s.lib.currentThread fun th => { th with env := r.1 }
    regs := r.2
    mode := .returning }

/-- A call `longjmp(current_thread->env, 1)`. -/
def longjmpCurrent (s : State) : State :=
  { s with regs := longjmp s.current.env 1 s.regs, mode := .returning }

/-- `dispatch`.  If the thread has not run before, this is the part up to the
call of `setjmp`; there `s0`-`s11` and `sp` hold whatever the code in front
of the call put into them. -/
def dispatch (code : Code) (frame : (Fin 12 → Word) × Word) (s : State) :
    State :=
  if s.current.bufSet = 0 then
    s.setjmpCurrent ⟨frame.1, code.dispatchRet, frame.2⟩
  else
    s.longjmpCurrent

def schedule (s : State) : State :=
  { s with lib := s.lib.schedule }.observe .schedule

/-- The code after the call of `setjmp` that returns to `pc`. -/
def proceed (code : Code) (frame : (Fin 12 → Word) × Word) (s : State) : Option State :=
  if s.regs.pc = code.yieldRet then
    if s.regs.a0 ≠ 0 then
      some ({ s with mode := .thread }.observe (.resume s.current.tag s.regs.toContext s.regs.a0))
    else
      some (s.schedule.dispatch code frame)
  else if s.regs.pc = code.dispatchRet then
    if s.regs.a0 ≠ 0 then
      some ({ s with mode := .thread }.observe
        (.enter s.current.tag s.current.fp s.current.arg s.regs.sp))
    else
      let L := s.lib.modify s.lib.currentThread fun th =>
        { th with env := th.env.setSp th.stackP }
      let L := L.modify L.currentThread fun th => { th with bufSet := 1 }
      some { s with lib := L }.longjmpCurrent
  else if s.regs.pc = code.startRet then
    if s.regs.a0 ≠ 0 then
      some ({ s with mode := .main }.observe (.finish s.regs.toContext s.regs.a0))
    else
      some (s.schedule.dispatch code frame)
  else
    none

def threadCreate (f arg t newStack : Word) (s : State) : State :=
  let L := s.lib.threadCreate f arg t newStack
  { s with lib := L, pending := s.pending ++ [t] }.observe
    (.create (L.mem t).tag f arg (L.mem t).stackP)

def threadAddRunqueue (t : Word) (s : State) : State :=
  { s with
    lib := s.lib.threadAddRunqueue t
    pending := s.pending.erase t }.observe (.add (s.lib.mem t).tag)

def threadYield (code : Code) (frame : (Fin 12 → Word) × Word) (s : State) :
    State :=
  (s.setjmpCurrent ⟨frame.1, code.yieldRet, frame.2⟩).observe
    (.yield s.current.tag ⟨frame.1, code.yieldRet, frame.2⟩)

/-- `thread_exit`, called by the thread or by `dispatch` after the thread's
function has returned. -/
def threadExit (code : Code) (frame : (Fin 12 → Word) × Word) (s : State) :
    State :=
  let s' := { s with lib := s.lib.threadExit }.observe (.exit s.current.tag)
  if s.current.next ≠ s.lib.currentThread then
    s'.dispatch code frame
  else
    { s' with regs := longjmp s.envSt 1 s.regs, mode := .returning }

def threadStartThreading (code : Code) (frame : (Fin 12 → Word) × Word) (s : State) : State :=
  let c : Context := ⟨frame.1, code.startRet, frame.2⟩
  let r := setjmp s.envSt { s.regs with toContext := c }
  { s with envSt := r.1, regs := r.2, mode := .returning }.observe (.start c)

end State

/-! ## Runs -/

inductive Event where
  | threadCreate (f arg t newStack : Word)
  | threadAddRunqueue (t : Word)
  | threadStartThreading (frame : (Fin 12 → Word) × Word)
  | threadYield (frame : (Fin 12 → Word) × Word)
  | threadExit (frame : (Fin 12 → Word) × Word)
  | proceed (frame : (Fin 12 → Word) × Word)

/-- The contract of `malloc`: both addresses are new. -/
def Lib.MallocOk (L : Lib) (t newStack : Word) : Prop :=
  t ≠ NULL ∧ newStack ≠ NULL ∧ t ≠ newStack ∧ L.heap t = none ∧ L.heap newStack = none

instance (L : Lib) (t newStack : Word) : Decidable (L.MallocOk t newStack) := by
  unfold Lib.MallocOk
  infer_instance

/-- Main creates and adds threads and starts the library once some thread has
been added; a running thread creates, adds, yields and exits.  A thread is
added at most once. -/
def step (code : Code) (s : State) : Event → Option State
  | .threadCreate f arg t newStack =>
    if s.mode ≠ .returning ∧ s.lib.MallocOk t newStack then
      some (s.threadCreate f arg t newStack)
    else none
  | .threadAddRunqueue t =>
    if s.mode ≠ .returning ∧ t ∈ s.pending then
      some (s.threadAddRunqueue t)
    else none
  | .threadStartThreading frame =>
    if s.mode = .main ∧ s.lib.currentThread ≠ NULL then
      some (s.threadStartThreading code frame)
    else none
  | .threadYield frame => if s.mode = .thread then some (s.threadYield code frame) else none
  | .threadExit frame => if s.mode = .thread then some (s.threadExit code frame) else none
  | .proceed frame => if s.mode = .returning then s.proceed code frame else none

/-- The library's variables as the loader sets them; memory and registers are
arbitrary. -/
def startState (mem : Word → Thread) (regs : Regs) (envSt : JmpBuf) : State where
  lib :=
    { mem := mem, currentThread := NULL, id := 1, tags := 1, heap := fun _ => none,
      freed := [], badFrees := 0 }
  envSt := envSt
  regs := regs
  mode := .main
  pending := []
  trace := []

def system (code : Code) : EventSystem State Event where
  init s := ∃ mem regs envSt, s = startState mem regs envSt
  step := step code

/-! ## Saving and restoring a context -/

@[simp]
theorem setjmp_context (buf : JmpBuf) (r : Regs) : (setjmp buf r).1.context = r.toContext := by
  refine Context.ext (funext fun i => ?_) rfl rfl
  fin_cases i <;> rfl

@[simp]
theorem setjmp_regs (buf : JmpBuf) (r : Regs) : (setjmp buf r).2 = { r with a0 := 0, pc := r.ra } :=
  rfl

/-- After `setjmp(current_thread->env)` the buffer holds the context of the
caller. -/
theorem State.setjmpCurrent_spec (s : State) (c : Context) :
    ∃ buf : JmpBuf, buf.context = c ∧ s.setjmpCurrent c =
        { s with
          lib := s.lib.modify s.lib.currentThread fun th =>
            { th with env := buf }
          regs := { toContext := c, a0 := 0, pc := c.ra }
          mode := .returning } :=
  ⟨_, setjmp_context _ _, rfl⟩

theorem longjmp_context (buf : JmpBuf) (ret : Word) (r : Regs) :
    (longjmp buf ret r).toContext = buf.context := by
  refine Context.ext (funext fun i => ?_) rfl rfl
  fin_cases i <;> rfl

theorem longjmp_pc (buf : JmpBuf) (ret : Word) (r : Regs) :
    (longjmp buf ret r).pc = buf.context.ra :=
  rfl

theorem JmpBuf.context_setSp (buf : JmpBuf) (sp : Word) :
    (buf.setSp sp).context = { buf.context with sp := sp } := by
  refine Context.ext (funext fun i => ?_) rfl rfl
  fin_cases i <;> rfl

end OsCa.Threads
