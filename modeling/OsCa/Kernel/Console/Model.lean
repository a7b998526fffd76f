import OsCa.Kernel.Params
import OsCa.Support.EventSystem
import OsCa.Support.RingBuffer

/-!
# The console

This module embeds `consoleread` and `consoleintr` of `kernel/console.c`.  Both do
all their work with `cons.lock` held, and `consoleread` gives the lock up only in
`sleep`, so what a process does between two sleeps is one event.  Every process
that sleeps here sleeps on `&cons.r`.

Where `either_copyout` can write is given with the call.  What a call has copied
out and its return value are recorded in `delivered`.  The echo of `consputc` is
left out.
-/

namespace OsCa.Console

open Bytes

def INPUT_BUF : ℕ := 128

instance : NeZero INPUT_BUF := ⟨by decide⟩

/-- Control-x. -/
def C (x : Char) : Byte := BitVec.ofNat 8 (x.toNat - '@'.toNat)

def newline : Byte := 0x0a

def carriageReturn : Byte := 0x0d

def delete : Byte := 0x7f

/-- `cons` without its lock. -/
structure Cons where
  buf : Fin INPUT_BUF → Byte
  /-- Read index. -/
  r : Uint
  /-- Write index. -/
  w : Uint
  /-- Edit index. -/
  e : Uint

/-- The loop for control-U.  It makes at most `cons.e - cons.w` rounds. -/
def killLine : ℕ → Cons → Cons
  | 0, c => c
  | fuel + 1, c =>
    if c.e ≠ c.w ∧ c.buf (Ring.slot INPUT_BUF (c.e - 1)) ≠ newline then
      killLine fuel { c with e := c.e - 1 }
    else c

/-- The `default` case of `consoleintr`, and whether it calls `wakeup`. -/
def store (c : Cons) (ch : Byte) : Cons × Bool :=
  if ch ≠ 0 ∧ c.e - c.r < BitVec.ofNat 32 INPUT_BUF then
    let ch := if ch = carriageReturn then newline else ch
    let c := { c with
      buf := Function.update c.buf (Ring.slot INPUT_BUF c.e) ch
      e := c.e + 1 }
    if ch = newline ∨ ch = C 'D' ∨ c.e = c.r + BitVec.ofNat 32 INPUT_BUF then
      ({ c with w := c.e }, true)
    else (c, false)
  else (c, false)

def consoleintr (c : Cons) (ch : Byte) : Cons × Bool := if ch = C 'P' then (c, false)
  else if ch = C 'U' then (killLine (c.e - c.w).toNat c, false)
  else if ch = C 'H' ∨ ch = delete then
    (if c.e ≠ c.w then { c with e := c.e - 1 } else c, false)
  else store c ch

/-- How a call of `consoleread` goes on. -/
inductive Result where
  /-- It sleeps, and `n` more bytes are wanted. -/
  | asleep (n : ℕ) (got : List Byte)
  | returned (ret : ℤ) (got : List Byte)
  deriving DecidableEq

/-- The loop of `consoleread` up to its next `sleep` or its end.  The bytes `got` have
been copied out. -/
def readLoop (killed : Bool) (dst : ℕ → Bool) (target : ℕ) : ℕ → List Byte → Cons → Cons × Result
  | 0, got, c => (c, .returned target got)
  | n + 1, got, c =>
    if c.r = c.w then
      (c, if killed then .returned (-1) got else .asleep (n + 1) got)
    else
      let ch := c.buf (Ring.slot INPUT_BUF c.r)
      let c := { c with r := c.r + 1 }
      let m : ℤ := target - ((n + 1 : ℕ) : ℤ)
      if ch = C 'D' then
        (if n + 1 < target then { c with r := c.r - 1 } else c, .returned m got)
      else if dst (target - (n + 1)) = false then (c, .returned m got)
      else if ch = newline then (c, .returned (m + 1) (got ++ [ch]))
      else readLoop killed dst target n (got ++ [ch]) c

/-- A call of `consoleread` that sleeps. -/
structure Call where
  dst : ℕ → Bool
  target : ℕ
  n : ℕ
  got : List Byte

/-- What a call has copied out, and its return value. -/
structure Delivery (P : Type) where
  proc : P
  target : ℕ
  bytes : List Byte
  ret : ℤ

structure State (P : Type) where
  cons : Cons
  call : P → Option Call
  sleeping : P → Bool
  killed : P → Bool
  delivered : List (Delivery P)

inductive Event (P : Type) where
  | consoleintr (ch : Byte)
  | consoleread (p : P) (dst : ℕ → Bool) (n : BitVec 32)
  /-- `sleep` returns. -/
  | resume (p : P)
  | kill (p : P)
  /-- The slot of a process that is gone is used again. -/
  | fork (p : P)

variable {P : Type} [DecidableEq P]

/-- The process goes on with its call. -/
def State.proceed (s : State P) (p : P) (k : Call) : State P :=
  match readLoop (s.killed p) k.dst k.target k.n k.got s.cons with
  | (c, .asleep n got) =>
    { s with
      cons := c
      call := Function.update s.call p (some { k with n := n, got := got })
      sleeping := Function.update s.sleeping p true }
  | (c, .returned ret got) =>
    { s with
      cons := c
      call := Function.update s.call p none
      delivered := s.delivered ++ [⟨p, k.target, got, ret⟩] }

def step (s : State P) : Event P → Option (State P)
  | .consoleintr ch =>
    let (c, woken) := consoleintr s.cons ch
    some { s with
      cons := c
      sleeping := if woken then fun _ => false else s.sleeping }
  | .consoleread p dst n =>
    -- A length that is not positive does not enter the loop.
    let target := n.toInt.toNat
    match s.call p with
    | none => some (s.proceed p ⟨dst, target, target, []⟩)
    | some _ => none
  | .resume p =>
    match s.call p with
    | none => none
    | some k => if s.sleeping p then none else some (s.proceed p k)
  | .kill p =>
    some { s with
      killed := Function.update s.killed p true
      sleeping := Function.update s.sleeping p false }
  | .fork p =>
    match s.call p with
    | none => some { s with killed := Function.update s.killed p false }
    | some _ => none

structure Start (s : State P) : Prop where
  r : s.cons.r = 0
  w : s.cons.w = 0
  e : s.cons.e = 0
  call : ∀ p, s.call p = none
  killed : ∀ p, s.killed p = false
  delivered : s.delivered = []

def system (P : Type) [DecidableEq P] : EventSystem (State P) (Event P) where
  init := Start
  step := step

/-- The buffer of a read is valid. -/
def Event.Valid : Event P → Prop
  | .consoleread _ dst _ => ∀ i, dst i = true
  | _ => True

end OsCa.Console
