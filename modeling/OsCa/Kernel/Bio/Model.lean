import Mathlib.Data.Fintype.Card
import OsCa.Kernel.Params
import OsCa.Support.EventSystem
import OsCa.Support.LinkedList

/-!
# The buffer cache of `kernel/bio.c`

The functions of `bio.c`, and callers that use them.  Each critical section of
`bcache.lock` is one step, and so are taking and giving back the sleep-lock of a
buffer, and a transfer between a buffer and the disk.

Callers keep to the interface: a caller gets one buffer at a time, works on it
while it has the sleep-lock, and releases it.  A process that works on several
buffers is several callers.  A pin is taken back by a caller that has the
buffer.

The fields `pins`, `used`, `zeroed` and `clock` of a state are not in the
source.  They count the pins, and remember which buffers `bget` has returned and
when `brelse` has last brought the count of a buffer to zero.
-/

namespace OsCa.Bio

/-- Size of the disk block cache. -/
def NBUF : ℕ := MAXOPBLOCKS * 3

/-! ## The cache -/

/-- A `struct buf *`. -/
inductive Node where
  | head
  | buf (i : Fin NBUF)
  deriving DecidableEq

/-- `struct buf` without its pointers.  The sleep-lock is either free or
taken. -/
structure Buf where
  valid : Bool
  dev : Uint
  blockno : Uint
  locked : Bool
  refcnt : Uint
  data : Block

/-- `bcache`; the fields `next` and `prev` of its buffers and its head are
`links`. -/
structure Bcache where
  buf : Fin NBUF → Buf
  links : Links Node

namespace Bcache

def modify (c : Bcache) (i : Fin NBUF) (f : Buf → Buf) : Bcache :=
  { c with buf := Function.update c.buf i (f (c.buf i)) }

/-- Buffer `i` is that of the block. -/
def Holds (c : Bcache) (i : Fin NBUF) (dev blockno : Uint) : Prop :=
  (c.buf i).dev = dev ∧ (c.buf i).blockno = blockno

instance (c : Bcache) (i : Fin NBUF) (dev blockno : Uint) :
    Decidable (c.Holds i dev blockno) :=
  inferInstanceAs (Decidable (_ ∧ _))

end Bcache

/-- The loop of `binit` over static memory, which is zero. -/
def binit : Bcache where
  buf _ := ⟨false, 0, 0, false, 0, fun _ => 0⟩
  links := (List.finRange NBUF).foldl (fun links i => links.insertAfter .head (.buf i))
    ⟨fun _ => .head, fun _ => .head⟩

inductive Panic where
  | noBuffers
  deriving DecidableEq

/-- The first loop of `bget`.  A loop that takes more than `NBUF + 1` rounds has
come to some buffer twice, and does not end. -/
def findCached (c : Bcache) (dev blockno : Uint) : Option (Option Node) :=
  Links.scan c.links.next .head (fun
      | .head => false
      | .buf i => decide (c.Holds i dev blockno))
    (NBUF + 1) (c.links.next .head)

/-- The second loop of `bget`. -/
def findUnused (c : Bcache) : Option (Option Node) := Links.scan c.links.prev .head (fun
      | .head => false
      | .buf i => decide ((c.buf i).refcnt = 0))
    (NBUF + 1) (c.links.prev .head)

/-- The critical section of `bget`, and the buffer it returns; `none` if a loop
does not end. -/
def bget (c : Bcache) (dev blockno : Uint) :
    Option (Except Panic (Fin NBUF × Bcache)) :=
  match findCached c dev blockno with
  | none => none
  | some (some (.buf i)) => some (.ok (i, c.modify i fun b => { b with refcnt := b.refcnt + 1 }))
  | some _ =>
    -- Not cached.
    match findUnused c with
    | none => none
    | some (some (.buf i)) =>
      some (.ok (i, c.modify i fun b =>
        { b with dev := dev, blockno := blockno, valid := false, refcnt := 1 }))
    | some _ => some (.error .noBuffers)

/-- The critical section of `brelse`. -/
def brelse (c : Bcache) (i : Fin NBUF) : Bcache :=
  let c := c.modify i fun b => { b with refcnt := b.refcnt - 1 }
  if (c.buf i).refcnt = 0 then
    -- No one is waiting for it.
    { c with links := (c.links.unlink (.buf i)).insertAfter .head (.buf i) }
  else
    c

def bpin (c : Bcache) (i : Fin NBUF) : Bcache :=
  c.modify i fun b => { b with refcnt := b.refcnt + 1 }

def bunpin (c : Bcache) (i : Fin NBUF) : Bcache :=
  c.modify i fun b => { b with refcnt := b.refcnt - 1 }

/-! ## Callers -/

/-- Where a caller is with its buffer. -/
inductive Phase (β : Type*) where
  | outside
  /-- In `bget`, about to take the sleep-lock. -/
  | waiting (b : β)
  /-- In `bread`, with the sleep-lock. -/
  | filling (b : β)
  /-- After `bread`. -/
  | holding (b : β)
  /-- In `brelse`, after `releasesleep`. -/
  | releasing (b : β)
  deriving DecidableEq

/-- The buffer of a caller. -/
def Phase.buf {β : Type*} : Phase β → Option β
  | .outside => none
  | .waiting b | .filling b | .holding b | .releasing b => some b

def Phase.map {α β : Type*} (f : α → β) : Phase α → Phase β
  | .outside => .outside
  | .waiting b => .waiting (f b)
  | .filling b => .filling (f b)
  | .holding b => .holding (f b)
  | .releasing b => .releasing (f b)

structure State (C : Type*) where
  cache : Bcache
  disk : Disk
  phase : C → Phase (Fin NBUF)
  pins : Fin NBUF → ℕ
  used : Fin NBUF → Bool
  zeroed : Fin NBUF → Option ℕ
  clock : ℕ

inductive Event (C : Type*) where
  | bget (c : C) (dev blockno : Uint)
  | acquiresleep (c : C)
  /-- The rest of `bread`. -/
  | fill (c : C)
  /-- Store to `b->data`. -/
  | store (c : C) (data : Block)
  | bwrite (c : C)
  | releasesleep (c : C)
  | brelse (c : C)
  | bpin (i : Fin NBUF)
  | bunpin (c : C)

/-- The caller of an event; a pin has none. -/
def Event.caller {C : Type*} : Event C → Option C
  | .bget c _ _ | .acquiresleep c | .fill c | .store c _ | .bwrite c
  | .releasesleep c | .brelse c | .bunpin c => some c
  | .bpin _ => none

section Steps

variable {C : Type*} [DecidableEq C]

namespace State

def modify (s : State C) (i : Fin NBUF) (f : Buf → Buf) : State C :=
  { s with cache := s.cache.modify i f }

def goto (s : State C) (c : C) (ph : Phase (Fin NBUF)) : State C :=
  { s with phase := Function.update s.phase c ph }

/-- The state after `brelse` of buffer `i`. -/
def brelse (s : State C) (i : Fin NBUF) : State C :=
  { s with
    cache := Bio.brelse s.cache i
    zeroed := if ((Bio.brelse s.cache i).buf i).refcnt = 0 then
        Function.update s.zeroed i (some s.clock)
      else s.zeroed
    clock := s.clock + 1 }

end State

def step (s : State C) : Event C → Option (State C)
  | .bget c dev blockno =>
    match s.phase c with
    | .outside =>
      match Bio.bget s.cache dev blockno with
      | some (.ok (i, cache)) =>
        some { s.goto c (.waiting i) with
          cache := cache
          used := Function.update s.used i true }
      | _ => none
    | _ => none
  | .acquiresleep c =>
    match s.phase c with
    | .waiting i =>
      if (s.cache.buf i).locked then none
      else some ((s.modify i fun b => { b with locked := true }).goto c (.filling i))
    | _ => none
  | .fill c =>
    match s.phase c with
    | .filling i =>
      some ((s.modify i fun b =>
        if b.valid then b
        else { b with data := s.disk b.blockno.toNat, valid := true }).goto c (.holding i))
    | _ => none
  | .store c data =>
    match s.phase c with
    | .holding i => some (s.modify i fun b => { b with data := data })
    | _ => none
  | .bwrite c =>
    match s.phase c with
    | .holding i =>
      some { s with
        disk := Function.update s.disk (s.cache.buf i).blockno.toNat (s.cache.buf i).data }
    | _ => none
  | .releasesleep c =>
    match s.phase c with
    | .holding i => some ((s.modify i fun b => { b with locked := false }).goto c (.releasing i))
    | _ => none
  | .brelse c =>
    match s.phase c with
    | .releasing i => some ((s.brelse i).goto c .outside)
    | _ => none
  | .bpin i =>
    some { s with
      cache := Bio.bpin s.cache i
      pins := Function.update s.pins i (s.pins i + 1) }
  | .bunpin c =>
    match s.phase c with
    | .holding i =>
      if 0 < s.pins i then
        some { s with
          cache := Bio.bunpin s.cache i
          pins := Function.update s.pins i (s.pins i - 1) }
      else none
    | _ => none

/-- After `binit`. -/
def start (C : Type*) (disk : Disk) : State C where
  cache := binit
  disk := disk
  phase _ := .outside
  pins _ := 0
  used _ := false
  zeroed _ := none
  clock := 0

/-- The buffer cache shared by the callers of type `C`. -/
def system (C : Type*) [DecidableEq C] : EventSystem (State C) (Event C) where
  init s := ∃ disk, s = start C disk
  step := step

end Steps

end OsCa.Bio
