import OsCa.Support.Blocks
import OsCa.Support.EventSystem

/-!
# The allocator of user programs

This module embeds `user/umalloc.c`.  Memory is a table of headers by their byte
address; a `Header` takes 16 bytes and a `uint` wraps at `2 ^ 32`.  `base` is the address
of the static header of that name.  The answer of `sbrk` is part of the call, and so is a
bound on the rounds of the loops; a call that is not done within it does not happen.

The regions obtained from `sbrk` and the blocks that the program has are recorded.
-/

namespace OsCa.Malloc

structure Header where
  ptr : ℕ
  size : ℕ

/-- `sizeof(Header)`. -/
def unit : ℕ := 16

/-- The memory and the variables of the allocator, and what `sbrk` has given. -/
structure Heap where
  mem : ℕ → Header
  freep : ℕ
  regions : List Extent

/-! ## `free` -/

/-- The loop of `free`. -/
def findPlace (mem : ℕ → Header) (bp : ℕ) : ℕ → ℕ → Option ℕ
  | 0, _ => none
  | fuel + 1, p =>
    if p < bp ∧ bp < (mem p).ptr then some p
    else if (mem p).ptr ≤ p ∧ (p < bp ∨ bp < (mem p).ptr) then some p
    else findPlace mem bp fuel (mem p).ptr

/-- `bp` takes over `p->s.ptr`, or is joined to it. -/
def joinRight (mem : ℕ → Header) (p bp : ℕ) : ℕ → Header := let next := (mem p).ptr
  if bp + unit * (mem bp).size = next then
    Function.update mem bp ⟨(mem next).ptr, ((mem bp).size + (mem next).size) % 2 ^ 32⟩
  else Function.update mem bp ⟨next, (mem bp).size⟩

/-- `p` points to `bp`, or is joined to it. -/
def joinLeft (mem : ℕ → Header) (p bp : ℕ) : ℕ → Header := if p + unit * (mem p).size = bp then
    Function.update mem p ⟨(mem bp).ptr, ((mem p).size + (mem bp).size) % 2 ^ 32⟩
  else Function.update mem p ⟨bp, (mem p).size⟩

/-- `free`, for the header at `bp`. -/
def free (fuel : ℕ) (h : Heap) (bp : ℕ) : Option Heap :=
  (findPlace h.mem bp fuel h.freep).map fun p =>
    { h with mem := joinLeft (joinRight h.mem p bp) p bp, freep := p }

/-! ## `malloc` -/

/-- The units that `morecore` asks for. -/
def moreUnits (nu : ℕ) : ℕ := if nu < 4096 then 4096 else nu

/-- `morecore`, which returns `freep`, or 0 if `sbrk` fails. -/
def morecore (fuel nu : ℕ) (sbrk : Option ℕ) (h : Heap) : Option (Heap × Option ℕ) :=
  match sbrk with
  | none => some (h, none)
  | some hp =>
    (free fuel
      { h with
        mem := Function.update h.mem hp ⟨(h.mem hp).ptr, moreUnits nu⟩
        regions := ⟨hp, unit * moreUnits nu⟩ :: h.regions } hp).map
      fun h => (h, some h.freep)

/-- A block of exactly `nunits` is taken out of the list, from a larger one the tail. -/
def take (h : Heap) (nunits prevp p : ℕ) : Heap × ℕ := if (h.mem p).size = nunits then
    ({ h with
      mem := Function.update h.mem prevp ⟨(h.mem p).ptr, (h.mem prevp).size⟩
      freep := prevp }, p)
  else
    let size := (h.mem p).size - nunits
    let mem := Function.update h.mem p ⟨(h.mem p).ptr, size⟩
    let q := p + unit * size
    ({ h with mem := Function.update mem q ⟨(mem q).ptr, nunits⟩, freep := prevp }, q)

/-- The loop of `malloc`.  It returns the header of the block, or 0. -/
def search (nunits : ℕ) : ℕ → List (Option ℕ) → Heap → ℕ → ℕ → Option (Heap × Option ℕ)
  | 0, _, _, _, _ => none
  | fuel + 1, sbrk, h, prevp, p =>
    if nunits ≤ (h.mem p).size then
      some ((take h nunits prevp p).1, some (take h nunits prevp p).2)
    else if p = h.freep then
      match sbrk with
      | [] => none
      | answer :: sbrk =>
        match morecore fuel nunits answer h with
        | none => none
        | some (h, none) => some (h, none)
        | some (h, some p) => search nunits fuel sbrk h p (h.mem p).ptr
    else search nunits fuel sbrk h p (h.mem p).ptr

/-- The units for `nbytes` bytes and a header. -/
def unitsFor (nbytes : BitVec 32) : ℕ := ((nbytes.toNat + unit - 1) / unit + 1) % 2 ^ 32

/-- The first call makes a list of `base`. -/
def start (base : ℕ) (h : Heap) : Heap := if h.freep = 0 then
    { h with mem := Function.update h.mem base ⟨base, 0⟩, freep := base }
  else h

/-- `malloc`, with the answers of `sbrk`. -/
def malloc (base fuel : ℕ) (sbrk : List (Option ℕ)) (h : Heap) (nbytes : BitVec 32) :
    Option (Heap × Option ℕ) :=
  let h := start base h
  search (unitsFor nbytes) fuel sbrk h h.freep (h.mem h.freep).ptr

/-! ## Programs -/

/-- A block of the program: its header, the units of the block and the bytes asked
for. -/
structure Live where
  addr : ℕ
  units : ℕ
  nbytes : ℕ
  deriving DecidableEq

structure State where
  heap : Heap
  live : List Live

inductive Event where
  /-- `malloc`, with the answer of `sbrk`, should it be called. -/
  | malloc (nbytes : BitVec 32) (sbrk : Option ℕ) (fuel : ℕ)
  /-- `free` of a block that the program has. -/
  | free (b : Live) (fuel : ℕ)

def step (base : ℕ) (s : State) : Event → Option State
  | .malloc nbytes sbrk fuel =>
    match malloc base fuel [sbrk] s.heap nbytes with
    | none => none
    | some (h, none) => some { s with heap := h }
    | some (h, some p) => some { heap := h, live := ⟨p, unitsFor nbytes, nbytes.toNat⟩ :: s.live }
  | .free b fuel =>
    if b ∈ s.live then
      (Malloc.free fuel s.heap b.addr).map fun h => { heap := h, live := s.live.erase b }
    else none

/-- Nothing has been allocated; the memory may have any contents. -/
def system (base : ℕ) : EventSystem State Event where
  init := fun s => s.heap.freep = 0 ∧ s.heap.regions = [] ∧ s.live = []
  step := step base

/-! ## What the program and `sbrk` keep to -/

/-- A request of less than `2 ^ 31` bytes, and regions aligned to headers and disjoint
from those before. -/
def Regular (s : State) : Event → Prop
  | .malloc nbytes sbrk _ =>
    unit * unitsFor nbytes < 2 ^ 31 ∧ ∀ a ∈ sbrk, a % unit = 0 ∧ ∀ r ∈ s.heap.regions,
          (Extent.mk a (unit * moreUnits (unitsFor nbytes))).Disjoint r
  | .free _ _ => True

/-- Moreover the regions lie above `base`, and have less than `2 ^ 32` units in all. -/
def Fair (base : ℕ) (s : State) : Event → Prop
  | .malloc nbytes sbrk fuel =>
    Regular s (.malloc nbytes sbrk fuel) ∧ ∀ a ∈ sbrk, base + unit ≤ a ∧
        Extent.total s.heap.regions + unit * moreUnits (unitsFor nbytes) < unit * 2 ^ 32
  | .free b fuel => Regular s (.free b fuel)

instance (s : State) : (e : Event) → Decidable (Regular s e)
  | .malloc _ _ _ => inferInstanceAs (Decidable (_ ∧ _))
  | .free _ _ => inferInstanceAs (Decidable True)

/-! ## Safety -/

def Live.ext (b : Live) : Extent := ⟨b.addr, unit * b.units⟩

/-- The free list: `base` and then the blocks `l` by address, none adjacent to the next,
and from the last one back to `base`. -/
structure FreeList (base : ℕ) (h : Heap) (l : List ℕ) : Prop where
  circle : (base :: (l ++ [base])).IsChain fun a b => (h.mem a).ptr = b
  sorted : (base :: l).Pairwise (· < ·)
  apart : l.Pairwise fun a b => a + unit * (h.mem a).size ≠ b
  freep : h.freep ∈ base :: l

/-- The free list is as it should be, once there is one.  Its blocks and those of the
program are disjoint, lie in the regions and add up to them, and the program has got what
it asked for. -/
def Safe (base : ℕ) (s : State) : Prop :=
  ∃ l, (FreeList base s.heap l ∨ s.heap.freep = 0 ∧ l = []) ∧
    Tiles (s.live.map Live.ext ++ l.map fun a => ⟨a, unit * (s.heap.mem a).size⟩) s.heap.regions ∧
    ∀ b ∈ s.live, b.nbytes ≤ unit * (b.units - 1)

end OsCa.Malloc
