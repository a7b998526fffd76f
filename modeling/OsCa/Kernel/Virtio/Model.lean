import OsCa.Kernel.Params
import OsCa.Support.EventSystem
import OsCa.Support.RingBuffer

/-!
# The disk driver

This module embeds `virtio_disk_rw` and `virtio_disk_intr` of
`kernel/virtio_disk.c` and the device they talk to.  `P` is the type of processes
and `B` the type of buffers.

A process has `disk.vdisk_lock` from its call, or from its last `sleep`, to its
next `sleep` or its return, and this is one event.  A round of the loop of
`virtio_disk_intr` is one event too, since the device may add an entry to the used
ring between two rounds.  The device takes an entry of the avail ring, processes a
chain that it has taken, and appends a chain that it has processed to the used
ring; it may do so in any order, and whoever has the lock.

The contents of the blocks are left out.  The requests that the device has
appended and the buffers whose `disk` field has been cleared are recorded in
`completed` and `cleared`.
-/

namespace OsCa.Virtio

open Bytes

/-- The number of descriptors. -/
def NUM : ℕ := 8

instance : NeZero NUM := ⟨by decide⟩

/-- The number of a descriptor. -/
abbrev Index := Fin NUM

/-- The flag of a descriptor that is chained with another one. -/
def VRING_DESC_F_NEXT : BitVec 16 := 1

/-- The flag of a descriptor for memory that the device writes. -/
def VRING_DESC_F_WRITE : BitVec 16 := 2

/-- The type of a request that reads the disk. -/
def VIRTIO_BLK_T_IN : Uint := 0

/-- The type of a request that writes the disk. -/
def VIRTIO_BLK_T_OUT : Uint := 1

/-- The addresses that the driver gives to the device. -/
inductive Addr (B : Type) where
  | null
  /-- `&disk.ops[i]`. -/
  | ops (i : Index)
  /-- `b->data`. -/
  | data (b : B)
  /-- `&disk.info[i].status`. -/
  | status (i : Index)

/-- `struct virtq_desc`. -/
structure Desc (B : Type) where
  addr : Addr B
  len : Uint
  flags : BitVec 16
  next : BitVec 16

/-- `struct virtio_blk_req`. -/
structure BlkReq where
  type : Uint
  reserved : Uint
  sector : BitVec 64

/-- An entry of `disk.info`. -/
structure Info (B : Type) where
  b : Option B
  status : Byte

/-- `struct disk` without its lock. -/
structure Disk (B : Type) where
  desc : Index → Desc B
  availIdx : BitVec 16
  availRing : Index → BitVec 16
  usedIdx : BitVec 16
  /-- The field `id` of the entries of `disk.used->ring`. -/
  usedRing : Index → Uint
  free : Index → Bool
  /-- `disk.used_idx`, up to which the driver has looked at the used ring. -/
  seen : BitVec 16
  info : Index → Info B
  ops : Index → BlkReq

inductive Panic where
  | freeDesc1
  | freeDesc2
  | virtioDiskIntrStatus
  /-- `disk.info[id]` or `info[id].b` is not an object. -/
  | badInfo

variable {B : Type}

/-- The three descriptors of a request. -/
structure Chain where
  head : Index
  data : Index
  status : Index
  deriving DecidableEq

/-- The numbers of the descriptors. -/
def Chain.indices (i : Chain) : List Index := [i.head, i.data, i.status]

/-- The arguments of `virtio_disk_rw`. -/
structure Call (B : Type) where
  b : B
  blockno : Uint
  write : Bool

namespace Disk

/-- The first free descriptor is marked as not free. -/
def allocDesc (d : Disk B) : Option (Index × Disk B) :=
  ((List.finRange NUM).find? fun i => d.free i).map fun i =>
    (i, { d with free := Function.update d.free i false })

/-- A descriptor is marked as free.  The caller wakes up `&disk.free[0]`. -/
def freeDesc (d : Disk B) (i : ℕ) : Except Panic (Disk B) :=
  if h : i < NUM then
    if d.free ⟨i, h⟩ then .error .freeDesc2
    else .ok { d with
      desc := Function.update d.desc ⟨i, h⟩ ⟨.null, 0, 0, 0⟩
      free := Function.update d.free ⟨i, h⟩ true }
  else .error .freeDesc1

/-- The loop of `free_chain`.  A round frees a descriptor, so that there cannot be
more than `NUM` of them. -/
def freeChainLoop : ℕ → Disk B → ℕ → Except Panic (Disk B)
  | 0, d, _ => .ok d
  | fuel + 1, d, i => do
      -- Beyond the array, `free_desc` stops before anything depends on what is read.
      let desc := d.desc (Fin.ofNat NUM i)
      let d ← d.freeDesc i
      if desc.flags &&& VRING_DESC_F_NEXT ≠ 0 then freeChainLoop fuel d desc.next.toNat
      else .ok d

def freeChain (d : Disk B) (i : ℕ) : Except Panic (Disk B) := freeChainLoop (NUM + 1) d i

/-- What `alloc3_desc` returns: the descriptors, or how many it has freed again. -/
inductive Alloc where
  | ok (i : Chain)
  | failed (freed : ℕ)

def alloc3Desc (d : Disk B) : Except Panic (Alloc × Disk B) :=
  match d.allocDesc with
  | none => .ok (.failed 0, d)
  | some (i₀, d) =>
    match d.allocDesc with
    | none => do
        let d ← d.freeDesc i₀
        .ok (.failed 1, d)
    | some (i₁, d) =>
      match d.allocDesc with
      | none => do
          let d ← d.freeDesc i₀
          let d ← d.freeDesc i₁
          .ok (.failed 2, d)
      | some (i₂, d) => .ok (.ok ⟨i₀, i₁, i₂⟩, d)

/-- `b->blockno * (BSIZE / 512)`. -/
def sector (blockno : Uint) : BitVec 64 := (blockno * BitVec.ofNat 32 (BSIZE / 512)).setWidth 64

/-- The descriptors are filled in, and `disk.info` names the buffer. -/
def format (d : Disk B) (c : Call B) (i : Chain) : Disk B :=
  { d with
    ops := Function.update d.ops i.head
      ⟨if c.write then VIRTIO_BLK_T_OUT else VIRTIO_BLK_T_IN, 0, sector c.blockno⟩
    desc := Function.update (Function.update (Function.update d.desc i.head
            ⟨.ops i.head, 16, VRING_DESC_F_NEXT, BitVec.ofNat 16 i.data⟩)
          i.data
          ⟨.data c.b, BitVec.ofNat 32 BSIZE,
            (if c.write then 0 else VRING_DESC_F_WRITE) ||| VRING_DESC_F_NEXT,
            BitVec.ofNat 16 i.status⟩)
        i.status ⟨.status i.head, 1, VRING_DESC_F_WRITE, 0⟩
    info := Function.update d.info i.head ⟨some c.b, 0xff⟩ }

/-- The device is told about the chain. -/
def notify (d : Disk B) (i : Chain) : Disk B :=
  { d with
    availRing := Function.update d.availRing (Ring.slot NUM d.availIdx) (BitVec.ofNat 16 i.head)
    availIdx := d.availIdx + 1 }

/-- `disk.info[idx[0]].b = 0`. -/
def forget (d : Disk B) (i : Chain) : Disk B :=
  { d with info := Function.update d.info i.head { d.info i.head with b := none } }

end Disk

/-! ## The device -/

/-- What the device reads in a chain. -/
structure Request (B : Type) where
  head : Index
  type : Uint
  sector : BitVec 64
  b : B

/-- The chain with this head, if it is one of three descriptors as the device
expects them, and where its status byte is. -/
def decode (d : Disk B) (head : ℕ) : Option (Request B × Index) :=
  if h : head < NUM then
    let d₀ := d.desc ⟨head, h⟩
    let d₁ := d.desc (Fin.ofNat NUM d₀.next.toNat)
    let d₂ := d.desc (Fin.ofNat NUM d₁.next.toNat)
    if d₀.flags &&& VRING_DESC_F_NEXT ≠ 0 ∧ d₁.flags &&& VRING_DESC_F_NEXT ≠ 0 ∧
        d₂.flags &&& VRING_DESC_F_NEXT = 0 then
      match d₀.addr, d₁.addr, d₂.addr with
      | .ops j, .data b, .status k => some (⟨⟨head, h⟩, (d.ops j).type, (d.ops j).sector, b⟩, k)
      | _, _, _ => none
    else none
  else none

structure Device (B : Type) where
  /-- Up to where the device has looked at the avail ring. -/
  seen : BitVec 16
  /-- The heads it has taken and not yet processed. -/
  taken : List (BitVec 16)
  /-- The requests it has processed and not yet appended. -/
  served : List (Request B)

/-! ## The system -/

inductive Pc (B : Type) where
  | user
  /-- In `sleep(&disk.free[0], &disk.vdisk_lock)`. -/
  | alloc (c : Call B)
  /-- In `sleep(b, &disk.vdisk_lock)`. -/
  | wait (c : Call B) (i : Chain)

structure State (P B : Type) where
  disk : Disk B
  device : Device B
  /-- `virtio_disk_intr` has the lock. -/
  intr : Bool
  pc : P → Pc B
  sleeping : P → Bool
  /-- `b->disk`. -/
  bdisk : B → Bool
  completed : List (Request B)
  cleared : List B
  panic : Option Panic

inductive Event (P B : Type) where
  | virtioDiskRw (p : P) (c : Call B)
  /-- `sleep` returns. -/
  | resume (p : P)
  | kill (p : P)
  | intrBegin
  | intrRound
  | intrEnd
  | take
  | serve (k : ℕ)
  | append (k : ℕ)

variable {P : Type} [DecidableEq P] [DecidableEq B]

namespace State

/-- `wakeup(&disk.free[0])`. -/
def wakeFree (s : State P B) : State P B :=
  { s with sleeping := fun p =>
      match s.pc p with
      | .alloc _ => false
      | .user | .wait .. => s.sleeping p }

/-- `wakeup(b)`. -/
def wakeBuf (s : State P B) (b : B) : State P B :=
  { s with sleeping := fun p =>
      match s.pc p with
      | .wait c _ => if c.b = b then false else s.sleeping p
      | .user | .alloc _ => s.sleeping p }

def goto (s : State P B) (p : P) (pc : Pc B) (asleep : Bool) : State P B :=
  { s with
    pc := Function.update s.pc p pc
    sleeping := Function.update s.sleeping p asleep }

/-- A round of the loop that allocates the descriptors and, once there are three,
everything up to `sleep(b, &disk.vdisk_lock)`. -/
def allocRound (s : State P B) (p : P) (c : Call B) : State P B :=
  match s.disk.alloc3Desc with
  | .error e => { s with panic := some e }
  | .ok (.failed freed, d) =>
    let s := { s with disk := d }
    (if freed = 0 then s else s.wakeFree).goto p (.alloc c) true
  | .ok (.ok i, d) =>
    { s with
      disk := (d.format c i).notify i
      bdisk := Function.update s.bdisk c.b true }.goto p (.wait c i) true

/-- A round of the loop `while(b->disk == 1)` and the rest of the call. -/
def waitRound (s : State P B) (p : P) (c : Call B) (i : Chain) : State P B :=
  if s.bdisk c.b then s.goto p (.wait c i) true
  else
    match (s.disk.forget i).freeChain i.head with
    | .error e => { s with panic := some e }
    | .ok d => { s with disk := d }.wakeFree.goto p .user false

/-- A round of the loop of `virtio_disk_intr`. -/
def intrRound (s : State P B) : State P B :=
  let id := (s.disk.usedRing (Ring.slot NUM s.disk.seen)).toNat
  if h : id < NUM then
    let info := s.disk.info ⟨id, h⟩
    if info.status ≠ 0 then { s with panic := some .virtioDiskIntrStatus }
    else
      match info.b with
      | none => { s with panic := some .badInfo }
      | some b =>
        { s.wakeBuf b with
          bdisk := Function.update s.bdisk b false
          disk := { s.disk with seen := s.disk.seen + 1 }
          cleared := s.cleared ++ [b] }
  else { s with panic := some .badInfo }

/-- The device takes the next entry of the avail ring. -/
def take (s : State P B) : State P B :=
  { s with device :=
    { s.device with
      seen := s.device.seen + 1
      taken := s.device.taken ++ [s.disk.availRing (Ring.slot NUM s.device.seen)] } }

/-- The device processes a chain it has taken, and writes its status. -/
def serve (s : State P B) (k : ℕ) : Option (State P B) := do
  let head ← s.device.taken[k]?
  let (r, j) ← decode s.disk head.toNat
  some { s with
    device := { s.device with
      taken := s.device.taken.eraseIdx k
      served := s.device.served ++ [r] }
    disk := { s.disk with
      info := Function.update s.disk.info j { s.disk.info j with status := 0 } } }

/-- The device appends a chain it has processed to the used ring. -/
def append (s : State P B) (k : ℕ) : Option (State P B) := do
  let r ← s.device.served[k]?
  some { s with
    device := { s.device with served := s.device.served.eraseIdx k }
    disk := { s.disk with
      usedRing := Function.update s.disk.usedRing (Ring.slot NUM s.disk.usedIdx)
        (BitVec.ofNat 32 r.head)
      usedIdx := s.disk.usedIdx + 1 }
    completed := s.completed ++ [r] }

end State

/-- Processes wait for the lock while `virtio_disk_intr` has it. -/
def step (s : State P B) (e : Event P B) : Option (State P B) :=
  match s.panic with
  | some _ => none
  | none =>
    match e with
    | .virtioDiskRw p c =>
      match s.intr, s.pc p with
      | false, .user => some (s.allocRound p c)
      | _, _ => none
    | .resume p =>
      match s.intr, s.sleeping p, s.pc p with
      | false, false, .alloc c => some (s.allocRound p c)
      | false, false, .wait c i => some (s.waitRound p c i)
      | _, _, _ => none
    | .kill p => some { s with sleeping := Function.update s.sleeping p false }
    | .intrBegin => if s.intr then none else some { s with intr := true }
    | .intrRound => if s.intr = true ∧ s.disk.seen ≠ s.disk.usedIdx then some s.intrRound else none
    | .intrEnd =>
      if s.intr = true ∧ s.disk.seen = s.disk.usedIdx then some { s with intr := false }
      else none
    | .take => if s.device.seen ≠ s.disk.availIdx then some s.take else none
    | .serve k => s.serve k
    | .append k => s.append k

/-- After `virtio_disk_init`. -/
structure Start (s : State P B) : Prop where
  availIdx : s.disk.availIdx = 0
  usedIdx : s.disk.usedIdx = 0
  seen : s.disk.seen = 0
  free : ∀ i, s.disk.free i = true
  device : s.device = ⟨0, [], []⟩
  pc : ∀ p, s.pc p = .user
  completed : s.completed = []
  cleared : s.cleared = []
  panic : s.panic = none

def system (P B : Type) [DecidableEq P] [DecidableEq B] : EventSystem (State P B) (Event P B) where
  init := Start
  step := step

end OsCa.Virtio
