import OsCa.Kernel.Fs.Layout

/-!
# Blocks and inodes

This module embeds the lower half of `kernel/fs.c`: the block allocator, the
inodes, and reading and writing their contents, together with the copies
between user memory and the kernel that they use.

The disk is the one that the file system sees through the buffer cache: a
block has the contents last stored in its buffer, and `logged` records the
calls of `log_write`.  The inode cache holds one entry per inode number; that
entries do not get mixed up is the business of `iget` and its callers.  A call
of `panic` ends the computation.
-/

namespace OsCa.Fs

open Bytes

inductive Panic where
  | ballocOutOfBlocks
  | freeingFreeBlock
  | iallocNoInodes
  | ilockNoType
  | bmapOutOfRange
  deriving DecidableEq, Repr

/-- An entry of the inode cache: a copy of the inode, if `valid`. -/
structure Inode extends Dinode where
  valid : Bool

structure State where
  disk : Disk
  icache : ℕ → Inode
  logged : List ℕ

namespace State

def setInode (s : State) (inum : ℕ) (f : Inode → Inode) : State :=
  { s with icache := Function.update s.icache inum (f (s.icache inum)) }

/-- Store `data` in the buffer of block `b`. -/
def putBlock (s : State) (b : ℕ) (data : Block) : State :=
  { s with disk := Fs.putBlock s.disk b data }

def logWrite (s : State) (b : ℕ) : State :=
  { s with logged := s.logged ++ [b] }

/-- The assignment `ip->addrs[i] = addr`. -/
def setAddr (s : State) (inum : ℕ) (i : Fin (NDIRECT + 1)) (addr : Uint) :
    State :=
  s.setInode inum fun ip =>
    { ip with addrs := Function.update ip.addrs i addr }

end State

/-! ## Blocks -/

def zeroBlock : Block := fun _ => 0

def bzero (s : State) (bno : ℕ) : State := (s.putBlock bno zeroBlock).logWrite bno

/-- The inner loop of `balloc`, over the bits of one bitmap block. -/
def scanBlock (sb : Superblock) (data : Block) (b : ℕ) : Option ℕ :=
  (List.range BPB).find? fun bi => decide (b + bi < sb.size) && !testBit data bi

/-- The loops of `balloc`: the first block whose bit is clear. -/
def findFree (sb : Superblock) (d : Disk) : Option ℕ :=
  (List.range ((sb.size + BPB - 1) / BPB)).findSome? fun k =>
    (scanBlock sb (d (sb.BBLOCK (k * BPB))) (k * BPB)).map (k * BPB + ·)

def balloc (sb : Superblock) (s : State) : Except Panic (Uint × State) :=
  match findFree sb s.disk with
  | some b =>
    let s := { s with disk := markBit sb s.disk b }.logWrite (sb.BBLOCK b)
    .ok (BitVec.ofNat 32 b, bzero s b)
  | none => .error .ballocOutOfBlocks

def bfree (sb : Superblock) (s : State) (b : ℕ) : Except Panic State :=
  if bit sb s.disk b = false then
    .error .freeingFreeBlock
  else
    .ok ({ s with disk := freeBit sb s.disk b }.logWrite (sb.BBLOCK b))

/-! ## Inodes -/

def iupdate (sb : Superblock) (s : State) (inum : ℕ) : State :=
  { s with
    disk := writeDinode sb s.disk inum (s.icache inum).toDinode }.logWrite (sb.IBLOCK inum)

def ilock (sb : Superblock) (s : State) (inum : ℕ) : Except Panic State :=
  if (s.icache inum).valid = false then
    let s := s.setInode inum fun _ =>
      { readDinode sb s.disk inum with valid := true }
    if (s.icache inum).type = 0 then .error .ilockNoType else .ok s
  else
    .ok s

/-- `ialloc`, which returns the number of the inode it found. -/
def ialloc (sb : Superblock) (s : State) (type : Short) : Except Panic (ℕ × State) :=
  match (List.range' 1 (sb.ninodes - 1)).find? fun inum =>
      decide ((readDinode sb s.disk inum).type = 0) with
  | some inum =>
    .ok (inum, { s with disk := initInode sb s.disk inum type }.logWrite (sb.IBLOCK inum))
  | none => .error .iallocNoInodes

/-- `if((addr = ip->addrs[i]) == 0) ip->addrs[i] = addr = balloc(ip->dev);` -/
def ensureAddr (sb : Superblock) (s : State) (inum : ℕ)
    (i : Fin (NDIRECT + 1)) : Except Panic (Uint × State) :=
  let addr := (s.icache inum).addrs i
  if addr = 0 then do
    let (addr, s) ← balloc sb s
    return (addr, s.setAddr inum i addr)
  else
    return (addr, s)

def bmap (sb : Superblock) (s : State) (inum bn : ℕ) : Except Panic (Uint × State) :=
  if bn < NDIRECT then
    ensureAddr sb s inum (addrIndex bn)
  else if bn - NDIRECT < NINDIRECT then do
    let (a, s) ← ensureAddr sb s inum (Fin.last NDIRECT)
    let addr := getUint (s.disk a.toNat) (4 * (bn - NDIRECT))
    if addr = 0 then do
      let (addr, s) ← balloc sb s
      let s := s.putBlock a.toNat
        (setUint (s.disk a.toNat) (4 * (bn - NDIRECT)) addr)
      return (addr, s.logWrite a.toNat)
    else
      return (addr, s)
  else
    .error .bmapOutOfRange

/-- The body of the first loop of `itrunc`. -/
def truncDirect (sb : Superblock) (inum : ℕ) (s : State) (i : Fin NDIRECT) : Except Panic State :=
  let addr := (s.icache inum).addrs i.castSucc
  if addr ≠ 0 then do
    let s ← bfree sb s addr.toNat
    return s.setAddr inum i.castSucc 0
  else
    return s

/-- The body of the second loop of `itrunc`; `a` is the indirect block. -/
def truncEntry (sb : Superblock) (a : Block) (s : State) (j : Fin NINDIRECT) : Except Panic State :=
  let addr := getUint a (4 * j.val)
  if addr ≠ 0 then bfree sb s addr.toNat else return s

def itrunc (sb : Superblock) (s : State) (inum : ℕ) : Except Panic State := do
  let s ← (List.finRange NDIRECT).foldlM (truncDirect sb inum) s
  let addr := (s.icache inum).addrs (Fin.last NDIRECT)
  let s ←
    if addr ≠ 0 then do
      let a := s.disk addr.toNat
      let s ← (List.finRange NINDIRECT).foldlM (truncEntry sb a) s
      let s ← bfree sb s addr.toNat
      pure (s.setAddr inum (Fin.last NDIRECT) 0)
    else
      pure s
  let s := s.setInode inum fun ip => { ip with size := 0 }
  return iupdate sb s inum

/-- `iput`; `last` says that `ip->ref == 1`. -/
def iput (sb : Superblock) (s : State) (inum : ℕ) (last : Bool) : Except Panic State :=
  if last = true ∧ (s.icache inum).valid = true ∧
      (s.icache inum).nlink = 0 then do
    let s ← itrunc sb s inum
    let s := s.setInode inum fun ip => { ip with type := 0 }
    let s := iupdate sb s inum
    return s.setInode inum fun ip => { ip with valid := false }
  else
    return s

/-! ## Copies between user memory and the kernel -/

def PGSIZE : ℕ := 4096

/-- Memory as the current process sees it.  `mapped` says which pages
`walkaddr` finds. -/
structure Memory where
  mapped : ℕ → Bool
  byte : ℕ → Byte

/-- Overwrite the bytes from `addr` with `f 0, ..., f (len - 1)`. -/
def Memory.write (mem : Memory) (addr len : ℕ) (f : ℕ → Byte) : Memory :=
  { mem with
    byte := fun a => if addr ≤ a ∧ a < addr + len then f (a - addr) else mem.byte a }

/-- `copyin` to offset `off` of a buffer.  A failing copy has already stored
the bytes of the pages before the one that is not mapped. -/
def copyin (mem : Memory) (dst : Block) (off srcva len : ℕ) : Block × Bool := if 0 < len then
    let va0 := srcva / PGSIZE * PGSIZE
    if mem.mapped (va0 / PGSIZE) = false then
      (dst, false)
    else
      let n := min (PGSIZE - (srcva - va0)) len
      copyin mem (blit dst off n fun i => mem.byte (srcva + i)) (off + n) (va0 + PGSIZE) (len - n)
  else
    (dst, true)
termination_by len
decreasing_by
  have : srcva % PGSIZE < PGSIZE := Nat.mod_lt _ (by decide)
  have := Nat.div_add_mod srcva PGSIZE
  have := Nat.mul_comm PGSIZE (srcva / PGSIZE)
  omega

/-- `copyout` of the bytes `src 0, src 1, ...`. -/
def copyout (mem : Memory) (dstva : ℕ) (src : ℕ → Byte) (len : ℕ) : Memory × Bool := if 0 < len then
    let va0 := dstva / PGSIZE * PGSIZE
    if mem.mapped (va0 / PGSIZE) = false then
      (mem, false)
    else
      let n := min (PGSIZE - (dstva - va0)) len
      copyout (mem.write dstva n src) (va0 + PGSIZE) (fun i => src (n + i)) (len - n)
  else
    (mem, true)
termination_by len
decreasing_by
  have : dstva % PGSIZE < PGSIZE := Nat.mod_lt _ (by decide)
  have := Nat.div_add_mod dstva PGSIZE
  have := Nat.mul_comm PGSIZE (dstva / PGSIZE)
  omega

def eitherCopyin (userSrc : Bool) (mem : Memory) (dst : Block) (off src len : ℕ) : Block × Bool :=
  if userSrc then copyin mem dst off src len
  else (blit dst off len fun i => mem.byte (src + i), true)

def eitherCopyout (userDst : Bool) (mem : Memory) (dst : ℕ) (src : ℕ → Byte)
    (len : ℕ) : Memory × Bool :=
  if userDst then copyout mem dst src len
  else (mem.write dst len src, true)

/-! ## Inode content -/

/-- A `uint` returned as an `int`. -/
def asInt (n : ℕ) : ℤ := (BitVec.ofNat 32 n).toInt

/-- The number of bytes one round of the loops of `readi` and `writei`
handles. -/
def chunk (n tot off : ℕ) : ℕ := min (n - tot) (BSIZE - off % BSIZE)

theorem chunk_pos (off : ℕ) {n tot : ℕ} (h : tot < n) : 0 < chunk n tot off := by
  have : off % BSIZE < BSIZE := Nat.mod_lt _ (by decide)
  unfold chunk
  omega

/-- The loop of `readi`.  The result says whether all copies succeeded. -/
def readLoop (sb : Superblock) (inum : ℕ) (userDst : Bool) (n : ℕ)
    (mem : Memory) (dst tot off : ℕ) (s : State) :
    Except Panic (Bool × Memory × State) :=
  if tot < n then do
    let (addr, s) ← bmap sb s inum (off / BSIZE)
    let m := chunk n tot off
    let (mem, ok) := eitherCopyout userDst mem dst
      (fun i => peek (s.disk addr.toNat) (off % BSIZE + i)) m
    if ok then
      readLoop sb inum userDst n mem (dst + m) (tot + m) (off + m) s
    else
      return (false, mem, s)
  else
    return (true, mem, s)
termination_by n - tot
decreasing_by
  have := chunk_pos off ‹tot < n›
  omega

def readi (sb : Superblock) (s : State) (inum : ℕ) (userDst : Bool)
    (mem : Memory) (dst off n : ℕ) : Except Panic (ℤ × Memory × State) :=
  let size := (s.icache inum).size.toNat
  if off > size ∨ (off + n) % 2 ^ 32 < off then
    return (0, mem, s)
  else do
    let n := if (off + n) % 2 ^ 32 > size then size - off else n
    let (ok, mem, s) ← readLoop sb inum userDst n mem dst 0 off s
    return (asInt (if ok then n else 2 ^ 32 - 1), mem, s)

/-- The loop of `writei`.  The result says whether all copies succeeded, and
gives the final value of `off`. -/
def writeLoop (sb : Superblock) (inum : ℕ) (userSrc : Bool) (mem : Memory)
    (n src tot off : ℕ) (s : State) : Except Panic (Bool × ℕ × State) :=
  if tot < n then do
    let (addr, s) ← bmap sb s inum (off / BSIZE)
    let m := chunk n tot off
    let (data, ok) := eitherCopyin userSrc mem (s.disk addr.toNat)
      (off % BSIZE) src m
    let s := s.putBlock addr.toNat data
    if ok then
      writeLoop sb inum userSrc mem n (src + m) (tot + m) (off + m) (s.logWrite addr.toNat)
    else
      return (false, off, s)
  else
    return (true, off, s)
termination_by n - tot
decreasing_by
  have := chunk_pos off ‹tot < n›
  omega

/-- `writei`.  A failed copy sets `n = -1`, a large `uint`, so the inode is
written back in this case as well. -/
def writei (sb : Superblock) (s : State) (inum : ℕ) (userSrc : Bool)
    (mem : Memory) (src off n : ℕ) : Except Panic (ℤ × State) :=
  if off > (s.icache inum).size.toNat ∨ (off + n) % 2 ^ 32 < off then
    return (-1, s)
  else if (off + n) % 2 ^ 32 > MAXFILE * BSIZE then
    return (-1, s)
  else do
    let (ok, off, s) ← writeLoop sb inum userSrc mem n src 0 off s
    let n := if ok then n else 2 ^ 32 - 1
    if n > 0 then
      let s :=
        if off > (s.icache inum).size.toNat then
          s.setInode inum fun ip => { ip with size := BitVec.ofNat 32 off }
        else s
      return (asInt n, iupdate sb s inum)
    else
      return (asInt n, s)

end OsCa.Fs
