import OsCa.Kernel.Params

/-!
# The layout of the file system

The structures of `kernel/fs.h` on disk: the superblock, the free bitmap, and
the inodes.  A disk is read through three views - the bit of a block, the inode
with a given number, and the contents of a data block - and every write of the
file system changes one of them.  The lemmas below say so; nothing above this
module looks at offsets inside a block.
-/

namespace OsCa.Fs

open Bytes

variable {off : ℕ} {data : Block} {type : Short}

def NDIRECT : ℕ := 12

def NINDIRECT : ℕ := BSIZE / 4

def MAXFILE : ℕ := NDIRECT + NINDIRECT

/-- Size of a `struct dinode`. -/
def dinodeSize : ℕ := 64

/-- Inodes per block. -/
def IPB : ℕ := BSIZE / dinodeSize

/-- Bitmap bits per block. -/
def BPB : ℕ := BSIZE * 8

/-- The fields of `struct superblock` that describe the layout.  The inode
blocks, the bitmap blocks and the data blocks follow each other, as `mkfs`
lays them out. -/
structure Superblock where
  size : ℕ
  nblocks : ℕ
  ninodes : ℕ
  inodestart : ℕ
  bmapstart : ℕ
  size_lt : size < 2 ^ 31
  inodes_fit : inodestart + ninodes / IPB + 1 ≤ bmapstart
  bitmap_fit : bmapstart + size / BPB + 1 + nblocks ≤ size

/-- An item `i` of `n`, with `k` in each block from `start` on, is before the end of the
blocks. -/
theorem block_lt {i n k start stop : ℕ} (hi : i < n) (hfit : start + n / k + 1 ≤ stop) :
    i / k + start < stop := by
  have hdiv : i / k ≤ n / k := Nat.div_le_div_right hi.le
  calc i / k + start ≤ n / k + start := Nat.add_le_add_right hdiv _
    _ < start + n / k + 1 := by
        rw [Nat.add_comm]
        exact Nat.lt_succ_self _
    _ ≤ stop := hfit

/-- An item is known from its block and its place there. -/
theorem position_iff {i j k start : ℕ} : i / k + start = j / k + start ∧ i % k = j % k ↔ i = j := by
  constructor
  · rintro ⟨hblock, hmod⟩
    have hdiv : i / k = j / k := Nat.add_right_cancel hblock
    rw [← Nat.div_add_mod i k, ← Nat.div_add_mod j k, hdiv, hmod]
  · rintro rfl
    exact ⟨rfl, rfl⟩

namespace Superblock

variable (sb : Superblock)

/-- The number of metadata blocks. -/
def nmeta : ℕ := sb.size - sb.nblocks

/-- Block containing inode `i`. -/
def IBLOCK (i : ℕ) : ℕ := i / IPB + sb.inodestart

/-- Block of the free map containing the bit for block `b`. -/
def BBLOCK (b : ℕ) : ℕ := b / BPB + sb.bmapstart

theorem nmeta_le : sb.nmeta ≤ sb.size := Nat.sub_le _ _

/-- The bitmap blocks end before the data blocks begin. -/
theorem bitmap_le_nmeta : sb.bmapstart + sb.size / BPB + 1 ≤ sb.nmeta :=
  Nat.le_sub_of_add_le sb.bitmap_fit

theorem nmeta_pos : 0 < sb.nmeta := (Nat.succ_pos _).trans_le sb.bitmap_le_nmeta

theorem IBLOCK_lt {i : ℕ} (hi : i < sb.ninodes) : sb.IBLOCK i < sb.bmapstart :=
  block_lt hi sb.inodes_fit

theorem le_BBLOCK (b : ℕ) : sb.bmapstart ≤ sb.BBLOCK b := Nat.le_add_left _ _

theorem BBLOCK_lt {b : ℕ} (hb : b < sb.size) : sb.BBLOCK b < sb.nmeta :=
  block_lt hb sb.bitmap_le_nmeta

theorem IBLOCK_lt_nmeta {i : ℕ} (hi : i < sb.ninodes) : sb.IBLOCK i < sb.nmeta :=
  (sb.IBLOCK_lt hi).trans_le ((Nat.le_add_right _ _).trans
      ((Nat.le_succ _).trans sb.bitmap_le_nmeta))

theorem IBLOCK_ne_BBLOCK {i : ℕ} (hi : i < sb.ninodes) (b : ℕ) : sb.IBLOCK i ≠ sb.BBLOCK b :=
  ((sb.IBLOCK_lt hi).trans_le (sb.le_BBLOCK b)).ne

end Superblock

/-! ## The bitmap -/

/-- The bit of block `b`. -/
def bit (sb : Superblock) (d : Disk) (b : ℕ) : Bool := testBit (d (sb.BBLOCK b)) (b % BPB)

theorem bitIndex_lt (b : ℕ) : b % BPB / 8 < BSIZE := by
  have : b % BPB < BPB := Nat.mod_lt b (by decide)
  unfold BPB at *
  omega

/-- Replace one block. -/
def putBlock (d : Disk) (b : ℕ) (data : Block) : Disk := Function.update d b data

@[simp]
theorem putBlock_self (d : Disk) (b : ℕ) (data : Block) : putBlock d b data b = data :=
  Function.update_self _ _ _

theorem putBlock_of_ne (d : Disk) {b c : ℕ} (data : Block) (h : c ≠ b) :
    putBlock d b data c = d c :=
  Function.update_of_ne h _ _

/-- `bp->data[bi/8] |= m` in the bitmap block of `b`. -/
def markBit (sb : Superblock) (d : Disk) (b : ℕ) : Disk :=
  putBlock d (sb.BBLOCK b) (setBit (d (sb.BBLOCK b)) (b % BPB))

/-- `bp->data[bi/8] &= ~m` in the bitmap block of `b`. -/
def freeBit (sb : Superblock) (d : Disk) (b : ℕ) : Disk :=
  putBlock d (sb.BBLOCK b) (clearBit (d (sb.BBLOCK b)) (b % BPB))

theorem bitmap_position {sb : Superblock} {b c : ℕ} :
    sb.BBLOCK b = sb.BBLOCK c ∧ b % BPB = c % BPB ↔ b = c :=
  position_iff

theorem bit_markBit (sb : Superblock) (d : Disk) (b c : ℕ) :
    bit sb (markBit sb d b) c = (decide (c = b) || bit sb d c) := by
  unfold bit markBit
  by_cases hblock : sb.BBLOCK c = sb.BBLOCK b
  · rw [hblock, putBlock_self, testBit_setBit (bitIndex_lt b)]
    congr 1
    exact decide_eq_decide.mpr ⟨fun h => bitmap_position.mp ⟨hblock, h⟩, fun h => by rw [h]⟩
  · rw [putBlock_of_ne _ _ hblock, show decide (c = b) = false from
      decide_eq_false (fun heq => hblock (by rw [heq]))]
    rfl

theorem bit_freeBit (sb : Superblock) (d : Disk) (b c : ℕ) :
    bit sb (freeBit sb d b) c = (!decide (c = b) && bit sb d c) := by
  unfold bit freeBit
  by_cases hblock : sb.BBLOCK c = sb.BBLOCK b
  · rw [hblock, putBlock_self, testBit_clearBit (bitIndex_lt b)]
    congr 2
    exact decide_eq_decide.mpr ⟨fun h => bitmap_position.mp ⟨hblock, h⟩, fun h => by rw [h]⟩
  · rw [putBlock_of_ne _ _ hblock, show decide (c = b) = false from
      decide_eq_false (fun heq => hblock (by rw [heq]))]
    rfl

/-! ## Inodes -/

/-- A position in `addrs`. -/
def addrIndex (i : ℕ) : Fin (NDIRECT + 1) := Fin.ofNat _ i

/-- `struct dinode`. -/
@[ext]
structure Dinode where
  type : Short
  major : Short
  minor : Short
  nlink : Short
  size : Uint
  addrs : Fin (NDIRECT + 1) → Uint

variable {ip : Dinode}

/-- The byte offset of an inode in its block. -/
def slot (i : ℕ) : ℕ := i % IPB * dinodeSize

/-- The fields of the inode stored at byte `off`. -/
def decodeDinode (data : Block) (off : ℕ) : Dinode where
  type := word data off 2
  major := word data (off + 2) 2
  minor := word data (off + 4) 2
  nlink := word data (off + 6) 2
  size := word data (off + 8) 4
  addrs i := word data (off + 12 + 4 * i.val) 4

/-- The assignments of `iupdate` to the fields of the inode at byte `off`. -/
def encodeDinode (data : Block) (off : ℕ) (ip : Dinode) : Block :=
  let data := setWord data off 2 ip.type
  let data := setWord data (off + 2) 2 ip.major
  let data := setWord data (off + 4) 2 ip.minor
  let data := setWord data (off + 6) 2 ip.nlink
  let data := setWord data (off + 8) 4 ip.size
  blit data (off + 12) (4 * (NDIRECT + 1)) (arrayBytes (k := 4) fun i => ip.addrs (addrIndex i))

/-- `memset(dip, 0, sizeof(*dip)); dip->type = type;` -/
def initDinode (data : Block) (off : ℕ) (type : Short) : Block :=
  setWord (blit data off dinodeSize fun _ => 0) off 2 type

theorem slot_add_le (i : ℕ) : slot i + dinodeSize ≤ BSIZE := by
  have : i % IPB < IPB := Nat.mod_lt i (by decide)
  unfold slot IPB dinodeSize BSIZE at *
  omega

theorem slot_disjoint {i j : ℕ} (h : i % IPB ≠ j % IPB) :
    slot i + dinodeSize ≤ slot j ∨ slot j + dinodeSize ≤ slot i := by
  unfold slot dinodeSize
  omega

theorem decodeDinode_congr {a b : Block}
    (h : ∀ i, off ≤ i → i < off + dinodeSize → peek a i = peek b i) :
    decodeDinode a off = decodeDinode b off := by
  have hword : ∀ pos k, off ≤ pos → pos + k ≤ off + dinodeSize → word a pos k = word b pos k := by
    intro pos k hlo hhi
    exact word_congr fun i hi hi' => h i (by omega) (by omega)
  unfold dinodeSize at hword
  refine Dinode.ext (hword _ _ ?_ ?_) (hword _ _ ?_ ?_) (hword _ _ ?_ ?_)
    (hword _ _ ?_ ?_) (hword _ _ ?_ ?_) (funext fun i => ?_)
  all_goals try omega
  have hi : i.val < 13 := i.isLt
  exact hword _ _ (by omega) (by omega)

theorem peek_encodeDinode_of_not_mem {i : ℕ} (h : i < off ∨ off + dinodeSize ≤ i) :
    peek (encodeDinode data off ip) i = peek data i := by
  unfold dinodeSize at h
  unfold encodeDinode NDIRECT
  rw [peek_blit_of_not_mem (by omega), peek_setWord_of_not_mem (by omega),
    peek_setWord_of_not_mem (by omega), peek_setWord_of_not_mem (by omega),
    peek_setWord_of_not_mem (by omega), peek_setWord_of_not_mem (by omega)]

theorem peek_initDinode_of_not_mem {i : ℕ} (h : i < off ∨ off + dinodeSize ≤ i) :
    peek (initDinode data off type) i = peek data i := by
  unfold dinodeSize at h
  unfold initDinode
  rw [peek_setWord_of_not_mem (by omega), peek_blit_of_not_mem (by unfold dinodeSize; omega)]

theorem decodeDinode_encodeDinode (hfit : off + dinodeSize ≤ BSIZE) :
    decodeDinode (encodeDinode data off ip) off = ip := by
  unfold dinodeSize at hfit
  refine Dinode.ext ?_ ?_ ?_ ?_ ?_ (funext fun i => ?_)
  all_goals dsimp only [decodeDinode, encodeDinode]
  · -- Each later write is beyond the field that is read.
    rw [word_blit_of_disjoint (by omega), word_setWord_of_disjoint (by omega),
      word_setWord_of_disjoint (by omega), word_setWord_of_disjoint (by omega),
      word_setWord_of_disjoint (by omega), word_setWord_self (by omega)]
  · rw [word_blit_of_disjoint (by omega), word_setWord_of_disjoint (by omega),
      word_setWord_of_disjoint (by omega), word_setWord_of_disjoint (by omega),
      word_setWord_self (by omega)]
  · rw [word_blit_of_disjoint (by omega), word_setWord_of_disjoint (by omega),
      word_setWord_of_disjoint (by omega), word_setWord_self (by omega)]
  · rw [word_blit_of_disjoint (by omega), word_setWord_of_disjoint (by omega),
      word_setWord_self (by omega)]
  · rw [word_blit_of_disjoint (by omega), word_setWord_self (by omega)]
  · have hi : i.val < NDIRECT + 1 := i.isLt
    change word (blit _ (off + 12) _ _) (off + 12 + 4 * i.val) 4 = _
    rw [word_blit_arrayBytes hi (by unfold NDIRECT; omega)]
    congr 1
    exact Fin.ext (Nat.mod_eq_of_lt hi)

/-- A new inode has its type and is zero otherwise. -/
def newDinode (type : Short) : Dinode :=
  { type := type, major := 0, minor := 0, nlink := 0, size := 0,
    addrs := fun _ => 0 }

theorem word_of_zero {b : Block} {k : ℕ}
    (h : ∀ i, off ≤ i → i < off + k → peek b i = 0) : word b off k = 0 := by
  apply word_of_bytes
  intro i hi
  rw [h (off + i) (by omega) (by omega)]
  simp

theorem decodeDinode_initDinode (hfit : off + dinodeSize ≤ BSIZE) :
    decodeDinode (initDinode data off type) off = newDinode type := by
  have hzero : ∀ i, off + 2 ≤ i → i < off + dinodeSize → peek (initDinode data off type) i = 0 := by
    intro i hlo hhi
    rw [initDinode, peek_setWord_of_not_mem (by omega), peek_blit_of_mem (by omega) hhi (by omega)]
  have hword : ∀ pos k, off + 2 ≤ pos → pos + k ≤ off + dinodeSize →
      word (initDinode data off type) pos k = 0 := fun pos k hlo hhi =>
    word_of_zero fun i hi hi' => hzero i (by omega) (by omega)
  unfold dinodeSize at hword hfit
  refine Dinode.ext ?_ (hword _ _ ?_ ?_) (hword _ _ ?_ ?_) (hword _ _ ?_ ?_)
    (hword _ _ ?_ ?_) (funext fun i => ?_)
  · exact word_setWord_self (by omega)
  all_goals try omega
  have hi : i.val < 13 := i.isLt
  exact hword _ _ (by omega) (by omega)

/-! ## The three views of a disk -/

/-- Inode `i` as it is on disk. -/
def readDinode (sb : Superblock) (d : Disk) (i : ℕ) : Dinode :=
  decodeDinode (d (sb.IBLOCK i)) (slot i)

def writeDinode (sb : Superblock) (d : Disk) (i : ℕ) (ip : Dinode) : Disk :=
  putBlock d (sb.IBLOCK i) (encodeDinode (d (sb.IBLOCK i)) (slot i) ip)

def initInode (sb : Superblock) (d : Disk) (i : ℕ) (type : Short) : Disk :=
  putBlock d (sb.IBLOCK i) (initDinode (d (sb.IBLOCK i)) (slot i) type)

section Views

variable {sb : Superblock} {d : Disk} {i j b c : ℕ}

theorem inode_position : sb.IBLOCK i = sb.IBLOCK j ∧ i % IPB = j % IPB ↔ i = j := position_iff

/-- Writes to the slot of one inode leave the others alone. -/
theorem readDinode_putSlot (hij : j ≠ i) (hdata : ∀ k, k < slot i ∨ slot i + dinodeSize ≤ k →
      peek data k = peek (d (sb.IBLOCK i)) k) :
    readDinode sb (putBlock d (sb.IBLOCK i) data) j = readDinode sb d j := by
  unfold readDinode
  by_cases hblock : sb.IBLOCK j = sb.IBLOCK i
  · have hmod : i % IPB ≠ j % IPB := fun heq => hij (inode_position.mp ⟨hblock, heq.symm⟩)
    rw [hblock, putBlock_self]
    refine decodeDinode_congr fun k hlo hhi => hdata k ?_
    rcases slot_disjoint hmod with h | h
    · exact Or.inr (by omega)
    · exact Or.inl (by omega)
  · rw [putBlock_of_ne _ _ hblock]

theorem readDinode_writeDinode (ip : Dinode) :
    readDinode sb (writeDinode sb d i ip) j = if j = i then ip else readDinode sb d j := by
  split
  next h =>
    subst j
    rw [readDinode, writeDinode, putBlock_self]
    exact decodeDinode_encodeDinode (slot_add_le i)
  next h => exact readDinode_putSlot h fun k hk => peek_encodeDinode_of_not_mem hk

theorem readDinode_initInode (type : Short) : readDinode sb (initInode sb d i type) j =
      if j = i then newDinode type else readDinode sb d j := by
  split
  next h =>
    subst j
    rw [readDinode, initInode, putBlock_self]
    exact decodeDinode_initDinode (slot_add_le i)
  next h => exact readDinode_putSlot h fun k hk => peek_initDinode_of_not_mem hk

theorem readDinode_markBit (hi : i < sb.ninodes) :
    readDinode sb (markBit sb d b) i = readDinode sb d i := by
  rw [readDinode, markBit, putBlock_of_ne _ _ (sb.IBLOCK_ne_BBLOCK hi b)]
  rfl

theorem readDinode_freeBit (hi : i < sb.ninodes) :
    readDinode sb (freeBit sb d b) i = readDinode sb d i := by
  rw [readDinode, freeBit, putBlock_of_ne _ _ (sb.IBLOCK_ne_BBLOCK hi b)]
  rfl

theorem readDinode_putBlock (data : Block) (hi : i < sb.ninodes) (hb : sb.nmeta ≤ b) :
    readDinode sb (putBlock d b data) i = readDinode sb d i := by
  have hne : sb.IBLOCK i ≠ b := ((sb.IBLOCK_lt_nmeta hi).trans_le hb).ne
  rw [readDinode, putBlock_of_ne _ _ hne]
  rfl

theorem bit_putInode (data : Block) (hi : i < sb.ninodes) :
    bit sb (putBlock d (sb.IBLOCK i) data) b = bit sb d b := by
  rw [bit, putBlock_of_ne _ _ (sb.IBLOCK_ne_BBLOCK hi b).symm]
  rfl

theorem bit_writeDinode (ip : Dinode) (hi : i < sb.ninodes) :
    bit sb (writeDinode sb d i ip) b = bit sb d b :=
  bit_putInode _ hi

theorem bit_initInode (type : Short) (hi : i < sb.ninodes) :
    bit sb (initInode sb d i type) b = bit sb d b :=
  bit_putInode _ hi

theorem bit_putBlock (data : Block) (hc : c < sb.size) (hb : sb.nmeta ≤ b) :
    bit sb (putBlock d b data) c = bit sb d c := by
  have hne : sb.BBLOCK c ≠ b := ((sb.BBLOCK_lt hc).trans_le hb).ne
  rw [bit, putBlock_of_ne _ _ hne]
  rfl

theorem data_markBit (hb : b < sb.size) (hc : sb.nmeta ≤ c) : markBit sb d b c = d c :=
  putBlock_of_ne _ _ ((sb.BBLOCK_lt hb).trans_le hc).ne'

theorem data_freeBit (hb : b < sb.size) (hc : sb.nmeta ≤ c) : freeBit sb d b c = d c :=
  putBlock_of_ne _ _ ((sb.BBLOCK_lt hb).trans_le hc).ne'

theorem data_writeDinode (ip : Dinode) (hi : i < sb.ninodes)
    (hc : sb.nmeta ≤ c) : writeDinode sb d i ip c = d c :=
  putBlock_of_ne _ _ ((sb.IBLOCK_lt_nmeta hi).trans_le hc).ne'

theorem data_initInode (type : Short) (hi : i < sb.ninodes)
    (hc : sb.nmeta ≤ c) : initInode sb d i type c = d c :=
  putBlock_of_ne _ _ ((sb.IBLOCK_lt_nmeta hi).trans_le hc).ne'

end Views

end OsCa.Fs
