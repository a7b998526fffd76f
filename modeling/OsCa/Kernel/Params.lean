import OsCa.Support.Bytes

/-!
# Kernel parameters and the block device

Constants of `kernel/param.h` and `kernel/fs.h`, and the disk as the kernel
sees it: an array of blocks of `BSIZE` bytes, addressed by `uint` block
numbers.
-/

namespace OsCa

open Bytes

/-- Maximum number of blocks any file system operation writes. -/
def MAXOPBLOCKS : ℕ := 10

/-- Maximum number of data blocks in the on-disk log. -/
def LOGSIZE : ℕ := MAXOPBLOCKS * 3

/-- Block size in bytes. -/
def BSIZE : ℕ := 1024

/-- A C `uint`. -/
abbrev Uint := BitVec 32

instance decidableMemUint (b : Uint) (l : List Uint) : Decidable (b ∈ l) := inferInstance

/-- A C `short`. -/
abbrev Short := BitVec 16

/-- The contents of one disk block. -/
abbrev Block := Buffer BSIZE

/-- The contents of a disk, block by block. -/
abbrev Disk := ℕ → Block

/-- The `uint` stored at byte offset `off` of a block. -/
def getUint (b : Block) (off : ℕ) : Uint := word b off 4

/-- Store a `uint` at byte offset `off` of a block. -/
def setUint (b : Block) (off : ℕ) (v : Uint) : Block := setWord b off 4 v

theorem getUint_setUint_self {b : Block} {off : ℕ} {v : Uint} (hfit : off + 4 ≤ BSIZE) :
    getUint (setUint b off v) off = v :=
  word_setWord_self hfit

theorem getUint_setUint_of_disjoint {b : Block} {off pos : ℕ} {v : Uint}
    (h : off + 4 ≤ pos ∨ pos + 4 ≤ off) :
    getUint (setUint b pos v) off = getUint b off :=
  word_setWord_of_disjoint h

end OsCa
