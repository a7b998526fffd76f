import OsCa.Kernel.Params
import Mathlib.Data.List.Nodup

/-!
# The write-ahead log of `kernel/log.c`

The log is a physical redo log.  On disk it consists of a header block, which
holds a count `n` and the home block numbers of the logged blocks, followed by
the logged blocks themselves.

A routine of `log.c` that writes to the disk is modelled by the list of its
`Action`s: every action performs exactly one synchronous `bwrite`, so a crash
can only happen between two actions, and a crash after `k` disk writes leaves
the disk of `runActions (acts.take k)`.
-/

namespace OsCa.Log

open Bytes List

/-- The part of `struct log` that `initlog` fixes: the first block of the log
and the number of its blocks, header included. -/
structure LogArea where
  start : ℕ
  size : ℕ
  hasHeader : 0 < size

/-- Blocks of the log: the header and the log blocks. -/
def LogArea.Owns (L : LogArea) (b : ℕ) : Prop := L.start ≤ b ∧ b < L.start + L.size

/-- Home blocks are the blocks outside the log. -/
def LogArea.Home (L : LogArea) (b : ℕ) : Prop := b < L.start ∨ L.start + L.size ≤ b

/-- The log of a disk written by `mkfs`: it starts after the super block, and
its `nlog = LOGSIZE` blocks include the header. -/
def mkfsLog : LogArea where
  start := 2
  size := LOGSIZE
  hasHeader := by decide

/-- The disk, the buffers held in memory and the in-memory log header.  `lh`
lists `log.lh.block[0]`, ..., `log.lh.block[log.lh.n - 1]`. -/
structure Machine where
  disk : Disk
  cache : ℕ → Option Block
  lh : List Uint

/-! ## Buffers -/

/-- Contents of the buffer `bread` returns: the cached copy if there is one,
and otherwise what the disk holds. -/
def bread (m : Machine) (b : ℕ) : Block := (m.cache b).getD (m.disk b)

/-- Fill the buffer of block `b` with `data` and write it to the disk. -/
def bwrite (m : Machine) (b : ℕ) (data : Block) : Machine :=
  { m with
    disk := Function.update m.disk b data
    cache := Function.update m.cache b (some data) }

/-- Memory after a reboot: nothing is cached and the log header is zero. -/
def boot (d : Disk) : Machine where
  disk := d
  cache := fun _ => none
  lh := []

/-! ## The header block -/

/-- The field `n` of the header stored in a block. -/
def headN (hb : Block) : Uint := getUint hb 0

/-- The field `block[i]` of the header stored in a block. -/
def headBlock (hb : Block) (i : ℕ) : Uint := getUint hb (4 + 4 * i)

/-- The loop of `read_head`.  The count is a signed `int`, so a negative one
makes the loop stop at once. -/
def decodeHead (hb : Block) : List Uint := (range (headN hb).toInt.toNat).map (headBlock hb)

/-- The stores of `write_head`: the count and the first `n` block numbers.
The remaining entries of the header block keep their old contents. -/
def encodeHead (hb : Block) (lh : List Uint) : Block :=
  (range lh.length).foldl (fun hb i => setUint hb (4 + 4 * i) (lh.getD i 0))
    (setUint hb 0 (BitVec.ofNat 32 lh.length))

def readHead (L : LogArea) (m : Machine) : Machine :=
  { m with lh := decodeHead (bread m L.start) }

def writeHead (L : LogArea) (m : Machine) : Machine :=
  bwrite m L.start (encodeHead (bread m L.start) m.lh)

/-! ## Commit and recovery -/

/-- A piece of a kernel routine that performs one disk write. -/
abbrev Action := Machine → Machine

def runActions (acts : List Action) (m : Machine) : Machine := acts.foldl (fun m act => act m) m

/-- One iteration of the loop of `write_log`: copy the cached block
`lh.block[tail]` to its log block. -/
def writeLogBody (L : LogArea) (tail : ℕ) : Action := fun m =>
  bwrite m (L.start + tail + 1) (bread m (m.lh.getD tail 0).toNat)

/-- One iteration of the loop of `install_trans`: copy a log block to its home
location. -/
def installTransBody (L : LogArea) (tail : ℕ) : Action := fun m =>
  bwrite m (m.lh.getD tail 0).toNat (bread m (L.start + tail + 1))

def writeLog (L : LogArea) (n : ℕ) : List Action := (range n).map (writeLogBody L)

def installTrans (L : LogArea) (n : ℕ) : List Action := (range n).map (installTransBody L)

/-- Set `log.lh.n` to zero and write the header. -/
def eraseHead (L : LogArea) : Action := fun m => writeHead L { m with lh := [] }

/-- The disk writes of `commit()` when the in-memory header lists `n`
blocks. -/
def commitActions (L : LogArea) (n : ℕ) : List Action := if 0 < n then
    writeLog L n ++ [writeHead L] ++ installTrans L n ++ [eraseHead L]
  else []

def commit (L : LogArea) (m : Machine) : Machine := runActions (commitActions L m.lh.length) m

/-- The disk writes of `recover_from_log()` after `read_head` has filled the
in-memory header with `n` blocks. -/
def recoverActions (L : LogArea) (n : ℕ) : List Action := installTrans L n ++ [eraseHead L]

/-- `recover_from_log()` interrupted after `k` disk writes. -/
def recoverSteps (L : LogArea) (k : ℕ) (m : Machine) : Machine := let m := readHead L m
  runActions ((recoverActions L m.lh.length).take k) m

def recoverFromLog (L : LogArea) (m : Machine) : Machine := let m := readHead L m
  runActions (recoverActions L m.lh.length) m

/-! ## Elementary facts -/

@[simp] theorem bwrite_lh (m : Machine) (b : ℕ) (data : Block) : (bwrite m b data).lh = m.lh := rfl

theorem bwrite_disk_self (m : Machine) (b : ℕ) (data : Block) :
    (bwrite m b data).disk b = data := by
  simp [bwrite]

theorem bwrite_disk_of_ne {m : Machine} {b c : ℕ} {data : Block}
    (h : c ≠ b) : (bwrite m b data).disk c = m.disk c := by
  simp [bwrite, h]

theorem bread_bwrite_self (m : Machine) (b : ℕ) (data : Block) :
    bread (bwrite m b data) b = data := by
  simp [bread, bwrite]

theorem bread_bwrite_of_ne {m : Machine} {b c : ℕ} {data : Block}
    (h : c ≠ b) : bread (bwrite m b data) c = bread m c := by
  simp [bread, bwrite, h]

theorem runActions_append (xs ys : List Action) (m : Machine) :
    runActions (xs ++ ys) m = runActions ys (runActions xs m) :=
  foldl_append

@[simp] theorem runActions_nil (m : Machine) : runActions [] m = m := rfl

@[simp] theorem runActions_cons (act : Action) (acts : List Action) (m : Machine) :
    runActions (act :: acts) m = runActions acts (act m) := rfl

theorem runActions_range_succ (f : ℕ → Action) (k : ℕ) (m : Machine) :
    runActions ((range (k + 1)).map f) m = f k (runActions ((range k).map f) m) := by
  rw [range_succ, map_append, runActions_append]
  rfl

theorem LogArea.Home.ne_of_owns {L : LogArea} {b c : ℕ}
    (hb : L.Home b) (hc : L.Owns c) : b ≠ c := by
  unfold LogArea.Home at hb
  unfold LogArea.Owns at hc
  omega

/-! ## Reading back a header -/

theorem encodeHead_prefix_spec (hb : Block) (lh : List Uint) (k : ℕ) (hk : k ≤ LOGSIZE) :
    let out := (range k).foldl
      (fun hb i => setUint hb (4 + 4 * i) (lh.getD i 0))
      (setUint hb 0 (BitVec.ofNat 32 lh.length))
    headN out = BitVec.ofNat 32 lh.length ∧ ∀ i, i < k → headBlock out i = lh.getD i 0 := by
  have hB : BSIZE = 1024 := rfl
  have hL : LOGSIZE = 30 := rfl
  induction k with
  | zero =>
    refine ⟨getUint_setUint_self (by omega), ?_⟩
    intro i hi
    omega
  | succ k ih =>
    obtain ⟨hn, hblocks⟩ := ih (by omega)
    rw [range_succ, foldl_append]
    constructor
    · exact (getUint_setUint_of_disjoint (by omega)).trans hn
    · intro i hi
      rcases Nat.lt_succ_iff_lt_or_eq.mp hi with hlt | rfl
      · exact (getUint_setUint_of_disjoint (by omega)).trans (hblocks i hlt)
      · exact getUint_setUint_self (by omega)

/-- `read_head` gets back what `write_head` stored, whatever the header block
held before. -/
theorem decodeHead_encodeHead {hb : Block} {lh : List Uint} (hlen : lh.length ≤ LOGSIZE) :
    decodeHead (encodeHead hb lh) = lh := by
  have hL : LOGSIZE = 30 := rfl
  obtain ⟨hn, hblocks⟩ := encodeHead_prefix_spec hb lh lh.length hlen
  have hcount : (headN (encodeHead hb lh)).toInt.toNat = lh.length := by
    rw [show headN (encodeHead hb lh) = BitVec.ofNat 32 lh.length from hn]
    have hsmall : (BitVec.ofNat 32 lh.length).toNat = lh.length := by
      rw [BitVec.toNat_ofNat]
      omega
    rw [BitVec.toInt_eq_toNat_of_lt (by omega), hsmall]
    exact Int.toNat_natCast _
  apply ext_getElem
  · simp [decodeHead, hcount]
  · intro i hi hi'
    have hget : headBlock (encodeHead hb lh) i = lh.getD i 0 := hblocks i hi'
    simp only [decodeHead, getElem_map, getElem_range, hget]
    exact getD_eq_getElem lh 0 hi'

end OsCa.Log
