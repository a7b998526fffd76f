import Mathlib.Algebra.BigOperators.Group.Finset.Piecewise
import Mathlib.Algebra.Order.BigOperators.Group.Finset
import Mathlib.Data.Fintype.Sum
import Mathlib.Tactic.DeriveFintype
import OsCa.Kernel.Fs.Model
import OsCa.Support.Fallible
import OsCa.Support.Ownership

/-!
# Ownership of blocks

A data block can be referred to from three kinds of places: a direct address
of an inode, its indirect pointer, and an entry of its indirect block.  The
bitmap has a bit set exactly for the metadata blocks and for the blocks that
some allocated inode refers to, and no block is referred to twice.  This module
proves that the operations on inodes keep this invariant.

Between the start and the end of an operation the references of the locked
inode are those of its copy in the inode cache.
-/

namespace OsCa.Fs

open Bytes Fallible Function Option Finset

variable {c bn : ℕ} {d : Disk} {a : Uint} {e : Panic} {s₁ s₂ s₃ : State}
  {i : Fin (NDIRECT + 1)}

/-! ## Places -/

/-- A place in an inode that can hold the number of a data block. -/
inductive Slot where
  | direct (i : Fin NDIRECT)
  | indirect
  | entry (j : Fin NINDIRECT)
  deriving DecidableEq, Fintype

variable {p : ℕ × Slot} {T : Finset Slot}

/-- The block number in a slot; 0 if there is none. -/
def Dinode.slotAddr (ip : Dinode) (d : Disk) : Slot → Uint
  | .direct i => ip.addrs i.castSucc
  | .indirect => ip.addrs (Fin.last NDIRECT)
  | .entry j =>
    if ip.addrs (Fin.last NDIRECT) = 0 then 0
    else getUint (d (ip.addrs (Fin.last NDIRECT)).toNat) (4 * j.val)

/-- The current inode: the copy in the cache if it is valid, and the one on
disk otherwise. -/
def State.inode (sb : Superblock) (s : State) (i : ℕ) : Dinode :=
  if (s.icache i).valid then (s.icache i).toDinode else readDinode sb s.disk i

/-- The block that an allocated inode refers to in a slot. -/
def ref (sb : Superblock) (s : State) (p : ℕ × Slot) : Option ℕ :=
  let addr := (s.inode sb p.1).slotAddr s.disk p.2
  if p.1 < sb.ninodes ∧ (s.inode sb p.1).type ≠ 0 ∧ addr ≠ 0 then
    some addr.toNat
  else none

/-- The bitmap is exact. -/
def Own (sb : Superblock) (s : State) : Prop :=
  Owned (fun b => b < sb.size ∧ bit sb s.disk b = true) (fun b => b < sb.nmeta) (ref sb s)

variable {sb : Superblock} {s s' : State} {inum : ℕ}

theorem inode_congr {i : ℕ} (hicache : s'.icache i = s.icache i)
    (hdinode : readDinode sb s'.disk i = readDinode sb s.disk i) :
    s'.inode sb i = s.inode sb i := by
  unfold State.inode
  rw [hicache, hdinode]

theorem ref_eq_some_iff {b : ℕ} :
    ref sb s p = some b ↔ p.1 < sb.ninodes ∧ (s.inode sb p.1).type ≠ 0 ∧
        (s.inode sb p.1).slotAddr s.disk p.2 ≠ 0 ∧
        ((s.inode sb p.1).slotAddr s.disk p.2).toNat = b := by
  unfold ref
  dsimp only
  split
  next h =>
    rw [some.injEq]
    exact ⟨fun hb => ⟨h.1, h.2.1, h.2.2, hb⟩, fun hb => hb.2.2.2⟩
  next h =>
    simp only [reduceCtorEq, false_iff]
    rintro ⟨h1, h2, h3, -⟩
    exact h ⟨h1, h2, h3⟩

/-- A reference depends on the type and the addresses of the inode, and on its
indirect block. -/
theorem ref_congr_addrs (htype : p.1 < sb.ninodes → (s'.inode sb p.1).type = (s.inode sb p.1).type)
    (haddrs : p.1 < sb.ninodes → (s'.inode sb p.1).addrs = (s.inode sb p.1).addrs)
    (hblock : ∀ a, ref sb s (p.1, .indirect) = some a → s'.disk a = s.disk a) :
    ref sb s' p = ref sb s p := by
  obtain ⟨i, sl⟩ := p
  by_cases hi : i < sb.ninodes ∧ (s.inode sb i).type ≠ 0
  · have hslot : (s'.inode sb i).slotAddr s'.disk sl = (s.inode sb i).slotAddr s.disk sl := by
      have haddrs := haddrs hi.1
      cases sl with
      | direct j => exact congrFun haddrs _
      | indirect => exact congrFun haddrs _
      | entry j =>
        dsimp only at haddrs
        by_cases hind : (s.inode sb i).addrs (Fin.last NDIRECT) = 0
        · simp [Dinode.slotAddr, haddrs, hind]
        · have := hblock _ (ref_eq_some_iff.mpr ⟨hi.1, hi.2, hind, rfl⟩)
          simp only [Dinode.slotAddr] at this
          simp [Dinode.slotAddr, haddrs, this]
    have htype := htype hi.1
    dsimp only at htype
    unfold ref
    simp only [htype, hslot]
  · have hi' : ¬ (i < sb.ninodes ∧ (s'.inode sb i).type ≠ 0) := fun h => hi ⟨h.1, htype h.1 ▸ h.2⟩
    unfold ref
    rw [if_neg (fun h => hi' ⟨h.1, h.2.1⟩), if_neg (fun h => hi ⟨h.1, h.2.1⟩)]

theorem ref_congr (hinode : p.1 < sb.ninodes → s'.inode sb p.1 = s.inode sb p.1)
    (hblock : ∀ a, ref sb s (p.1, .indirect) = some a → s'.disk a = s.disk a) :
    ref sb s' p = ref sb s p :=
  ref_congr_addrs (fun h => by rw [hinode h]) (fun h => by rw [hinode h]) hblock

theorem ref_of_inode_eq (hdisk : s'.disk = s.disk)
    (hinode : ∀ i, s'.inode sb i = s.inode sb i) (q : ℕ × Slot) :
    ref sb s' q = ref sb s q :=
  ref_congr (fun _ => hinode q.1) fun _ _ => by rw [hdisk]

theorem Own.range (h : Own sb s) {b : ℕ} (hp : ref sb s p = some b) : sb.nmeta ≤ b ∧ b < sb.size :=
  ⟨Nat.le_of_not_lt (Owned.apart h p b hp), (Owned.used_of_ref h hp).1⟩

theorem Own.nmeta_le_of_free (h : Own sb s) {b : ℕ}
    (hb : bit sb s.disk b = false) : sb.nmeta ≤ b := by
  have hunused : ¬ (b < sb.size ∧ bit sb s.disk b = true) := by simp [hb]
  exact Nat.le_of_not_lt fun hlt => Owned.not_reserved_of_free h hunused hlt

theorem Own.ne_of_free (h : Own sb s) {b : ℕ} (hb : bit sb s.disk b = false)
    (hp : ref sb s p = some c) : c ≠ b := by
  rintro rfl
  have := (Owned.used_of_ref h hp).2
  rw [hb] at this
  cases this

/-! ## The allocator -/

theorem bit_scan (d : Disk) (k : ℕ) {bi : ℕ} (hbi : bi < BPB) :
    bit sb d (k * BPB + bi) = testBit (d (sb.BBLOCK (k * BPB))) bi := by
  have hpos : 0 < BPB := by decide
  have hdiv : (k * BPB + bi) / BPB = k := by
    rw [Nat.mul_comm, Nat.mul_add_div hpos, Nat.div_eq_of_lt hbi, Nat.add_zero]
  have hmod : (k * BPB + bi) % BPB = bi := by
    rw [Nat.mul_comm, Nat.mul_add_mod, Nat.mod_eq_of_lt hbi]
  unfold bit Superblock.BBLOCK
  rw [hdiv, hmod, Nat.mul_div_cancel k hpos]

theorem findFree_some {b : ℕ} (h : findFree sb d = some b) : b < sb.size ∧ bit sb d b = false := by
  unfold findFree at h
  obtain ⟨k, -, hk⟩ := List.exists_of_findSome?_eq_some h
  obtain ⟨bi, hscan, rfl⟩ := map_eq_some_iff.mp hk
  have hmem := List.mem_of_find?_eq_some hscan
  have hprop := List.find?_some hscan
  simp only [Bool.and_eq_true, decide_eq_true_eq, Bool.not_eq_true'] at hprop
  exact ⟨hprop.1, (bit_scan d k (List.mem_range.mp hmem)).trans hprop.2⟩

/-- A bitmap block in which `balloc` finds nothing is full. -/
theorem scanBlock_none {k b : ℕ}
    (h : scanBlock sb (d (sb.BBLOCK (k * BPB))) (k * BPB) = none) (hk : b / BPB = k)
    (hb : b < sb.size) : bit sb d b = true := by
  rw [scanBlock, List.find?_eq_none] at h
  have hmod : b % BPB < BPB := Nat.mod_lt b (by decide)
  have hsplit : k * BPB + b % BPB = b := by
    rw [Nat.mul_comm, ← hk]
    exact Nat.div_add_mod b BPB
  have hbit := h (b % BPB) (List.mem_range.mpr hmod)
  rw [← bit_scan d k hmod, hsplit] at hbit
  simpa [hb] using hbit

theorem findFree_none (h : findFree sb d = none) {b : ℕ} (hb : b < sb.size) :
    bit sb d b = true := by
  have hpos : 0 < BPB := by decide
  unfold findFree at h
  rw [List.findSome?_eq_none_iff] at h
  have hk : b / BPB ∈ List.range ((sb.size + BPB - 1) / BPB) := by
    rw [List.mem_range, Nat.div_lt_iff_lt_mul hpos]
    calc b < sb.size := hb
      _ ≤ (sb.size + BPB - 1) / BPB * BPB := by
        have := Nat.div_add_mod (sb.size + BPB - 1) BPB
        have := Nat.mod_lt (sb.size + BPB - 1) hpos
        rw [Nat.mul_comm]
        omega
  exact scanBlock_none (map_eq_none_iff.mp (h _ hk)) rfl hb

/-- What `balloc` does when it returns block `b`. -/
structure Alloc (sb : Superblock) (s : State) (b : ℕ) (s' : State) : Prop where
  lt : b < sb.size
  free : bit sb s.disk b = false
  icache : s'.icache = s.icache
  bits : ∀ c < sb.size, bit sb s'.disk c = (decide (c = b) || bit sb s.disk c)
  dinode : ∀ i < sb.ninodes, readDinode sb s'.disk i = readDinode sb s.disk i
  zero : s'.disk b = zeroBlock
  data : ∀ c, sb.nmeta ≤ c → c ≠ b → s'.disk c = s.disk c

theorem balloc_ok (h : Own sb s) (hok : balloc sb s = .ok (a, s')) : Alloc sb s a.toNat s' := by
  unfold balloc at hok
  cases hfind : findFree sb s.disk with
  | none => simp [hfind] at hok
  | some b =>
    rw [hfind] at hok
    simp only [Except.ok.injEq, Prod.mk.injEq] at hok
    obtain ⟨rfl, rfl⟩ := hok
    obtain ⟨hlt, hfree⟩ := findFree_some hfind
    have hsize := sb.size_lt
    have htoNat : (BitVec.ofNat 32 b).toNat = b := by
      rw [BitVec.toNat_ofNat]
      omega
    have hmeta := h.nmeta_le_of_free hfree
    rw [htoNat]
    refine ⟨hlt, hfree, rfl, ?_, ?_, putBlock_self _ _ _, ?_⟩
    · intro c hc
      exact (bit_putBlock _ hc hmeta).trans (bit_markBit sb s.disk b c)
    · intro i hi
      exact (readDinode_putBlock _ hi hmeta).trans (readDinode_markBit hi)
    · intro c hc hne
      exact (putBlock_of_ne _ _ hne).trans (data_markBit hlt hc)

theorem balloc_error (herr : balloc sb s = .error e) :
    e = .ballocOutOfBlocks ∧ ∀ b < sb.size, bit sb s.disk b = true := by
  unfold balloc at herr
  cases hfind : findFree sb s.disk with
  | some b => simp [hfind] at herr
  | none =>
    rw [hfind] at herr
    exact ⟨(Except.error.inj herr).symm, fun b hb => findFree_none hfind hb⟩

/-! ## Growing an inode -/

/-- The inode is allocated, and its copy in the cache is valid; the caller
holds its lock. -/
structure Locked (sb : Superblock) (s : State) (inum : ℕ) : Prop where
  lt : inum < sb.ninodes
  valid : (s.icache inum).valid = true
  type : (s.icache inum).type ≠ 0

theorem Locked.inode (h : Locked sb s inum) : s.inode sb inum = (s.icache inum).toDinode :=
  if_pos h.valid

theorem Locked.congr (h : Locked sb s inum)
    (hvalid : (s'.icache inum).valid = (s.icache inum).valid)
    (htype : (s'.icache inum).type = (s.icache inum).type) : Locked sb s' inum :=
  ⟨h.lt, hvalid.trans h.valid, htype ▸ h.type⟩

/-- How many blocks are free. -/
def State.free (sb : Superblock) (s : State) : ℕ := freeCount (bit sb s.disk) sb.size

/-- The slots of an inode that hold a block. -/
def mapped (sb : Superblock) (s : State) (inum : ℕ) : Finset Slot :=
  univ.filter fun sl => ref sb s (inum, sl) ≠ none

theorem mem_mapped {sl : Slot} : sl ∈ mapped sb s inum ↔ ref sb s (inum, sl) ≠ none := by
  simp [mapped]

/-- Blocks were only added to the locked inode, each of them taken from the
free ones.  The inodes on disk did not change. -/
structure Extend (sb : Superblock) (inum : ℕ) (s s' : State) : Prop where
  icache : ∀ i, i ≠ inum → s'.icache i = s.icache i
  fields : s'.icache inum =
    { s.icache inum with addrs := (s'.icache inum).addrs }
  dinode : ∀ i < sb.ninodes, readDinode sb s'.disk i = readDinode sb s.disk i
  kept : ∀ p b, ref sb s p = some b → ref sb s' p = some b
  count : s.free sb + (mapped sb s inum).card = s'.free sb + (mapped sb s' inum).card

namespace Extend

theorem refl (sb : Superblock) (inum : ℕ) (s : State) : Extend sb inum s s where
  icache _ _ := rfl
  fields := rfl
  dinode _ _ := rfl
  kept _ _ h := h
  count := rfl

theorem trans (h : Extend sb inum s₁ s₂) (h' : Extend sb inum s₂ s₃) : Extend sb inum s₁ s₃ where
  icache i hi := (h'.icache i hi).trans (h.icache i hi)
  fields := by rw [h'.fields, h.fields]
  dinode i hi := (h'.dinode i hi).trans (h.dinode i hi)
  kept p b hp := h'.kept p b (h.kept p b hp)
  count := h.count.trans h'.count

theorem locked (h : Extend sb inum s s') (hl : Locked sb s inum) : Locked sb s' inum :=
  hl.congr (by rw [h.fields]) (by rw [h.fields])

theorem inode_of_ne (h : Extend sb inum s s') {i : ℕ} (hi : i ≠ inum)
    (hlt : i < sb.ninodes) : s'.inode sb i = s.inode sb i :=
  inode_congr (h.icache i hi) (h.dinode i hlt)

theorem mapped_subset (h : Extend sb inum s s') {i : ℕ} : mapped sb s i ⊆ mapped sb s' i := by
  intro sl hsl
  rw [mem_mapped, ne_none_iff_exists'] at hsl ⊢
  obtain ⟨b, hb⟩ := hsl
  exact ⟨b, h.kept _ _ hb⟩

/-- If the blocks do not suffice for the slots `T` after some of these have
been filled, they did not suffice before. -/
theorem free_lt (h : Extend sb inum s s') (hsub : mapped sb s' inum ⊆ mapped sb s inum ∪ T)
    (hlt : s'.free sb < (T \ mapped sb s' inum).card) :
    s.free sb < (T \ mapped sb s inum).card := by
  have hunion : T ∪ mapped sb s' inum = T ∪ mapped sb s inum := by
    apply Finset.Subset.antisymm
    · refine union_subset subset_union_left (hsub.trans ?_)
      rw [union_comm]
    · exact union_subset_union_right h.mapped_subset
  have hcard := card_sdiff_add_card T (mapped sb s inum)
  have hcard' := card_sdiff_add_card T (mapped sb s' inum)
  rw [hunion] at hcard'
  have := h.count
  omega

end Extend

/-- `bmap` moreover keeps the contents of the blocks with file data, and
those it adds are zero. -/
structure Grow (sb : Superblock) (inum : ℕ) (s s' : State) : Prop
    extends Extend sb inum s s' where
  data : ∀ p b, p.2 ≠ .indirect → ref sb s p = some b → s'.disk b = s.disk b
  fresh : ∀ p b, p.2 ≠ .indirect → ref sb s p = none → ref sb s' p = some b → s'.disk b = zeroBlock

theorem Grow.refl (sb : Superblock) (inum : ℕ) (s : State) : Grow sb inum s s where
  toExtend := Extend.refl sb inum s
  data _ _ _ _ := rfl
  fresh p b _ hnone hsome := by
    rw [hnone] at hsome
    cases hsome

theorem Grow.trans (h : Grow sb inum s₁ s₂) (h' : Grow sb inum s₂ s₃) : Grow sb inum s₁ s₃ where
  toExtend := h.toExtend.trans h'.toExtend
  data p b hleaf hp := (h'.data p b hleaf (h.kept p b hp)).trans (h.data p b hleaf hp)
  fresh p b hleaf hnone hsome := by
    cases hmid : ref sb s₂ p with
    | none => exact h'.fresh p b hleaf hmid hsome
    | some c =>
      obtain rfl : c = b := some.inj ((h'.kept p c hmid).symm.trans hsome)
      exact (h'.data p c hleaf hmid).trans (h.fresh p c hleaf hnone hmid)

/-- One slot of the locked inode was filled with a block from `balloc`. -/
structure Linked (sb : Superblock) (inum : ℕ) (sl : Slot) (b : ℕ)
    (s s' : State) : Prop where
  icache : ∀ i, i ≠ inum → s'.icache i = s.icache i
  fields : s'.icache inum =
    { s.icache inum with addrs := (s'.icache inum).addrs }
  dinode : ∀ i < sb.ninodes, readDinode sb s'.disk i = readDinode sb s.disk i
  lt : b < sb.size
  free : bit sb s.disk b = false
  bits : ∀ c < sb.size, bit sb s'.disk c = (decide (c = b) || bit sb s.disk c)
  empty : ref sb s (inum, sl) = none
  self : ref sb s' (inum, sl) = some b
  other : ∀ q, q ≠ (inum, sl) → ref sb s' q = ref sb s q
  data : ∀ q c, q.2 ≠ .indirect → ref sb s q = some c → s'.disk c = s.disk c
  zero : sl ≠ .indirect → s'.disk b = zeroBlock

namespace Linked

variable {sl : Slot} {b : ℕ}

theorem own (h : Linked sb inum sl b s s') (ho : Own sb s) : Own sb s' := by
  refine Owned.link ho (by simp [h.free]) h.empty ?_ h.self h.other
  intro c
  constructor
  · rintro ⟨hc, hbit⟩
    rw [h.bits c hc] at hbit
    simpa [hc] using hbit
  · rintro (rfl | ⟨hc, hbit⟩)
    · exact ⟨h.lt, by simp [h.bits c h.lt]⟩
    · exact ⟨hc, by simp [h.bits c hc, hbit]⟩

theorem mapped_eq (h : Linked sb inum sl b s s') :
    mapped sb s' inum = insert sl (mapped sb s inum) := by
  ext sl'
  rw [mem_insert, mem_mapped, mem_mapped]
  by_cases hsl : sl' = sl
  · simp [hsl, h.self]
  · rw [h.other _ fun heq => hsl (congrArg Prod.snd heq)]
    simp [hsl]

theorem grow (h : Linked sb inum sl b s s') : Grow sb inum s s' where
  icache := h.icache
  fields := h.fields
  dinode := h.dinode
  kept q c hq := by
    refine (h.other q ?_).trans hq
    rintro rfl
    rw [h.empty] at hq
    cases hq
  count := by
    have hfree : s'.free sb + 1 = s.free sb := freeCount_mark h.lt h.free h.bits
    have hnot : sl ∉ mapped sb s inum := fun hmem => mem_mapped.mp hmem h.empty
    rw [h.mapped_eq, card_insert_of_notMem hnot]
    omega
  data := h.data
  fresh q c hleaf hnone hsome := by
    by_cases hq : q = (inum, sl)
    · subst q
      obtain rfl : b = c := some.inj (h.self.symm.trans hsome)
      exact h.zero hleaf
    · rw [h.other q hq, hnone] at hsome
      cases hsome

end Linked

/-! ## `bmap` -/

/-- The slot of an element of `addrs`. -/
def addrSlot (i : Fin (NDIRECT + 1)) : Slot :=
  if h : i.val < NDIRECT then .direct ⟨i.val, h⟩ else .indirect

theorem addrSlot_castSucc (i : Fin NDIRECT) : addrSlot i.castSucc = .direct i := dif_pos i.isLt

theorem addrSlot_last : addrSlot (Fin.last NDIRECT) = .indirect := dif_neg (Nat.lt_irrefl _)

theorem slotAddr_addrSlot (ip : Dinode) (d : Disk) (i : Fin (NDIRECT + 1)) :
    ip.slotAddr d (addrSlot i) = ip.addrs i := by
  refine Fin.lastCases ?_ (fun j => ?_) i
  · rw [addrSlot_last]
    rfl
  · rw [addrSlot_castSucc]
    rfl

theorem getUint_zeroBlock (off : ℕ) : getUint zeroBlock off = 0 := by
  apply word_of_zero
  intro i _ _
  unfold peek zeroBlock
  split <;> rfl

/-- Changing one element of `addrs` changes one slot, if a new indirect block
is zero. -/
theorem slotAddr_update (ip : Dinode) {d' : Disk} {sl : Slot} (hsl : sl ≠ addrSlot i)
    (hnew : i = Fin.last NDIRECT → ip.addrs i = 0 ∧ d' a.toNat = zeroBlock)
    (hold : ip.addrs (Fin.last NDIRECT) ≠ 0 →
      d' (ip.addrs (Fin.last NDIRECT)).toNat = d (ip.addrs (Fin.last NDIRECT)).toNat) :
    { ip with addrs := update ip.addrs i a }.slotAddr d' sl =
      ip.slotAddr d sl := by
  cases sl with
  | direct j =>
    refine update_of_ne ?_ _ _
    rintro rfl
    exact hsl (addrSlot_castSucc j).symm
  | indirect =>
    refine update_of_ne ?_ _ _
    rintro rfl
    exact hsl addrSlot_last.symm
  | entry j =>
    by_cases hi : i = Fin.last NDIRECT
    · obtain ⟨hzero, hblock⟩ := hnew hi
      subst i
      simp only [Dinode.slotAddr, update_self, hblock, getUint_zeroBlock, hzero, ite_self, if_true]
    · simp only [Dinode.slotAddr, update_of_ne (Ne.symm hi)]
      split
      · rfl
      next hind => rw [hold hind]

/-- A block number as a reference. -/
def addrRef (a : Uint) : Option ℕ := if a = 0 then none else some a.toNat

theorem addrRef_eq_some_iff {b : ℕ} : addrRef a = some b ↔ a ≠ 0 ∧ a.toNat = b := by
  unfold addrRef
  split
  next h => simp [h]
  next h => simp only [some.injEq, h, not_false_eq_true, true_and, ne_eq]

theorem addrRef_eq_none_iff : addrRef a = none ↔ a = 0 := by
  unfold addrRef
  split
  next h => exact iff_of_true rfl h
  next h => exact iff_of_false (some_ne_none _) h

theorem Locked.ref_eq (h : Locked sb s inum) (sl : Slot) :
    ref sb s (inum, sl) = addrRef ((s.icache inum).slotAddr s.disk sl) := by
  unfold ref addrRef
  simp only [h.inode]
  by_cases hzero : (s.icache inum).slotAddr s.disk sl = 0
  · simp [hzero]
  · rw [if_pos ⟨h.lt, h.type, hzero⟩, if_neg hzero]

theorem Alloc.toNat_ne_zero (h : Alloc sb s a.toNat s') (ho : Own sb s) : a ≠ 0 := by
  rintro rfl
  exact absurd (ho.nmeta_le_of_free h.free) (Nat.not_le.mpr sb.nmeta_pos)

/-- `balloc` does not touch a block that is in use. -/
theorem Alloc.disk_of_ref {b : ℕ} (h : Alloc sb s b s') (ho : Own sb s)
    (hp : ref sb s p = some c) : s'.disk c = s.disk c :=
  h.data c (ho.range hp).1 (ho.ne_of_free h.free hp)

/-- The references of inodes that are not locked by the caller survive. -/
theorem Alloc.ref_of_ne {b : ℕ} (h : Alloc sb s b s₁) (ho : Own sb s) {q : ℕ × Slot}
    (hicache : s'.icache q.1 = s.icache q.1)
    (hdinode : q.1 < sb.ninodes → readDinode sb s'.disk q.1 = readDinode sb s₁.disk q.1)
    (hdisk : ∀ c, ref sb s (q.1, .indirect) = some c → s'.disk c = s₁.disk c) :
    ref sb s' q = ref sb s q := by
  refine ref_congr (fun hq => inode_congr hicache ?_) fun c hc => ?_
  · rw [hdinode hq, h.dinode q.1 hq]
  · rw [hdisk c hc, h.disk_of_ref ho hc]

theorem linked_setAddr (ho : Own sb s) (hl : Locked sb s inum)
    (halloc : Alloc sb s a.toNat s₁) (hzero : (s.icache inum).addrs i = 0) :
    Linked sb inum (addrSlot i) a.toNat s (s₁.setAddr inum i a) := by
  have hicache : ∀ j, j ≠ inum → (s₁.setAddr inum i a).icache j = s.icache j := by
    intro j hj
    exact (update_of_ne hj _ _).trans (congrFun halloc.icache j)
  have hself : (s₁.setAddr inum i a).icache inum =
      { s.icache inum with
        addrs := update (s.icache inum).addrs i a } := by
    refine (update_self _ _ _).trans ?_
    rw [halloc.icache]
  have hl' : Locked sb (s₁.setAddr inum i a) inum := hl.congr (by rw [hself]) (by rw [hself])
  have hempty : ref sb s (inum, addrSlot i) = none := by
    rw [hl.ref_eq, slotAddr_addrSlot, hzero]
    rfl
  refine ⟨hicache, by rw [hself], halloc.dinode, halloc.lt, halloc.free,
    halloc.bits, hempty, ?_, ?_, fun q c _ hq => halloc.disk_of_ref ho hq,
    fun _ => halloc.zero⟩
  · rw [hl'.ref_eq, slotAddr_addrSlot, hself]
    dsimp only
    rw [update_self]
    exact if_neg (halloc.toNat_ne_zero ho)
  · rintro ⟨j, sl⟩ hq
    by_cases hj : j = inum
    · subst j
      rw [hl'.ref_eq, hl.ref_eq, hself]
      congr 1
      refine slotAddr_update _ (fun heq => hq (by rw [heq])) ?_ ?_
      · rintro rfl
        exact ⟨hzero, halloc.zero⟩
      · intro hind
        apply halloc.disk_of_ref ho (p := (inum, .indirect))
        rw [hl.ref_eq]
        exact if_neg hind
    · exact halloc.ref_of_ne ho (hicache j hj) (fun _ => rfl) fun _ _ => rfl

/-- What `bmap` and its parts do: the slots `T` are the only ones that were
filled, and `sl` holds the block that is returned. -/
structure Mapped (sb : Superblock) (inum : ℕ) (T : Finset Slot) (sl : Slot)
    (a : Uint) (s s' : State) : Prop where
  own : Own sb s'
  grow : Grow sb inum s s'
  filled : mapped sb s' inum ⊆ mapped sb s inum ∪ T
  self : ref sb s' (inum, sl) = some a.toNat

theorem Linked.mapped {sl : Slot} (h : Linked sb inum sl a.toNat s s') (ho : Own sb s) :
    Mapped sb inum {sl} sl a s s' where
  own := h.own ho
  grow := h.grow
  filled := by rw [h.mapped_eq, insert_eq, union_comm]
  self := h.self

/-- The slot was filled already. -/
theorem Mapped.of_ref {sl : Slot} (ho : Own sb s) (href : ref sb s (inum, sl) = some a.toNat) :
    Mapped sb inum {sl} sl a s s where
  own := ho
  grow := Grow.refl sb inum s
  filled := subset_union_left
  self := href

/-- Without a free block an empty slot cannot be filled. -/
theorem free_lt_of_balloc_error {sl : Slot} (herr : balloc sb s = .error e)
    (hempty : ref sb s (inum, sl) = none) :
    e = .ballocOutOfBlocks ∧ s.free sb < (({sl} : Finset Slot) \ mapped sb s inum).card := by
  obtain ⟨he, hfull⟩ := balloc_error herr
  refine ⟨he, ?_⟩
  have hfree : s.free sb = 0 := by
    apply Nat.eq_zero_of_not_pos
    intro hpos
    obtain ⟨b, hb, hbit⟩ := exists_free_of_freeCount_pos hpos
    rw [hfull b hb] at hbit
    cases hbit
  have hnot : sl ∉ mapped sb s inum := fun hmem => mem_mapped.mp hmem hempty
  rw [hfree, sdiff_eq_self_of_disjoint (disjoint_singleton_left.mpr hnot), card_singleton]
  exact Nat.zero_lt_one

theorem ensureAddr_ok (ho : Own sb s) (hl : Locked sb s inum)
    (hok : ensureAddr sb s inum i = .ok (a, s')) :
    Mapped sb inum {addrSlot i} (addrSlot i) a s s' := by
  unfold ensureAddr at hok
  dsimp only at hok
  split at hok
  next hzero =>
    obtain ⟨⟨b, s₁⟩, hb, hok⟩ := bind_eq_ok_iff.mp hok
    cases hok
    exact (linked_setAddr ho hl (balloc_ok ho hb) hzero).mapped ho
  next hne =>
    cases hok
    apply Mapped.of_ref ho
    rw [hl.ref_eq, slotAddr_addrSlot]
    exact if_neg hne

theorem ensureAddr_error (hl : Locked sb s inum) (herr : ensureAddr sb s inum i = .error e) :
    e = .ballocOutOfBlocks ∧
      s.free sb < (({addrSlot i} : Finset Slot) \ mapped sb s inum).card := by
  unfold ensureAddr at herr
  dsimp only at herr
  split at herr
  next hzero =>
    rcases bind_eq_error_iff.mp herr with hb | ⟨r, -, herr⟩
    · apply free_lt_of_balloc_error hb
      rw [hl.ref_eq, slotAddr_addrSlot, hzero]
      rfl
    · cases herr
  next hne => cases herr

/-- The slot of file block `bn`. -/
def slotOf (bn : ℕ) : Slot :=
  if h : bn < NDIRECT then .direct ⟨bn, h⟩
  else .entry ⟨(bn - NDIRECT) % NINDIRECT, Nat.mod_lt _ (by decide)⟩

/-- The slots that `bmap` may fill for file block `bn`. -/
def touched (bn : ℕ) : Finset Slot := if bn < NDIRECT then {slotOf bn} else {.indirect, slotOf bn}

theorem slotOf_ne_indirect (bn : ℕ) : slotOf bn ≠ .indirect := by
  unfold slotOf
  split <;> simp

theorem slotOf_injOn {bn' : ℕ} (hbn : bn < MAXFILE) (hbn' : bn' < MAXFILE)
    (h : slotOf bn = slotOf bn') : bn = bn' := by
  have hmax : MAXFILE = NDIRECT + NINDIRECT := rfl
  unfold slotOf at h
  split at h <;> split at h
  · simpa using h
  · cases h
  · cases h
  next h₁ h₂ =>
    have hval := congrArg Fin.val (Slot.entry.inj h)
    dsimp only at hval
    rw [Nat.mod_eq_of_lt (by omega), Nat.mod_eq_of_lt (by omega)] at hval
    omega

theorem addrSlot_addrIndex (h : bn < NDIRECT) : addrSlot (addrIndex bn) = slotOf bn := by
  have hval : (addrIndex bn).val = bn := Nat.mod_eq_of_lt (Nat.lt_succ_of_lt h)
  unfold addrSlot slotOf
  simp only [hval, dif_pos h]

/-- The indirect block of a locked inode. -/
theorem Locked.addrs_last (h : Locked sb s inum)
    (href : ref sb s (inum, .indirect) = some a.toNat) :
    (s.icache inum).addrs (Fin.last NDIRECT) = a ∧ a ≠ 0 := by
  rw [h.ref_eq, addrRef_eq_some_iff] at href
  have heq : (s.icache inum).addrs (Fin.last NDIRECT) = a := BitVec.eq_of_toNat_eq href.2
  exact ⟨heq, heq ▸ href.1⟩

theorem Locked.ref_entry (h : Locked sb s inum)
    (href : ref sb s (inum, .indirect) = some a.toNat) (j : Fin NINDIRECT) :
    ref sb s (inum, .entry j) =
      addrRef (getUint (s.disk a.toNat) (4 * j.val)) := by
  obtain ⟨haddr, hne⟩ := h.addrs_last href
  rw [h.ref_eq]
  simp only [Dinode.slotAddr, haddr, if_neg hne]

/-- The assignment `a[j] = addr` in the indirect block, after `balloc`. -/
theorem linked_entry {b : Uint} {j : Fin NINDIRECT} (ho : Own sb s)
    (hl : Locked sb s inum) (hind : ref sb s (inum, .indirect) = some a.toNat)
    (halloc : Alloc sb s b.toNat s₁) (hzero : getUint (s.disk a.toNat) (4 * j.val) = 0)
    (hicache : s'.icache = s₁.icache)
    (hdisk : s'.disk = putBlock s₁.disk a.toNat (setUint (s₁.disk a.toNat) (4 * j.val)
      b)) : Linked sb inum (.entry j) b.toNat s s' := by
  have hicache : s'.icache = s.icache := hicache.trans halloc.icache
  have hmeta := (ho.range hind).1
  have hab : a.toNat ≠ b.toNat := ho.ne_of_free halloc.free hind
  have hl' : Locked sb s' inum := ⟨hl.lt, hicache ▸ hl.valid, hicache ▸ hl.type⟩
  have hind' : ref sb s' (inum, .indirect) = some a.toNat := by
    rw [hl'.ref_eq, hicache, ← hind, hl.ref_eq]
    rfl
  have hblock : s'.disk a.toNat = setUint (s.disk a.toNat) (4 * j.val) b := by
    rw [hdisk, putBlock_self, halloc.disk_of_ref ho hind]
  have hdinode : ∀ i < sb.ninodes, readDinode sb s'.disk i = readDinode sb s₁.disk i := by
    intro i hi
    rw [hdisk, readDinode_putBlock _ hi hmeta]
  have hother : ∀ c, c ≠ a.toNat → s'.disk c = s₁.disk c := by
    intro c hc
    rw [hdisk, putBlock_of_ne _ _ hc]
  have hentry : 4 * j.val + 4 ≤ BSIZE := by
    have hj : j.val < BSIZE / 4 := j.isLt
    omega
  refine ⟨fun i _ => congrFun hicache i, by rw [hicache], ?_, halloc.lt,
    halloc.free, ?_, ?_, ?_, ?_, ?_, ?_⟩
  · exact fun i hi => (hdinode i hi).trans (halloc.dinode i hi)
  · intro c hc
    rw [hdisk, bit_putBlock _ hc hmeta, halloc.bits c hc]
  · rw [hl.ref_entry hind, hzero]
    rfl
  · rw [hl'.ref_entry hind', hblock]
    rw [getUint_setUint_self hentry]
    exact if_neg (halloc.toNat_ne_zero ho)
  · rintro ⟨i, sl⟩ hq
    by_cases hi : i = inum
    · subst i
      cases sl with
      | direct k =>
        rw [hl'.ref_eq, hl.ref_eq, hicache]
        rfl
      | indirect => rw [hind', hind]
      | entry k =>
        have hk : k.val ≠ j.val := fun heq => hq (by rw [Fin.ext heq])
        rw [hl'.ref_entry hind', hl.ref_entry hind, hblock]
        congr 1
        exact getUint_setUint_of_disjoint (by omega)
    · apply halloc.ref_of_ne ho (congrFun hicache i) (hdinode i)
      intro c hc
      apply hother c
      rintro rfl
      exact hi (congrArg Prod.fst (ho.unique _ _ _ hc hind))
  · intro q c hleaf hq
    rw [hother c, halloc.disk_of_ref ho hq]
    rintro rfl
    exact hleaf (congrArg Prod.snd (ho.unique _ _ _ hq hind))
  · intro _
    rw [hother _ hab.symm, halloc.zero]

theorem Mapped.trans {T' : Finset Slot} {sl sl' : Slot} {a' : Uint}
    (h : Mapped sb inum T sl a s s₁) (h' : Mapped sb inum T' sl' a' s₁ s') :
    Mapped sb inum (T ∪ T') sl' a' s s' where
  own := h'.own
  grow := h.grow.trans h'.grow
  filled := by
    rw [← union_assoc]
    exact h'.filled.trans (union_subset_union_left h.filled)
  self := h'.self

theorem slotOf_indirect (hbn : ¬ bn < NDIRECT) (h : bn - NDIRECT < NINDIRECT) :
    slotOf bn = .entry ⟨bn - NDIRECT, h⟩ := by
  unfold slotOf
  rw [dif_neg hbn]
  congr 1
  exact Fin.ext (Nat.mod_eq_of_lt h)

theorem bmap_ok (ho : Own sb s) (hl : Locked sb s inum) (hok : bmap sb s inum bn = .ok (a, s')) :
    Mapped sb inum (touched bn) (slotOf bn) a s s' := by
  unfold bmap at hok
  split at hok
  next hbn =>
    rw [touched, if_pos hbn, ← addrSlot_addrIndex hbn]
    exact ensureAddr_ok ho hl hok
  next hbn =>
    split at hok
    next hlt =>
      obtain ⟨⟨c, s₁⟩, hens, hok⟩ := bind_eq_ok_iff.mp hok
      have hfirst := ensureAddr_ok ho hl hens
      rw [addrSlot_last] at hfirst
      have hl₁ := hfirst.grow.locked hl
      rw [touched, if_neg hbn, slotOf_indirect hbn hlt, insert_eq]
      apply hfirst.trans
      dsimp only at hok
      split at hok
      next hzero =>
        obtain ⟨⟨b, s₂⟩, hb, hok⟩ := bind_eq_ok_iff.mp hok
        obtain ⟨rfl, rfl⟩ := Prod.mk.inj (Except.ok.inj hok)
        refine Linked.mapped ?_ hfirst.own
        exact linked_entry (j := ⟨bn - NDIRECT, hlt⟩) hfirst.own hl₁
          hfirst.self (balloc_ok hfirst.own hb) hzero rfl rfl
      next hne =>
        cases hok
        apply Mapped.of_ref hfirst.own
        rw [hl₁.ref_entry hfirst.self]
        exact if_neg hne
    next => cases hok

/-- Within the maximal size of a file, `bmap` can only run out of blocks. -/
theorem bmap_error (ho : Own sb s) (hl : Locked sb s inum) (hbn : bn < MAXFILE)
    (herr : bmap sb s inum bn = .error e) :
    e = .ballocOutOfBlocks ∧ s.free sb < (touched bn \ mapped sb s inum).card := by
  unfold bmap at herr
  split at herr
  next hdirect =>
    rw [touched, if_pos hdirect, ← addrSlot_addrIndex hdirect]
    exact ensureAddr_error hl herr
  next hdirect =>
    have hlt : bn - NDIRECT < NINDIRECT := by
      have : MAXFILE = NDIRECT + NINDIRECT := rfl
      omega
    have htouched : touched bn = {.indirect, .entry ⟨bn - NDIRECT, hlt⟩} := by
      rw [touched, if_neg hdirect, slotOf_indirect hdirect hlt]
    rw [if_pos hlt] at herr
    rcases bind_eq_error_iff.mp herr with hens | ⟨⟨c, s₁⟩, hens, herr⟩
    · obtain ⟨he, hfree⟩ := ensureAddr_error hl hens
      rw [addrSlot_last] at hfree
      refine ⟨he, hfree.trans_le (card_le_card ?_)⟩
      refine sdiff_subset_sdiff ?_ (Finset.Subset.refl _)
      simp [htouched]
    · have hfirst := ensureAddr_ok ho hl hens
      rw [addrSlot_last] at hfirst
      have hl₁ := hfirst.grow.locked hl
      dsimp only at herr
      split at herr
      next hzero =>
        have hempty : ref sb s₁ (inum, .entry ⟨bn - NDIRECT, hlt⟩) = none := by
          rw [hl₁.ref_entry hfirst.self, hzero]
          rfl
        rcases bind_eq_error_iff.mp herr with hb | ⟨r, -, herr⟩
        · obtain ⟨he, hfree⟩ := free_lt_of_balloc_error hb hempty
          refine ⟨he, hfirst.grow.free_lt ?_ (hfree.trans_le (card_le_card ?_))⟩
          · refine hfirst.filled.trans (union_subset_union_right ?_)
            simp [htouched]
          · refine sdiff_subset_sdiff ?_ (Finset.Subset.refl _)
            simp [htouched]
        · cases herr
      next hne => cases herr

theorem ensureAddr_of_ref {b : ℕ} (hl : Locked sb s inum)
    (href : ref sb s (inum, addrSlot i) = some b) :
    ∃ a : Uint, a.toNat = b ∧ ensureAddr sb s inum i = .ok (a, s) := by
  rw [hl.ref_eq, slotAddr_addrSlot, addrRef_eq_some_iff] at href
  refine ⟨_, href.2, ?_⟩
  unfold ensureAddr
  dsimp only
  rw [if_neg href.1]
  rfl

/-- A block that is mapped is found, and nothing changes. -/
theorem bmap_of_ref {b : ℕ} (hl : Locked sb s inum) (hbn : bn < MAXFILE)
    (href : ref sb s (inum, slotOf bn) = some b) :
    ∃ a : Uint, a.toNat = b ∧ bmap sb s inum bn = .ok (a, s) := by
  unfold bmap
  by_cases hdirect : bn < NDIRECT
  · rw [if_pos hdirect]
    rw [← addrSlot_addrIndex hdirect] at href
    exact ensureAddr_of_ref hl href
  · have hlt : bn - NDIRECT < NINDIRECT := by
      have : MAXFILE = NDIRECT + NINDIRECT := rfl
      omega
    rw [slotOf_indirect hdirect hlt] at href
    -- An entry is only there if the indirect block is.
    have hind : ref sb s (inum, addrSlot (Fin.last NDIRECT)) =
        some ((s.icache inum).addrs (Fin.last NDIRECT)).toNat := by
      rw [hl.ref_eq, addrRef_eq_some_iff] at href
      rw [hl.ref_eq, slotAddr_addrSlot, addrRef_eq_some_iff]
      refine ⟨fun hzero => href.1 ?_, rfl⟩
      simp only [Dinode.slotAddr, hzero, if_true]
    obtain ⟨c, hc, hens⟩ := ensureAddr_of_ref hl hind
    rw [addrSlot_last, ← hc] at hind
    rw [hl.ref_entry hind, addrRef_eq_some_iff] at href
    refine ⟨_, href.2, ?_⟩
    rw [if_neg hdirect, if_pos hlt, hens]
    simp only [bind, Except.bind]
    rw [if_neg href.1]
    rfl

/-! ## Writing to a block of a file -/

/-- Storing data in a block of a file changes no reference. -/
theorem ref_putData {b : ℕ} (ho : Own sb s) (hp : ref sb s p = some b)
    (hleaf : p.2 ≠ .indirect) (hicache : s'.icache = s.icache)
    (hdisk : ∃ data, s'.disk = putBlock s.disk b data) (q : ℕ × Slot) :
    ref sb s' q = ref sb s q := by
  obtain ⟨data, hdisk⟩ := hdisk
  refine ref_congr (fun hq => inode_congr (congrFun hicache _) ?_) fun c hc => ?_
  · rw [hdisk, readDinode_putBlock _ hq (ho.range hp).1]
  · rw [hdisk]
    apply putBlock_of_ne _ _
    rintro rfl
    exact hleaf (congrArg Prod.snd (ho.unique _ _ _ hp hc))

theorem mapped_congr (h : ∀ q, ref sb s' q = ref sb s q) :
    mapped sb s' inum = mapped sb s inum := by
  unfold mapped
  simp only [h]

theorem own_of_views (ho : Own sb s) (hbits : ∀ c < sb.size, bit sb s'.disk c = bit sb s.disk c)
    (href : ∀ q, ref sb s' q = ref sb s q) : Own sb s' := by
  refine Owned.congr ho (fun c => ?_) href
  constructor
  · rintro ⟨hc, hbit⟩
    exact ⟨hc, hbits c hc ▸ hbit⟩
  · rintro ⟨hc, hbit⟩
    exact ⟨hc, (hbits c hc).trans hbit⟩

theorem own_putData {b : ℕ} (ho : Own sb s) (hp : ref sb s p = some b)
    (hleaf : p.2 ≠ .indirect) (hicache : s'.icache = s.icache)
    (hdisk : ∃ data, s'.disk = putBlock s.disk b data) : Own sb s' := by
  refine own_of_views ho (fun c hc => ?_) (ref_putData ho hp hleaf hicache hdisk)
  obtain ⟨data, hdisk⟩ := hdisk
  rw [hdisk, bit_putBlock _ hc (ho.range hp).1]

theorem extend_putData {b : ℕ} (ho : Own sb s) (hp : ref sb s p = some b)
    (hleaf : p.2 ≠ .indirect) (hicache : s'.icache = s.icache)
    (hdisk : ∃ data, s'.disk = putBlock s.disk b data) : Extend sb inum s s' := by
  have href := ref_putData ho hp hleaf hicache hdisk
  obtain ⟨data, hdisk⟩ := hdisk
  have hmeta := (ho.range hp).1
  refine ⟨fun i _ => congrFun hicache i, by rw [hicache], ?_, ?_, ?_⟩
  · intro i hi
    rw [hdisk, readDinode_putBlock _ hi hmeta]
  · intro q c hq
    rw [href, hq]
  · have hfree : s'.free sb = s.free sb :=
      freeCount_congr fun c hc => by rw [hdisk, bit_putBlock _ hc hmeta]
    rw [hfree, mapped_congr href]

end OsCa.Fs
