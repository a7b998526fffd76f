import OsCa.Kernel.Fs.Invariant

/-!
# Files are byte arrays

The purpose of the inode layer: a file is a finite sequence of bytes, a write
replaces a range of it and may make it longer, and a read returns a range.
This module states that on lists of bytes, and proves that `writei` and `readi`
implement it on every consistent file system without holes.
-/

namespace OsCa.Fs

open Bytes Fallible List

variable {off i src n dst : ℕ} {mem : Memory} {userSrc userDst : Bool}

/-! ## Byte arrays -/

abbrev File := List Byte

namespace File

/-- Replace the bytes from `off` on by `bytes`. -/
def write (f : File) (off : ℕ) (bytes : List Byte) : File :=
  f.take off ++ bytes ++ f.drop (off + bytes.length)

/-- The bytes of the range `[off, off + n)`, as far as they exist. -/
def read (f : File) (off n : ℕ) : List Byte := (f.drop off).take n

theorem length_read (f : File) (off n : ℕ) : (read f off n).length = min n (f.length - off) := by
  simp [read]

theorem getElem?_write {f : File} {bytes : List Byte} (h : off ≤ f.length) (o : ℕ) :
    (write f off bytes)[o]? =
      if off ≤ o ∧ o < off + bytes.length then bytes[o - off]? else f[o]? := by
  unfold write
  have hlen : (f.take off).length = off := by
    rw [length_take]
    omega
  by_cases hlo : o < off
  · rw [if_neg (by omega), append_assoc, getElem?_append_left (by omega), getElem?_take_of_lt hlo]
  · rw [append_assoc, getElem?_append_right (by omega), hlen]
    by_cases hhi : o < off + bytes.length
    · rw [if_pos ⟨by omega, hhi⟩, getElem?_append_left (by omega)]
    · rw [if_neg (by omega), getElem?_append_right (by omega), getElem?_drop]
      congr 1
      omega

end File

/-- The bytes of a range of memory. -/
def Memory.bytes (mem : Memory) (addr len : ℕ) : List Byte :=
  (range len).map fun i => mem.byte (addr + i)

/-- Store a list of bytes in memory. -/
def Memory.store (mem : Memory) (addr : ℕ) (bytes : List Byte) : Memory :=
  mem.write addr bytes.length fun i => bytes.getD i 0

theorem Memory.length_bytes (mem : Memory) (addr len : ℕ) : (mem.bytes addr len).length = len := by
  simp [Memory.bytes]

theorem Memory.getD_bytes (mem : Memory) {addr len : ℕ} (hi : i < len) :
    (mem.bytes addr len).getD i 0 = mem.byte (addr + i) := by
  unfold Memory.bytes
  rw [getD_eq_getElem?_getD, getElem?_map, getElem?_range hi]
  rfl

/-! ## The contents of an inode -/

variable {sb : Superblock} {s s' : State} {inum : ℕ}

def content (sb : Superblock) (s : State) (i : ℕ) : File :=
  (range (s.inode sb i).size.toNat).map (fileByte sb s i)

theorem length_content (i : ℕ) : (content sb s i).length = (s.inode sb i).size.toNat := by
  simp [content]

theorem getElem?_content (i o : ℕ) :
    (content sb s i)[o]? = if o < (s.inode sb i).size.toNat then some (fileByte sb s i o)
      else none := by
  unfold content
  rw [getElem?_map]
  split
  next h => rw [getElem?_range h]; rfl
  next h => rw [getElem?_eq_none (by simpa using h)]; rfl

theorem content_congr (hsize : (s'.inode sb i).size = (s.inode sb i).size)
    (hbytes : ∀ o, fileByte sb s' i o = fileByte sb s i o) :
    content sb s' i = content sb s i := by
  unfold content
  rw [hsize, funext hbytes]

/-- The inode has a new size and new bytes in one range. -/
theorem content_eq_write (hoff : off ≤ (s.inode sb i).size.toNat)
    (hsize : (s'.inode sb i).size.toNat = max (s.inode sb i).size.toNat (off + n))
    (hin : ∀ o, off ≤ o → o < off + n → fileByte sb s' i o = mem.byte (src + (o - off)))
    (hout : ∀ o, o < off ∨ off + n ≤ o → fileByte sb s' i o = fileByte sb s i o) :
    content sb s' i =
      File.write (content sb s i) off (mem.bytes src n) := by
  have hlen := mem.length_bytes src n
  refine ext_getElem? fun o => ?_
  rw [getElem?_content, File.getElem?_write (by rwa [length_content]),
    getElem?_content, hlen, hsize]
  by_cases hmem : off ≤ o ∧ o < off + n
  · rw [if_pos (by omega), if_pos hmem, hin o hmem.1 hmem.2, Memory.bytes,
      getElem?_map, getElem?_range (by omega)]
    rfl
  · rw [if_neg hmem, hout o (by omega)]
    by_cases ho : o < (s.inode sb i).size.toNat
    · rw [if_pos (by omega), if_pos ho]
    · rw [if_neg (by omega), if_neg ho]

/-- Every block below the size of an inode is mapped. -/
def NoHoles (sb : Superblock) (s : State) : Prop :=
  ∀ i < sb.ninodes, (s.inode sb i).type ≠ 0 → ∀ o < (s.inode sb i).size.toNat,
      o / BSIZE < MAXFILE ∧ slotOf (o / BSIZE) ∈ mapped sb s i

theorem NoHoles.size_le (h : NoHoles sb s) (hi : i < sb.ninodes) (htype : (s.inode sb i).type ≠ 0) :
    (s.inode sb i).size.toNat ≤ MAXFILE * BSIZE := by
  rcases Nat.eq_zero_or_pos (s.inode sb i).size.toNat with hz | hpos
  · rw [hz]
    exact Nat.zero_le _
  · have hlast := (h i hi htype ((s.inode sb i).size.toNat - 1) (Nat.sub_one_lt (by omega))).1
    rw [Nat.div_lt_iff_lt_mul (by decide)] at hlast
    omega

/-! ## Writing -/

/-- What a successful `writei` of `n` bytes at `off` does. -/
structure Wrote (sb : Superblock) (inum : ℕ) (mem : Memory) (src off n : ℕ)
    (s s' : State) : Prop where
  consistent : Consistent sb s'
  locked : Locked sb s' inum
  size : (s'.inode sb inum).size.toNat = max (s.inode sb inum).size.toNat (off + n)
  inode : ∀ i < sb.ninodes, i ≠ inum → s'.inode sb i = s.inode sb i
  kept : ∀ p b, ref sb s p = some b → ref sb s' p = some b
  filled : ∀ o, off ≤ o → o < off + n → slotOf (o / BSIZE) ∈ mapped sb s' inum
  bytes : ∀ o, off ≤ o → o < off + n → fileByte sb s' inum o = mem.byte (src + (o - off))
  outside : ∀ i o, i ≠ inum ∨ o < off ∨ off + n ≤ o → fileByte sb s' i o = fileByte sb s i o

/-- The bytes of an inode depend on its blocks only. -/
theorem fileByte_of_blocks (href : ∀ sl, ref sb s' (i, sl) = ref sb s (i, sl))
    (hdata : ∀ sl b, ref sb s (i, sl) = some b → s'.disk b = s.disk b) (o : ℕ) :
    fileByte sb s' i o = fileByte sb s i o := by
  have hblock : blockOf sb s' i (o / BSIZE) = blockOf sb s i (o / BSIZE) := by
    simp only [blockOf, href]
  cases hold : blockOf sb s i (o / BSIZE) with
  | none => rw [fileByte_of_none hold, fileByte_of_none (hblock.trans hold)]
  | some b =>
    have hb : ref sb s (i, slotOf (o / BSIZE)) = some b := by
      unfold blockOf at hold
      split at hold
      next => exact hold
      next => cases hold
    rw [fileByte_of_some hold, fileByte_of_some (hblock.trans hold), hdata _ _ hb]

theorem fileByte_congr (ho : Own sb s) (href : ∀ q, ref sb s' q = ref sb s q)
    (hdata : ∀ c, sb.nmeta ≤ c → s'.disk c = s.disk c) (i o : ℕ) :
    fileByte sb s' i o = fileByte sb s i o :=
  fileByte_of_blocks (fun _ => href _) (fun _ b hb => hdata b (ho.range hb).1) o

theorem grownSize_toNat {size : Uint} (h : off < 2 ^ 32) :
    (grownSize size off).toNat = max size.toNat off := by
  unfold grownSize
  split
  · rw [BitVec.toNat_ofNat, Nat.mod_eq_of_lt h]
    omega
  · omega

theorem wrote_of_written {s₁ : State} (hl : Locked sb s inum) (hacc : Accepted s inum off n)
    (hw : Written sb inum mem src off n true (off + n) s s₁)
    (hconsistent : Consistent sb s')
    (hend : Committed sb inum (off + n) s₁ s' ∨ n = 0 ∧ s' = s₁) :
    Wrote sb inum mem src off n s s' := by
  have hl₁ := hw.extend.locked hl
  have hmax : off + n < 2 ^ 32 := hacc.2.trans_lt (by decide)
  have hsize₁ : (s₁.icache inum).size = (s.icache inum).size := by rw [hw.extend.fields]
  rcases hend with hc | ⟨rfl, rfl⟩
  · have hl' : Locked sb s' inum := by
      refine ⟨hl.lt, ?_, ?_⟩ <;> rw [hc.self]
      · exact hl₁.valid
      · exact hl₁.type
    have hbyte := fileByte_congr hw.own hc.ref hc.data
    refine ⟨hconsistent, hl', ?_, ?_, ?_, ?_, ?_, ?_⟩
    · rw [hl'.inode, hl.inode, hc.self]
      dsimp only
      rw [grownSize_toNat hmax, hsize₁]
    · intro i hi hne
      rw [← hw.extend.inode_of_ne hne hi]
      unfold State.inode
      rw [hc.icache i hne, hc.dinode i hi hne]
    · intro p b hp
      rw [hc.ref, hw.extend.kept p b hp]
    · intro o hlo hhi
      rw [mapped_congr hc.ref]
      exact hw.filled o hlo hhi
    · intro o hlo hhi
      rw [hbyte, hw.bytes o hlo hhi]
    · intro i o hio
      rw [hbyte, hw.outside i o hio]
  · refine ⟨hconsistent, hl₁, ?_, ?_, hw.extend.kept, hw.filled, hw.bytes, hw.outside⟩
    · have := hacc.1
      rw [hl₁.inode, hl.inode, hsize₁]
      omega
    · exact fun i hi hne => hw.extend.inode_of_ne hne hi

theorem asInt_of_lt (h : n < 2 ^ 31) : asInt n = n := by
  unfold asInt
  rw [BitVec.toInt_eq_toNat_of_lt]
  · rw [BitVec.toNat_ofNat, Nat.mod_eq_of_lt (by omega)]
  · rw [BitVec.toNat_ofNat, Nat.mod_eq_of_lt (by omega)]
    omega

/-- If the inode holds a file block, it holds all slots that lead to it. -/
theorem touched_subset_mapped {bn : ℕ} (hl : Locked sb s inum)
    (h : slotOf bn ∈ mapped sb s inum) : touched bn ⊆ mapped sb s inum := by
  unfold touched
  split
  next => exact Finset.singleton_subset_iff.mpr h
  next hbn =>
    refine Finset.insert_subset (mem_mapped.mpr fun hnone => ?_) (Finset.singleton_subset_iff.mpr h)
    have hzero : (s.icache inum).addrs (Fin.last NDIRECT) = 0 := by
      rw [hl.ref_eq] at hnone
      exact addrRef_eq_none_iff.mp hnone
    apply mem_mapped.mp h
    rw [hl.ref_eq, slotOf, dif_neg hbn]
    simp [Dinode.slotAddr, hzero, addrRef]

/-- A write that succeeds had enough free blocks for the slots it filled. -/
theorem Written.enough (hl : Locked sb s inum)
    (hw : Written sb inum mem src off n true (off + n) s s') :
    (touchedRange off n \ mapped sb s inum).card ≤ s.free sb := by
  have hsub : touchedRange off n ⊆ mapped sb s' inum := by
    apply Finset.biUnion_subset.mpr
    intro k hk
    rw [Finset.mem_range] at hk
    exact touched_subset_mapped (hw.extend.locked hl)
      (hw.filled _ (Nat.le_add_right _ _) (by omega))
  have hcount := hw.extend.count
  have hunion := Finset.card_sdiff_add_card (touchedRange off n) (mapped sb s inum)
  have hcard := Finset.card_le_card (Finset.union_subset hsub hw.extend.mapped_subset)
  omega

section

variable (h : Consistent sb s) (hl : Locked sb s inum) (hacc : Accepted s inum off n)
  (hsrc : userSrc = true → Readable mem src n)

include h hl hacc hsrc

theorem wrote_of_writei {r : ℤ} (hrun : writei sb s inum userSrc mem src off n = .ok (r, s')) :
    r = n ∧ Wrote sb inum mem src off n s s' ∧
      (touchedRange off n \ mapped sb s inum).card ≤ s.free sb := by
  obtain ⟨ok, off', s₁, hw, hread, hr, hconsistent, hend⟩ := writei_ok h hl hacc hrun
  obtain rfl := hread hsrc
  obtain rfl := hw.done rfl
  refine ⟨?_, wrote_of_written hl hacc hw hconsistent hend, hw.enough hl⟩
  have hmax : MAXFILE * BSIZE < 2 ^ 31 := by decide
  rw [hr, if_pos rfl, asInt_of_lt (by have := hacc.2; omega)]

/-- A write within the maximal file size succeeds if there are enough free
blocks. -/
theorem writei_enough (hroom : (touchedRange off n \ mapped sb s inum).card ≤ s.free sb) :
    ∃ s', writei sb s inum userSrc mem src off n = .ok (n, s') ∧
      Wrote sb inum mem src off n s s' := by
  cases hrun : writei sb s inum userSrc mem src off n with
  | error e =>
    have hfree := (writei_error h hl hacc hrun).2
    exact absurd hroom (Nat.not_le.mpr hfree)
  | ok res =>
    obtain ⟨r, s'⟩ := res
    obtain ⟨rfl, hw, -⟩ := wrote_of_writei h hl hacc hsrc hrun
    exact ⟨s', rfl, hw⟩

/-- It panics if there are not. -/
theorem writei_short (hshort : s.free sb < (touchedRange off n \ mapped sb s inum).card) :
    writei sb s inum userSrc mem src off n = .error .ballocOutOfBlocks := by
  cases hrun : writei sb s inum userSrc mem src off n with
  | error e => rw [(writei_error h hl hacc hrun).1]
  | ok res =>
    have hroom := (wrote_of_writei h hl hacc hsrc hrun).2.2
    exact absurd hroom (Nat.not_le.mpr hshort)

end

theorem mem_mapped_of_kept (hkept : ∀ p b, ref sb s p = some b → ref sb s' p = some b)
    {sl : Slot} (h : sl ∈ mapped sb s i) : sl ∈ mapped sb s' i := by
  rw [mem_mapped, Option.ne_none_iff_exists'] at h ⊢
  obtain ⟨b, hb⟩ := h
  exact ⟨b, hkept _ _ hb⟩

/-- A file that grows by blocks that are mapped up to its new end has no hole
afterwards. -/
theorem NoHoles.grow (h : NoHoles sb s) (hl : Locked sb s inum) {e : ℕ}
    (hoff : off ≤ (s.icache inum).size.toNat) (hmax : e ≤ MAXFILE * BSIZE)
    (hkept : ∀ p b, ref sb s p = some b → ref sb s' p = some b)
    (hinode : ∀ i < sb.ninodes, i ≠ inum → s'.inode sb i = s.inode sb i)
    (hsize : (s'.inode sb inum).size.toNat ≤ max (s.icache inum).size.toNat e)
    (hfilled : ∀ o, off ≤ o → o < e → slotOf (o / BSIZE) ∈ mapped sb s' inum) :
    NoHoles sb s' := by
  intro i hi htype o ho
  by_cases hne : i = inum
  · subst i
    by_cases hnew : off ≤ o ∧ o < e
    · refine ⟨Nat.div_lt_of_lt_mul ?_, hfilled o hnew.1 hnew.2⟩
      rw [Nat.mul_comm]
      omega
    · have hold := h inum hi (by rw [hl.inode]; exact hl.type) o (by rw [hl.inode]; omega)
      exact ⟨hold.1, mem_mapped_of_kept hkept hold.2⟩
  · rw [hinode i hi hne] at htype ho
    have hold := h i hi htype o ho
    exact ⟨hold.1, mem_mapped_of_kept hkept hold.2⟩

theorem Wrote.noHoles (hw : Wrote sb inum mem src off n s s') (h : NoHoles sb s)
    (hl : Locked sb s inum) (hacc : Accepted s inum off n) : NoHoles sb s' := by
  refine h.grow hl hacc.1 hacc.2 hw.kept hw.inode ?_ hw.filled
  rw [hw.size, hl.inode]

/-! ## Reading -/

/-- Without 32-bit wrap-around, `readi` delivers the requested range as far as
it exists. -/
theorem readi_ok (hl : Locked sb s inum) (hholes : NoHoles sb s) (hwrap : off + n < 2 ^ 32)
    (hdst : userDst = true → Readable mem dst (File.read (content sb s inum) off n).length) :
    readi sb s inum userDst mem dst off n = .ok ((File.read (content sb s inum) off n).length,
        mem.store dst (File.read (content sb s inum) off n), s) := by
  have htype : (s.inode sb inum).type ≠ 0 := by
    rw [hl.inode]
    exact hl.type
  have hsize := hholes.size_le hl.lt htype
  have hlen : (File.read (content sb s inum) off n).length =
      min n ((s.icache inum).size.toNat - off) := by
    rw [File.length_read, length_content, hl.inode]
  rw [hlen] at hdst
  unfold Memory.store
  rw [hlen]
  unfold readi
  dsimp only
  rw [Nat.mod_eq_of_lt hwrap]
  by_cases hoff : off > (s.icache inum).size.toNat
  · rw [if_pos (Or.inl hoff), Nat.sub_eq_zero_of_le hoff.le, Nat.min_zero, Memory.write_zero]
    rfl
  · rw [if_neg (by omega)]
    have hn : (if off + n > (s.icache inum).size.toNat then
        (s.icache inum).size.toNat - off else n) = min n ((s.icache inum).size.toNat - off) := by
      split <;> omega
    rw [hn, readLoop_ok hl _ hdst]
    · simp only [bind, Except.bind, if_true, Nat.sub_zero]
      have hmax : MAXFILE * BSIZE < 2 ^ 31 := by decide
      rw [hl.inode] at hsize
      rw [asInt_of_lt (by omega)]
      refine congrArg (fun m => Except.ok (_, m, s)) (Memory.write_congr fun i hi => ?_)
      have hget : (File.read (content sb s inum) off n)[i]? =
          some (fileByte sb s inum (off + i)) := by
        rw [File.read, getElem?_take_of_lt (by omega),
          getElem?_drop, getElem?_content, hl.inode, if_pos (by omega)]
      rw [getD_eq_getElem?_getD, hget]
      rfl
    · intro o hlo hhi
      rw [Nat.sub_zero] at hhi
      exact hholes inum hl.lt htype o (by rw [hl.inode]; omega)

/-- If `off + n` wraps around, `readi` delivers nothing. -/
theorem readi_wrap {off n : Uint} (hwrap : ¬ off.toNat + n.toNat < 2 ^ 32) :
    readi sb s inum userDst mem dst off.toNat n.toNat = .ok (0, mem, s) := by
  have hoff := off.isLt
  have hn := n.isLt
  unfold readi
  dsimp only
  rw [if_pos (Or.inr (by omega))]
  rfl

/-- A locked inode has the contents it had before `ilock`. -/
theorem content_of_inode_eq (hdisk : s'.disk = s.disk)
    (hinode : ∀ i, s'.inode sb i = s.inode sb i) (i : ℕ) :
    content sb s' i = content sb s i := by
  apply content_congr (by rw [hinode])
  intro o
  unfold fileByte blockOf
  rw [hdisk]
  simp only [ref_of_inode_eq hdisk hinode]

theorem noHoles_of_inode_eq (h : NoHoles sb s) (hdisk : s'.disk = s.disk)
    (hinode : ∀ i, s'.inode sb i = s.inode sb i) : NoHoles sb s' := by
  intro i hi htype o ho
  rw [hinode] at htype ho
  rw [mapped_congr (ref_of_inode_eq hdisk hinode)]
  exact h i hi htype o ho

/-! ## The two together -/

/-- On a consistent file system without holes, a write of `n` bytes to a locked
inode replaces the range `[off, off + n)` of its contents and nothing else, if
there are free blocks for the slots it has to fill, and panics otherwise.
Whatever is read afterwards, from any inode, is the requested range of its
contents; only a range that wraps around reads as empty. -/
theorem files_are_byte_arrays {userSrc : Bool} {mem : Memory} {src off n : ℕ}
    (h : Consistent sb s) (hholes : NoHoles sb s) (hl : Locked sb s inum)
    (hoff : off ≤ (s.icache inum).size.toNat)
    (hmax : off + n ≤ MAXFILE * BSIZE)
    (hsrc : userSrc = true → Readable mem src n) :
    if (touchedRange off n \ mapped sb s inum).card ≤ s.free sb then
      ∃ s', writei sb s inum userSrc mem src off n = .ok (n, s') ∧
        Consistent sb s' ∧ NoHoles sb s' ∧
        content sb s' inum = File.write (content sb s inum) off (mem.bytes src n) ∧
        (∀ i < sb.ninodes, i ≠ inum →
          s'.inode sb i = s.inode sb i ∧ content sb s' i = content sb s i) ∧
        ∀ i < sb.ninodes, ∀ s'', ilock sb s' i = .ok s'' →
          ∀ (userDst : Bool) (mem' : Memory) (dst : ℕ) (off' n' : Uint),
            let bytes := File.read (content sb s' i) off'.toNat n'.toNat
            (userDst = true → Readable mem' dst bytes.length) →
              readi sb s'' i userDst mem' dst off'.toNat n'.toNat =
                if off'.toNat + n'.toNat < 2 ^ 32 then
                  .ok (bytes.length, mem'.store dst bytes, s'')
                else .ok (0, mem', s'')
    else
      writei sb s inum userSrc mem src off n = .error .ballocOutOfBlocks := by
  have hacc : Accepted s inum off n := ⟨hoff, hmax⟩
  split
  next hroom =>
    obtain ⟨s', hrun, hw⟩ := writei_enough h hl hacc hsrc hroom
    have hholes' := hw.noHoles hholes hl hacc
    refine ⟨s', hrun, hw.consistent, hholes', ?_, ?_, ?_⟩
    · rw [← hl.inode] at hoff
      exact content_eq_write hoff hw.size hw.bytes fun o ho => hw.outside inum o (Or.inr ho)
    · intro i hi hne
      have hinode := hw.inode i hi hne
      exact ⟨hinode, content_congr (by rw [hinode]) fun o => hw.outside i o (Or.inl hne)⟩
    · intro i hi s'' hlock userDst mem' dst off' n' bytes hdst
      obtain ⟨-, hl'', hdisk, hinode⟩ := ilock_ok hw.consistent hi hlock
      have hcontent := content_of_inode_eq hdisk hinode i
      split
      next hwrap =>
        simp only [bytes, ← hcontent] at hdst ⊢
        exact readi_ok hl'' (noHoles_of_inode_eq hholes' hdisk hinode) hwrap hdst
      next hwrap => exact readi_wrap hwrap
  next hroom => exact writei_short h hl hacc hsrc (Nat.lt_of_not_le hroom)

/-! ## Disks whose files have one block each -/

/-- A file with one block. -/
structure OneBlock where
  inum : ℕ
  type : Short
  nlink : Short
  size : Uint
  block : Uint
  data : File
  deriving DecidableEq

def OneBlock.toDinode (o : OneBlock) : Dinode :=
  { type := o.type, major := 0, minor := 0, nlink := o.nlink, size := o.size,
    addrs := Function.update (fun _ => 0) (addrIndex 0) o.block }

theorem OneBlock.slotAddr_eq (o : OneBlock) (d : Disk) (sl : Slot) :
    o.toDinode.slotAddr d sl = if sl = slotOf 0 then o.block else 0 := by
  cases sl with
  | direct j =>
    by_cases hj : Slot.direct j = slotOf 0
    · rw [if_pos hj]
      obtain rfl := Slot.direct.inj hj
      rfl
    · rw [if_neg hj]
      have hne : j.castSucc ≠ 0 := fun heq => by
        have hval : j.val = 0 := congrArg Fin.val heq
        exact hj (congrArg Slot.direct (Fin.ext hval))
      change Function.update (fun _ => (0 : Uint)) 0 o.block j.castSucc = 0
      rw [Function.update_of_ne hne]
  | indirect => rfl
  | entry j => rfl

/-- The disk with these files. -/
def plant (sb : Superblock) : List OneBlock → Disk
  | [] => emptyDisk sb
  | o :: l => putBlock (writeDinode sb (markBit sb (plant sb l) o.block.toNat) o.inum
      o.toDinode) o.block.toNat fun j => o.data.getD j.val 0

/-- There is room for the files. -/
structure Fits (sb : Superblock) (l : List OneBlock) : Prop where
  file : ∀ o ∈ l, o.inum < sb.ninodes ∧ o.type ≠ 0 ∧ o.block ≠ 0 ∧
    sb.nmeta ≤ o.block.toNat ∧ o.block.toNat < sb.size ∧
    o.size.toNat ≤ BSIZE ∧ o.data.length = o.size.toNat
  apart : ∀ o ∈ l, ∀ p ∈ l, o.inum = p.inum ∨ o.block.toNat = p.block.toNat → o = p

/-- The files of the state are those of the list. -/
structure Planted (sb : Superblock) (l : List OneBlock) (s : State) : Prop
    extends Fits sb l where
  disk : s.disk = plant sb l
  cache : ∀ i, (s.icache i).valid = true → ∃ o ∈ l, o.inum = i ∧ (s.icache i).toDinode = o.toDinode

section Planted

variable {l : List OneBlock} {o p : OneBlock}

theorem Fits.tail (h : Fits sb (o :: l)) : Fits sb l :=
  ⟨fun p hp => h.file p (mem_cons_of_mem o hp), fun p hp q hq =>
    h.apart p (mem_cons_of_mem o hp) q (mem_cons_of_mem o hq)⟩

theorem readDinode_plant_cases (h : Fits sb l) (hi : i < sb.ninodes) :
    (∃ o ∈ l, o.inum = i ∧ readDinode sb (plant sb l) i = o.toDinode) ∨
      (∀ o ∈ l, o.inum ≠ i) ∧ readDinode sb (plant sb l) i = newDinode 0 := by
  induction l with
  | nil => exact Or.inr ⟨nofun, readDinode_emptyDisk hi⟩
  | cons o l ih =>
    obtain ⟨-, -, -, hb, -⟩ := h.file o mem_cons_self
    rw [plant, readDinode_putBlock _ hi hb, readDinode_writeDinode, readDinode_markBit hi]
    split
    next heq => exact Or.inl ⟨o, mem_cons_self, heq.symm, rfl⟩
    next hne =>
      refine (ih h.tail).imp (fun ⟨p, hp, hread⟩ => ⟨p, mem_cons_of_mem o hp, hread⟩) ?_
      exact And.imp_left fun hall => forall_mem_cons.mpr ⟨Ne.symm hne, hall⟩

theorem readDinode_plant (h : Fits sb l) (ho : o ∈ l) :
    readDinode sb (plant sb l) o.inum = o.toDinode := by
  rcases readDinode_plant_cases h (h.file o ho).1 with ⟨p, hp, heq, hread⟩ | ⟨hnone, -⟩
  · rw [hread, h.apart p hp o ho (Or.inl heq)]
  · exact absurd rfl (hnone o ho)

theorem bit_plant (h : Fits sb l) {c : ℕ} (hc : c < sb.size) :
    bit sb (plant sb l) c = true ↔ c < sb.nmeta ∨ ∃ o ∈ l, o.block.toNat = c := by
  induction l with
  | nil =>
    rw [plant, bit_emptyDisk]
    simp
  | cons o l ih =>
    obtain ⟨hi, -, -, hb, -⟩ := h.file o mem_cons_self
    rw [plant, bit_putBlock _ hc hb, bit_writeDinode _ hi, bit_markBit, Bool.or_eq_true,
      ih h.tail, decide_eq_true_eq, exists_mem_cons_iff, or_left_comm, eq_comm]

theorem plant_block (h : Fits sb l) (ho : o ∈ l) :
    plant sb l o.block.toNat = fun j => o.data.getD j.val 0 := by
  induction l with
  | nil => cases ho
  | cons p l ih =>
    by_cases heq : o = p
    · rw [heq, plant, putBlock_self]
    · obtain ⟨hi, -, -, -, hlt, -⟩ := h.file p mem_cons_self
      obtain ⟨-, -, -, hb, -⟩ := h.file o ho
      rw [plant, putBlock_of_ne _ _ fun hb => heq (h.apart o ho p mem_cons_self (Or.inr hb)),
        data_writeDinode _ hi hb, data_markBit hlt hb,
        ih h.tail ((mem_cons.mp ho).resolve_left heq)]

namespace Planted

variable (h : Planted sb l s)

include h

theorem inode_eq (ho : o ∈ l) : s.inode sb o.inum = o.toDinode := by
  unfold State.inode
  split
  next hv =>
    obtain ⟨p, hp, heq, hcache⟩ := h.cache _ hv
    rw [hcache, h.apart p hp o ho (Or.inl heq)]
  next => rw [h.disk, readDinode_plant h.toFits ho]

theorem exists_of_type (hi : i < sb.ninodes) (htype : (s.inode sb i).type ≠ 0) :
    ∃ o ∈ l, o.inum = i ∧ s.inode sb i = o.toDinode := by
  unfold State.inode at *
  split at htype
  next hv =>
    rw [if_pos hv]
    exact h.cache i hv
  next hv =>
    rw [if_neg hv, h.disk]
    refine (readDinode_plant_cases h.toFits hi).resolve_right fun hnew => htype ?_
    rw [h.disk, hnew.2]
    rfl

theorem ref_eq_some_iff {q : ℕ × Slot} {b : ℕ} :
    ref sb s q = some b ↔ q.2 = slotOf 0 ∧ ∃ o ∈ l, o.inum = q.1 ∧ o.block.toNat = b := by
  constructor
  · intro hq
    obtain ⟨⟨hi, htype, haddr⟩, ⟨⟩⟩ := Option.ite_none_right_eq_some.mp hq
    obtain ⟨o, ho, hinum, hinode⟩ := h.exists_of_type hi htype
    rw [hinode, o.slotAddr_eq] at haddr ⊢
    have hslot : q.2 = slotOf 0 := by
      by_contra hne
      exact haddr (if_neg hne)
    exact ⟨hslot, o, ho, hinum, by rw [if_pos hslot]⟩
  · rintro ⟨hslot, o, ho, hinum, rfl⟩
    obtain ⟨hi, htype, hblock, -⟩ := h.file o ho
    have hinode := h.inode_eq ho
    unfold ref
    dsimp only
    rw [← hinum, hinode, o.slotAddr_eq, if_pos hslot]
    exact if_pos ⟨hi, htype, hblock⟩

theorem own : Own sb s := by
  refine ⟨fun b => ?_, fun p q b hp hq => ?_, fun p b hp => ?_⟩
  · rw [h.disk]
    constructor
    · rintro ⟨hb, hbit⟩
      refine ((bit_plant h.toFits hb).mp hbit).imp_right fun ⟨o, ho, hblock⟩ => ?_
      exact ⟨(o.inum, slotOf 0), h.ref_eq_some_iff.mpr ⟨rfl, o, ho, rfl, hblock⟩⟩
    · rintro (hmeta | ⟨p, hp⟩)
      · have hlt : b < sb.size := hmeta.trans_le (Nat.sub_le _ _)
        exact ⟨hlt, (bit_plant h.toFits hlt).mpr (Or.inl hmeta)⟩
      · obtain ⟨-, o, ho, -, rfl⟩ := h.ref_eq_some_iff.mp hp
        have hlt := (h.file o ho).2.2.2.2.1
        exact ⟨hlt, (bit_plant h.toFits hlt).mpr (Or.inr ⟨o, ho, rfl⟩)⟩
  · obtain ⟨hsl, o, ho, hinum, hblock⟩ := h.ref_eq_some_iff.mp hp
    obtain ⟨hsl', o', ho', hinum', hblock'⟩ := h.ref_eq_some_iff.mp hq
    rw [h.apart o ho o' ho' (Or.inr (hblock.trans hblock'.symm))] at hinum
    exact Prod.ext (hinum.symm.trans hinum') (hsl.trans hsl'.symm)
  · obtain ⟨-, o, ho, -, rfl⟩ := h.ref_eq_some_iff.mp hp
    exact Nat.not_lt.mpr (h.file o ho).2.2.2.1

theorem consistent : Consistent sb s := by
  refine ⟨h.own, fun i hi hv => ?_, fun i hi hv => ?_⟩
  · obtain ⟨o, ho, rfl, hcache⟩ := h.cache i hv
    rw [h.disk, hcache, readDinode_plant h.toFits ho]
  · obtain ⟨o, ho, rfl, hcache⟩ := h.cache i hv
    exact (congrArg Dinode.type hcache).trans_ne (h.file o ho).2.1

theorem noHoles : NoHoles sb s := by
  intro i hi htype off hoff
  obtain ⟨o, ho, rfl, hinode⟩ := h.exists_of_type hi htype
  rw [hinode] at hoff
  rw [Nat.div_eq_of_lt (hoff.trans_le (h.file o ho).2.2.2.2.2.1)]
  refine ⟨by decide, mem_mapped.mpr ?_⟩
  rw [h.ref_eq_some_iff.mpr ⟨rfl, o, ho, rfl, rfl⟩]
  exact Option.some_ne_none _

theorem content_eq (ho : o ∈ l) : content sb s o.inum = o.data := by
  obtain ⟨-, -, -, -, -, hsize, hlen⟩ := h.file o ho
  refine ext_getElem? fun k => ?_
  rw [getElem?_content, h.inode_eq ho]
  change (if k < o.size.toNat then _ else _) = _
  split
  next hk =>
    have hdiv : k / BSIZE = 0 := Nat.div_eq_of_lt (hk.trans_le hsize)
    have hblock : blockOf sb s o.inum (k / BSIZE) = some o.block.toNat := by
      rw [hdiv]
      exact h.ref_eq_some_iff.mpr ⟨rfl, o, ho, rfl, rfl⟩
    rw [fileByte_of_some hblock, h.disk, plant_block h.toFits ho,
      Nat.mod_eq_of_lt (hk.trans_le hsize), peek, dif_pos (hk.trans_le hsize)]
    simp [hlen, hk]
  next hk => exact (getElem?_eq_none (by omega)).symm

end Planted

end Planted

/-! ## A disk with one data block -/

def tinySuperblock : Superblock where
  size := 3
  nblocks := 1
  ninodes := 2
  inodestart := 0
  bmapstart := 1
  size_lt := by decide
  inodes_fit := by decide
  bitmap_fit := by decide

/-- A file that fills block 2 and has lost its name. -/
def tinyFiles : List OneBlock := [⟨1, 2, 0, 1024, 2, replicate 1024 0⟩]

/-- The only data block belongs to inode 1, which is locked. -/
def tinyState : State where
  disk := plant tinySuperblock tinyFiles
  icache i := if i = 1 then { (⟨1, 2, 0, 1024, 2, []⟩ : OneBlock).toDinode with valid := true }
    else { newDinode 0 with valid := false }
  logged := []

theorem tinyState_locked : Locked tinySuperblock tinyState 1 := ⟨by decide, rfl, by decide⟩

theorem tinyState_planted : Planted tinySuperblock tinyFiles tinyState := by
  refine ⟨⟨by decide +kernel, by decide +kernel⟩, rfl, fun i hv => ?_⟩
  by_cases hi : i = 1
  · exact ⟨_, mem_singleton_self _, hi.symm, by rw [hi]; rfl⟩
  · simp [tinyState, hi] at hv

theorem tinyState_free : tinyState.free tinySuperblock = 0 := by
  apply Nat.eq_zero_of_not_pos
  intro hpos
  obtain ⟨b, hb, hfree⟩ := exists_free_of_freeCount_pos hpos
  have hused : b < 2 ∨ ∃ o ∈ tinyFiles, o.block.toNat = b := by
    rcases Nat.lt_or_ge b 2 with hlt | hge
    · exact Or.inl hlt
    · exact Or.inr ⟨_, mem_singleton_self _, Nat.le_antisymm hge (Nat.lt_succ_iff.mp hb)⟩
  exact Bool.false_ne_true (hfree.symm.trans ((bit_plant tinyState_planted.toFits hb).mpr hused))

theorem mapped_tinyState : mapped tinySuperblock tinyState 1 = {slotOf 0} := by
  ext sl
  rw [mem_mapped, Finset.mem_singleton, Option.ne_none_iff_exists']
  refine ⟨fun ⟨b, hb⟩ => (tinyState_planted.ref_eq_some_iff.mp hb).1, fun hsl => ?_⟩
  exact ⟨2, tinyState_planted.ref_eq_some_iff.mpr ⟨hsl, _, mem_singleton_self _, rfl, rfl⟩⟩

/-- Kernel memory that is full of ones. -/
def onesMemory : Memory where
  mapped _ := false
  byte _ := 1

theorem files_are_byte_arrays_tiny :
    ∃ s', writei tinySuperblock tinyState 1 false onesMemory 0 1 3 = .ok (3, s') ∧
      content tinySuperblock s' 1 =
        File.write (content tinySuperblock tinyState 1) 1 [1, 1, 1] := by
  have hsub : touchedRange 1 3 \ mapped tinySuperblock tinyState 1 = ∅ := by
    rw [mapped_tinyState, Finset.sdiff_eq_empty_iff_subset]
    decide
  have hfile := @files_are_byte_arrays tinySuperblock tinyState 1 false
    onesMemory 0 1 3 tinyState_planted.consistent tinyState_planted.noHoles tinyState_locked
    (by decide) (by decide) (by simp)
  rw [hsub, Finset.card_empty, if_pos (Nat.zero_le _)] at hfile
  obtain ⟨s', hrun, -, -, hcontent, -⟩ := hfile
  exact ⟨s', hrun, hcontent⟩

/-- A write that needs a block panics on a full disk, and a read whose range
wraps around returns nothing although most of the file is in this range. -/
theorem full_disk_panics_and_wrapped_read_is_empty :
    Consistent tinySuperblock tinyState ∧ NoHoles tinySuperblock tinyState ∧
      Locked tinySuperblock tinyState 1 ∧
      1024 ≤ (tinyState.icache 1).size.toNat ∧
      1024 + 1 ≤ MAXFILE * BSIZE ∧
      writei tinySuperblock tinyState 1 false onesMemory 0 1024 1 = .error .ballocOutOfBlocks ∧
      readi tinySuperblock tinyState 1 false onesMemory 0 1 (2 ^ 32 - 1) =
        .ok (0, onesMemory, tinyState) ∧
      (File.read (content tinySuperblock tinyState 1) 1 (2 ^ 32 - 1)).length = 1023 := by
  have hacc : Accepted tinyState 1 1024 1 := ⟨by decide, by decide +kernel⟩
  refine ⟨tinyState_planted.consistent, tinyState_planted.noHoles, tinyState_locked, hacc.1,
    hacc.2, ?_, ?_, ?_⟩
  · refine writei_short tinyState_planted.consistent tinyState_locked hacc (fun h => nomatch h) ?_
    rw [tinyState_free, mapped_tinyState]
    decide
  · exact @readi_wrap 0 onesMemory false tinySuperblock tinyState 1 1 4294967295 (by decide)
  · rw [File.length_read, length_content, tinyState_locked.inode]
    decide

end OsCa.Fs
