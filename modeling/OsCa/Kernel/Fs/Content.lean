import OsCa.Kernel.Fs.Ownership

/-!
# The contents of files

A file is a sequence of bytes.  Its byte at offset `o` lies in the block that
its inode holds for file block `o / BSIZE`.  This module says what one round of
the loops of `readi` and `writei` does to these bytes, and from that what the
loops do.
-/

namespace OsCa.Fs

open Bytes Fallible Finset

variable {sb : Superblock} {s s' : State} {inum : ℕ}

variable {i o b off m len k src off' n tot addr : ℕ} {data dst : Block} {f g : ℕ → Byte}
  {mem : Memory} {userSrc ok userDst : Bool} {s₁ : State}

/-! ## Bytes of a file -/

/-- The disk block that holds file block `bn` of an inode. -/
def blockOf (sb : Superblock) (s : State) (i bn : ℕ) : Option ℕ :=
  if bn < MAXFILE then ref sb s (i, slotOf bn) else none

/-- The byte at offset `o`; zero if no block holds it. -/
def fileByte (sb : Superblock) (s : State) (i o : ℕ) : Byte :=
  match blockOf sb s i (o / BSIZE) with
  | some b => peek (s.disk b) (o % BSIZE)
  | none => 0

theorem fileByte_of_some (h : blockOf sb s i (o / BSIZE) = some b) :
    fileByte sb s i o = peek (s.disk b) (o % BSIZE) := by
  simp only [fileByte, h]

theorem fileByte_of_none (h : blockOf sb s i (o / BSIZE) = none) : fileByte sb s i o = 0 := by
  simp only [fileByte, h]

theorem peek_zeroBlock (k : ℕ) : peek zeroBlock k = 0 := by
  unfold peek zeroBlock
  split <;> rfl

/-- Mapping more blocks does not change what a file contains. -/
theorem Grow.fileByte_eq (h : Grow sb inum s s') (i o : ℕ) :
    fileByte sb s' i o = fileByte sb s i o := by
  by_cases hbn : o / BSIZE < MAXFILE
  · have hblock : ∀ t, blockOf sb t i (o / BSIZE) =
        ref sb t (i, slotOf (o / BSIZE)) := fun t => if_pos hbn
    have hleaf := slotOf_ne_indirect (o / BSIZE)
    cases hold : ref sb s (i, slotOf (o / BSIZE)) with
    | some b =>
      rw [fileByte_of_some ((hblock s').trans (h.kept _ _ hold)),
        fileByte_of_some ((hblock s).trans hold), h.data _ _ hleaf hold]
    | none =>
      rw [fileByte_of_none ((hblock s).trans hold)]
      cases hnew : ref sb s' (i, slotOf (o / BSIZE)) with
      | none => exact fileByte_of_none ((hblock s').trans hnew)
      | some b =>
        rw [fileByte_of_some ((hblock s').trans hnew), h.fresh _ _ hleaf hold hnew, peek_zeroBlock]
  · rw [fileByte_of_none (if_neg hbn), fileByte_of_none (if_neg hbn)]

/-- Storing data in the block of file block `bn` changes the bytes of this
file block only. -/
theorem fileByte_putData {bn : ℕ} (ho : Own sb s) (hbn : bn < MAXFILE)
    (hp : ref sb s (inum, slotOf bn) = some b) (hicache : s'.icache = s.icache)
    (hdisk : s'.disk = putBlock s.disk b data) (i o : ℕ) :
    fileByte sb s' i o = if i = inum ∧ o / BSIZE = bn then peek data (o % BSIZE)
      else fileByte sb s i o := by
  have href := ref_putData ho hp (slotOf_ne_indirect bn) hicache ⟨data, hdisk⟩
  have hblock : blockOf sb s' i (o / BSIZE) = blockOf sb s i (o / BSIZE) := by
    simp only [blockOf, href]
  split
  next h =>
    obtain ⟨rfl, rfl⟩ := h
    rw [fileByte_of_some (hblock.trans ((if_pos hbn).trans hp)), hdisk, putBlock_self]
  next h =>
    cases hold : blockOf sb s i (o / BSIZE) with
    | none => rw [fileByte_of_none hold, fileByte_of_none (hblock.trans hold)]
    | some c =>
      have hcb : c ≠ b := by
        rintro rfl
        unfold blockOf at hold
        obtain ⟨hlt, hold⟩ := Option.ite_none_right_eq_some.mp hold
        obtain ⟨rfl, hslot⟩ := Prod.mk.inj (ho.unique _ _ _ hold hp)
        exact h ⟨rfl, slotOf_injOn hlt hbn hslot⟩
      rw [fileByte_of_some hold, fileByte_of_some (hblock.trans hold), hdisk,
        putBlock_of_ne _ _ hcb]

/-! ## Copying in -/

/-- All pages of a range of addresses are mapped. -/
def Readable (mem : Memory) (src len : ℕ) : Prop :=
  ∀ a, src ≤ a → a < src + len → mem.mapped (a / PGSIZE) = true

/-- Two copies one after the other are one copy. -/
theorem blit_blit {b : Block} (hm : m ≤ len) (hg : ∀ i < len - m, g i = f (m + i)) :
    blit (blit b off m f) (off + m) (len - m) g = blit b off len f := by
  apply ext_peek
  intro k hk
  rw [peek_blit, peek_blit, peek_blit]
  by_cases hlo : off ≤ k ∧ k < off + m
  · rw [if_neg (by omega), if_pos (by omega), if_pos (by omega)]
  · by_cases hhi : off + m ≤ k ∧ k < off + len
    · rw [if_pos (by omega), if_pos (by omega), hg _ (by omega)]
      congr 1
      omega
    · rw [if_neg (by omega), if_neg (by omega), if_neg (by omega)]

/-- The first page of a copy: where it starts, and how much of it is used. -/
theorem page_split (va : ℕ) : va / PGSIZE * PGSIZE ≤ va ∧ va < va / PGSIZE * PGSIZE + PGSIZE := by
  have := Nat.mod_lt va (show 0 < PGSIZE by decide)
  have := Nat.div_add_mod va PGSIZE
  have := Nat.mul_comm PGSIZE (va / PGSIZE)
  omega

theorem copyin_data (dst : Block) (off src len : ℕ) (h : (copyin mem dst off src len).2 = true) :
    (copyin mem dst off src len).1 = blit dst off len fun i => mem.byte (src + i) := by
  fun_induction copyin mem dst off src len with
  | case1 => cases h
  | case2 dst off src len hlen va0 hmapped n ih =>
    rw [ih h]
    have := page_split src
    apply blit_blit (Nat.min_le_right _ _)
    intro i hi
    congr 1
    simp only [va0] at hi ⊢
    omega
  | case3 dst off src len hlen =>
    obtain rfl : len = 0 := by omega
    exact (blit_zero _ _ _).symm

/-- A failing copy stores no byte outside its range either. -/
theorem copyin_outside (dst : Block) (off src len : ℕ) (hk : k < off ∨ off + len ≤ k) :
    peek (copyin mem dst off src len).1 k = peek dst k := by
  fun_induction copyin mem dst off src len with
  | case1 => rfl
  | case2 dst off src len hlen va0 hmapped n ih =>
    have hn : n ≤ len := Nat.min_le_right _ _
    rw [ih (by omega), peek_blit_of_not_mem (by omega)]
  | case3 => rfl

theorem copyin_of_readable (dst : Block) (off src len : ℕ) (h : Readable mem src len) :
    (copyin mem dst off src len).2 = true := by
  fun_induction copyin mem dst off src len with
  | case1 dst off src len hlen va0 hmapped =>
    have hpage : va0 / PGSIZE = src / PGSIZE := Nat.mul_div_cancel _ (by decide)
    rw [hpage, h src (Nat.le_refl _) (by omega)] at hmapped
    cases hmapped
  | case2 dst off src len hlen va0 hmapped n ih =>
    have := page_split src
    refine ih fun a hlo hhi => h a ?_ ?_
    · simp only [va0] at hlo
      omega
    · simp only [n, va0] at hhi hlo
      omega
  | case3 => rfl

theorem eitherCopyin_data (h : (eitherCopyin userSrc mem dst off src len).2 = true) :
    (eitherCopyin userSrc mem dst off src len).1 =
      blit dst off len fun i => mem.byte (src + i) := by
  unfold eitherCopyin at h ⊢
  cases userSrc with
  | true => exact copyin_data dst off src len h
  | false => rfl

theorem eitherCopyin_outside (hk : k < off ∨ off + len ≤ k) :
    peek (eitherCopyin userSrc mem dst off src len).1 k = peek dst k := by
  unfold eitherCopyin
  cases userSrc with
  | true => exact copyin_outside dst off src len hk
  | false =>
    rw [if_neg Bool.false_ne_true]
    dsimp only
    exact peek_blit_of_not_mem hk

theorem eitherCopyin_of_readable (h : userSrc = true → Readable mem src len) :
    (eitherCopyin userSrc mem dst off src len).2 = true := by
  unfold eitherCopyin
  cases userSrc with
  | true => exact copyin_of_readable dst off src len (h rfl)
  | false => rfl

/-! ## The loop of `writei` -/

theorem chunk_le (n tot off : ℕ) : chunk n tot off ≤ n - tot := Nat.min_le_left _ _

/-- A round stays inside one block. -/
theorem chunk_fits (n tot off : ℕ) : off % BSIZE + chunk n tot off ≤ BSIZE := by
  have : off % BSIZE < BSIZE := Nat.mod_lt _ (by decide)
  have : chunk n tot off ≤ BSIZE - off % BSIZE := Nat.min_le_right _ _
  omega

/-- The offsets of a round are those of one file block from `off % BSIZE`. -/
theorem mem_round_iff (hfits : off % BSIZE + m ≤ BSIZE) :
    off ≤ o ∧ o < off + m ↔ o / BSIZE = off / BSIZE ∧ off % BSIZE ≤ o % BSIZE ∧
        o % BSIZE < off % BSIZE + m := by
  have hoff := Nat.div_add_mod off BSIZE
  have ho := Nat.div_add_mod o BSIZE
  have : o % BSIZE < BSIZE := Nat.mod_lt _ (by decide)
  unfold BSIZE at *
  omega

theorem round_position (hfits : off % BSIZE + m ≤ BSIZE) (hi : i < m) :
    (off + i) / BSIZE = off / BSIZE ∧ (off + i) % BSIZE = off % BSIZE + i := by
  unfold BSIZE at *
  omega

/-- The slots that a write of `len` bytes at `off` needs. -/
def touchedRange (off len : ℕ) : Finset Slot :=
  (range len).biUnion fun k => touched ((off + k) / BSIZE)

theorem touched_subset_touchedRange (h : k < len) :
    touched ((off + k) / BSIZE) ⊆ touchedRange off len :=
  subset_biUnion_of_mem (fun k => touched ((off + k) / BSIZE)) (mem_range.mpr h)

theorem touchedRange_mono (h : m ≤ len) : touchedRange off m ⊆ touchedRange off len := by
  apply biUnion_subset.mpr
  intro k hk
  rw [mem_range] at hk
  exact touched_subset_touchedRange (by omega)

theorem touchedRange_add_subset (h : m ≤ len) :
    touchedRange (off + m) (len - m) ⊆ touchedRange off len := by
  apply biUnion_subset.mpr
  intro k hk
  rw [mem_range] at hk
  rw [Nat.add_assoc]
  exact touched_subset_touchedRange (by omega)

/-- The effect of the loop of `writei` on `len` bytes from `off`, when it stops
at `off'`.  Bytes that a failing copy did not reach are not specified. -/
structure Written (sb : Superblock) (inum : ℕ) (mem : Memory)
    (src off len : ℕ) (ok : Bool) (off' : ℕ) (s s' : State) : Prop where
  own : Own sb s'
  extend : Extend sb inum s s'
  le : off ≤ off'
  le_end : off' ≤ off + len
  done : ok = true → off' = off + len
  filled : ∀ o, off ≤ o → o < off' → slotOf (o / BSIZE) ∈ mapped sb s' inum
  only : mapped sb s' inum ⊆ mapped sb s inum ∪ touchedRange off len
  bytes : ∀ o, off ≤ o → o < off' → fileByte sb s' inum o = mem.byte (src + (o - off))
  outside : ∀ i o, i ≠ inum ∨ o < off ∨ off + len ≤ o → fileByte sb s' i o = fileByte sb s i o

theorem Written.nil (ho : Own sb s) : Written sb inum mem src off 0 true off s s where
  own := ho
  extend := Extend.refl sb inum s
  le := Nat.le_refl _
  le_end := Nat.le_refl _
  done _ := rfl
  filled o hlo hhi := by omega
  only := subset_union_left
  bytes o hlo hhi := by omega
  outside _ _ _ := rfl

/-- A failing round may be followed by nothing, and ends the loop where it
began. -/
theorem Written.weaken (h : Written sb inum mem src off m ok off' s s') (hm : m ≤ len) :
    Written sb inum mem src off len false off s s' where
  own := h.own
  extend := h.extend
  le := Nat.le_refl _
  le_end := Nat.le_add_right _ _
  done hok := by cases hok
  filled o hlo hhi := by omega
  only := h.only.trans (union_subset_union_right (touchedRange_mono hm))
  bytes o hlo hhi := by omega
  outside i o hio := h.outside i o (by omega)

/-- A successful round and the rest of the loop. -/
theorem Written.append (h : Written sb inum mem src off m true (off + m) s s₁)
    (h' : Written sb inum mem (src + m) (off + m) (len - m) ok off' s₁ s')
    (hm : m ≤ len) : Written sb inum mem src off len ok off' s s' where
  own := h'.own
  extend := h.extend.trans h'.extend
  le := by
    have := h'.le
    omega
  le_end := by
    have := h'.le_end
    omega
  done hok := by
    have := h'.done hok
    omega
  filled o hlo hhi := by
    by_cases ho : o < off + m
    · exact h'.extend.mapped_subset (h.filled o hlo ho)
    · exact h'.filled o (by omega) hhi
  only := by
    refine h'.only.trans (union_subset ?_ ?_)
    · exact h.only.trans (union_subset_union_right (touchedRange_mono hm))
    · exact (touchedRange_add_subset hm).trans subset_union_right
  bytes o hlo hhi := by
    by_cases ho : o < off + m
    · rw [h'.outside inum o (by omega), h.bytes o hlo ho]
    · rw [h'.bytes o (by omega) hhi]
      congr 1
      omega
  outside i o hio := by rw [h'.outside i o (by omega), h.outside i o (by omega)]

/-- One round: the block is mapped and the bytes are copied into it. -/
theorem written_round {a : Uint} (ho : Own sb s) (hl : Locked sb s inum)
    (hbn : off / BSIZE < MAXFILE) (hpos : 0 < m) (hfits : off % BSIZE + m ≤ BSIZE)
    (hbmap : bmap sb s inum (off / BSIZE) = .ok (a, s₁))
    (hcopy : eitherCopyin userSrc mem (s₁.disk a.toNat) (off % BSIZE) src m = (data,
      ok)) (hicache : s'.icache = s₁.icache)
    (hdisk : s'.disk = putBlock s₁.disk a.toNat data) :
    Written sb inum mem src off m ok (if ok then off + m else off) s s' := by
  have hmap := bmap_ok ho hl hbmap
  have hleaf := slotOf_ne_indirect (off / BSIZE)
  have hextend : Extend sb inum s₁ s' :=
    extend_putData hmap.own hmap.self hleaf hicache ⟨data, hdisk⟩
  have hbyte := fileByte_putData hmap.own hbn hmap.self hicache hdisk
  refine ⟨own_putData hmap.own hmap.self hleaf hicache ⟨data, hdisk⟩,
    hmap.grow.toExtend.trans hextend, ?_, ?_, ?_, ?_, ?_, ?_, ?_⟩
  · split <;> omega
  · split <;> omega
  · rintro rfl
    rfl
  · intro o hlo hhi
    have hround : off ≤ o ∧ o < off + m := by split at hhi <;> omega
    rw [((mem_round_iff hfits).mp hround).1]
    refine hextend.mapped_subset (mem_mapped.mpr ?_)
    rw [hmap.self]
    exact Option.some_ne_none _
  · rw [mapped_congr (ref_putData hmap.own hmap.self hleaf hicache ⟨data, hdisk⟩)]
    refine hmap.filled.trans (union_subset_union_right ?_)
    exact touched_subset_touchedRange hpos
  · intro o hlo hhi
    cases ok with
    | false => exact absurd hhi (Nat.not_lt.mpr hlo)
    | true =>
      obtain ⟨hdiv, hmod, hmod'⟩ := (mem_round_iff hfits).mp ⟨hlo, hhi⟩
      have hdata := eitherCopyin_data (congrArg Prod.snd hcopy)
      rw [hcopy] at hdata
      dsimp only at hdata
      rw [hbyte, if_pos ⟨rfl, hdiv⟩, hdata, peek_blit_of_mem hmod hmod' (Nat.mod_lt _ (by decide))]
      have hoff := Nat.div_add_mod off BSIZE
      have ho := Nat.div_add_mod o BSIZE
      rw [hdiv] at ho
      congr 2
      omega
  · intro i o hio
    rw [← hmap.grow.fileByte_eq i o, hbyte]
    split
    next h =>
      obtain ⟨rfl, hdiv⟩ := h
      -- The rest of the block keeps its old bytes.
      have hold : blockOf sb s₁ i (o / BSIZE) = some a.toNat := by
        rw [hdiv]
        exact (if_pos hbn).trans hmap.self
      have hround := mt (mem_round_iff (o := o) hfits).mpr
      rw [fileByte_of_some hold, show data = (eitherCopyin userSrc mem
        (s₁.disk a.toNat) (off % BSIZE) src m).1 by rw [hcopy]]
      exact eitherCopyin_outside (by omega)
    next => rfl

theorem writeLoop_ok (ho : Own sb s) (hl : Locked sb s inum)
    (hmax : off + (n - tot) ≤ MAXFILE * BSIZE)
    (hok : writeLoop sb inum userSrc mem n src tot off s = .ok (ok, off', s')) :
    Written sb inum mem src off (n - tot) ok off' s s' ∧
      ((userSrc = true → Readable mem src (n - tot)) → ok = true) := by
  fun_induction writeLoop sb inum userSrc mem n src tot off s with
  | case1 src tot off s hlt ih =>
    have hpos := chunk_pos off hlt
    have hm := chunk_le n tot off
    have hbn : off / BSIZE < MAXFILE := Nat.div_lt_of_lt_mul (by rw [Nat.mul_comm]; omega)
    obtain ⟨⟨a, s₁⟩, hbmap, hok⟩ := bind_eq_ok_iff.mp hok
    rcases hcopy : eitherCopyin userSrc mem (s₁.disk a.toNat)
      (off % BSIZE) src (chunk n tot off) with ⟨data, ok₁⟩
    simp only [hcopy] at hok
    cases ok₁ with
    | true =>
      have hround : Written sb inum mem src off (chunk n tot off) true (off + chunk n tot off) s
          ((s₁.putBlock a.toNat data).logWrite a.toNat) :=
        written_round ho hl hbn hpos (chunk_fits n tot off) hbmap hcopy rfl rfl
      obtain ⟨hrest, hsucc⟩ := ih a s₁ data hround.own (hround.extend.locked hl) (by omega) hok
      rw [Nat.sub_add_eq] at hrest hsucc
      refine ⟨hround.append hrest hm, fun hread => hsucc ?_⟩
      intro huser b hlo hhi
      exact hread huser b (by omega) (by omega)
    | false =>
      have hround : Written sb inum mem src off (chunk n tot off) false
          off s (s₁.putBlock a.toNat data) :=
        written_round ho hl hbn hpos (chunk_fits n tot off) hbmap hcopy rfl rfl
      have hcopied : (userSrc = true → Readable mem src (n - tot)) →
          (eitherCopyin userSrc mem (s₁.disk a.toNat) (off % BSIZE)
            src (chunk n tot off)).2 = true := fun hread =>
        eitherCopyin_of_readable fun huser b hlo hhi => hread huser b hlo (by omega)
      rw [hcopy] at hcopied
      cases hok
      exact ⟨hround.weaken hm, hcopied⟩
  | case2 src tot off s hlt =>
    cases hok
    rw [Nat.sub_eq_zero_of_le (Nat.le_of_not_lt hlt)]
    exact ⟨Written.nil ho, fun _ => rfl⟩

/-- The loop fails only if there are not enough blocks for what it has to
map. -/
theorem writeLoop_error {e : Panic} (ho : Own sb s) (hl : Locked sb s inum)
    (hmax : off + (n - tot) ≤ MAXFILE * BSIZE)
    (herr : writeLoop sb inum userSrc mem n src tot off s = .error e) :
    e = .ballocOutOfBlocks ∧ s.free sb < (touchedRange off (n - tot) \ mapped sb s inum).card := by
  fun_induction writeLoop sb inum userSrc mem n src tot off s with
  | case1 src tot off s hlt ih =>
    have hpos := chunk_pos off hlt
    have hm := chunk_le n tot off
    have hbn : off / BSIZE < MAXFILE := Nat.div_lt_of_lt_mul (by rw [Nat.mul_comm]; omega)
    have htouched : touched (off / BSIZE) ⊆ touchedRange off (n - tot) :=
      touched_subset_touchedRange (k := 0) (Nat.sub_pos_of_lt hlt)
    rcases bind_eq_error_iff.mp herr with hbmap | ⟨⟨a, s₁⟩, hbmap, herr⟩
    · obtain ⟨he, hfree⟩ := bmap_error ho hl hbn hbmap
      refine ⟨he, hfree.trans_le (card_le_card ?_)⟩
      exact sdiff_subset_sdiff htouched (Finset.Subset.refl _)
    · rcases hcopy : eitherCopyin userSrc mem (s₁.disk a.toNat)
        (off % BSIZE) src (chunk n tot off) with ⟨data, ok₁⟩
      simp only [hcopy] at herr
      cases ok₁ with
      | false => cases herr
      | true =>
        have hround : Written sb inum mem src off (chunk n tot off) true (off + chunk n tot off) s
            ((s₁.putBlock a.toNat data).logWrite a.toNat) :=
          written_round ho hl hbn hpos (chunk_fits n tot off) hbmap hcopy rfl rfl
        obtain ⟨he, hfree⟩ := ih a s₁ data hround.own (hround.extend.locked hl) (by omega) herr
        refine ⟨he, hround.extend.free_lt ?_ (hfree.trans_le (card_le_card ?_))⟩
        · exact hround.only.trans (union_subset_union_right (touchedRange_mono hm))
        · refine sdiff_subset_sdiff ?_ (Finset.Subset.refl _)
          rw [Nat.sub_add_eq]
          exact touchedRange_add_subset hm
  | case2 => cases herr

/-! ## Copying out and the loop of `readi` -/

theorem Memory.write_congr (h : ∀ i < len, f i = g i) :
    mem.write addr len f = mem.write addr len g := by
  unfold Memory.write
  congr 1
  funext a
  split
  next ha => exact h _ (by omega)
  next => rfl

@[simp]
theorem Memory.write_zero (mem : Memory) (addr : ℕ) (f : ℕ → Byte) : mem.write addr 0 f = mem := by
  unfold Memory.write
  congr 1
  funext a
  exact if_neg (by omega)

theorem Memory.write_write (hm : m ≤ len) (hg : ∀ i < len - m, g i = f (m + i)) :
    (mem.write addr m f).write (addr + m) (len - m) g = mem.write addr len f := by
  unfold Memory.write
  congr 1
  funext a
  dsimp only
  by_cases hlo : addr ≤ a ∧ a < addr + m
  · rw [if_neg (by omega), if_pos hlo, if_pos (by omega)]
  · by_cases hhi : addr + m ≤ a ∧ a < addr + len
    · rw [if_pos (by omega), if_pos (by omega), hg _ (by omega)]
      congr 1
      omega
    · rw [if_neg (by omega), if_neg hlo, if_neg (by omega)]

theorem copyout_of_readable (mem : Memory) (dst : ℕ) (src : ℕ → Byte)
    (len : ℕ) (h : Readable mem dst len) :
    copyout mem dst src len = (mem.write dst len src, true) := by
  fun_induction copyout mem dst src len with
  | case1 mem dst src len hlen va0 hmapped =>
    have hpage : va0 / PGSIZE = dst / PGSIZE := Nat.mul_div_cancel _ (by decide)
    rw [hpage, h dst (Nat.le_refl _) (by omega)] at hmapped
    cases hmapped
  | case2 mem dst src len hlen va0 hmapped n ih =>
    have := page_split dst
    have hn : n ≤ len := Nat.min_le_right _ _
    have hnext : Readable (mem.write dst n src) (va0 + PGSIZE) (len - n) := by
      intro a hlo hhi
      refine h a ?_ ?_
      · simp only [va0] at hlo
        omega
      · simp only [n, va0] at hhi hlo
        omega
    rw [ih hnext]
    congr 1
    -- Either the copy reaches the next page, or nothing is left.
    rcases Nat.eq_zero_or_pos (len - n) with hz | hpos
    · have hlast : n = len := by omega
      rw [hz, Memory.write_zero, hlast]
    · rw [show va0 + PGSIZE = dst + n by simp only [n, va0] at hpos ⊢; omega]
      exact Memory.write_write hn fun i _ => rfl
  | case3 mem dst src len hlen =>
    obtain rfl : len = 0 := by omega
    rw [Memory.write_zero]

theorem eitherCopyout_of_readable {dst : ℕ} {src : ℕ → Byte}
    (h : userDst = true → Readable mem dst len) :
    eitherCopyout userDst mem dst src len = (mem.write dst len src, true) := by
  unfold eitherCopyout
  cases userDst with
  | true => exact copyout_of_readable mem dst src len (h rfl)
  | false => rfl

/-- Reading bytes that are all mapped delivers them and changes nothing
else. -/
theorem readLoop_ok {dst : ℕ} (hl : Locked sb s inum)
    (hmapped : ∀ o, off ≤ o → o < off + (n - tot) →
      o / BSIZE < MAXFILE ∧ slotOf (o / BSIZE) ∈ mapped sb s inum)
    (hdst : userDst = true → Readable mem dst (n - tot)) :
    readLoop sb inum userDst n mem dst tot off s =
      .ok (true, mem.write dst (n - tot) fun i => fileByte sb s inum (off + i), s) := by
  fun_induction readLoop sb inum userDst n mem dst tot off s with
  | case1 mem dst tot off s hlt ih =>
    have hpos := chunk_pos off hlt
    have hm := chunk_le n tot off
    obtain ⟨hbn, hslot⟩ := hmapped off (Nat.le_refl _) (by omega)
    obtain ⟨b, hb⟩ := Option.ne_none_iff_exists'.mp (mem_mapped.mp hslot)
    obtain ⟨a, rfl, hbmap⟩ := bmap_of_ref hl hbn hb
    rw [hbmap]
    simp only [bind, Except.bind]
    rw [eitherCopyout_of_readable fun huser c hlo hhi => hdst huser c hlo (by omega)]
    dsimp only
    rw [if_pos rfl]
    have hrest := ih s (mem.write dst (chunk n tot off) fun i =>
      peek (s.disk a.toNat) (off % BSIZE + i)) hl
      (fun o hlo hhi => hmapped o (by omega) (by omega))
      fun huser c hlo hhi => hdst huser c (by omega) (by omega)
    rw [hrest]
    have hbytes : ∀ i < chunk n tot off, peek (s.disk a.toNat) (off % BSIZE + i) =
          fileByte sb s inum (off + i) := by
      intro i hi
      obtain ⟨hdiv, hmod⟩ := round_position (chunk_fits n tot off) hi
      have hblock : blockOf sb s inum ((off + i) / BSIZE) = some a.toNat := by
        rw [hdiv]
        exact (if_pos hbn).trans hb
      rw [fileByte_of_some hblock, hmod]
    rw [Memory.write_congr hbytes, Nat.sub_add_eq]
    simp only [Nat.add_assoc off]
    rw [Memory.write_write hm fun i _ => rfl]
  | case2 mem dst tot off s hlt =>
    rw [Nat.sub_eq_zero_of_le (Nat.le_of_not_lt hlt), Memory.write_zero]
    rfl

end OsCa.Fs
