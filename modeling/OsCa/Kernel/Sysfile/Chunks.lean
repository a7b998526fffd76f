import OsCa.Kernel.Sysfile.Calls

/-!
# The chunks of `filewrite`

`filewrite` writes at most `maxWrite` bytes in one transaction, so that a chunk
logs no more blocks than `begin_op` reserves.  Processes that share an open file
write their chunks one after another.
-/

namespace OsCa.Fs

open Bytes Fallible List
open Sysfile (maxWrite)

variable {sb : Superblock} {s t u : State} {inum : ℕ} {D D' : Finset ℕ} {m m' : ℕ}

/-! ## The blocks that a write logs -/

/-- A round ends at a block boundary, or it is the last one. -/
theorem chunk_ends (n tot off : ℕ) :
    (off + chunk n tot off) % BSIZE = 0 ∨ n ≤ tot + chunk n tot off := by
  have hmod : off % BSIZE < BSIZE := Nat.mod_lt _ (by decide)
  have hoff := Nat.div_add_mod' off BSIZE
  unfold chunk
  rcases Nat.le_total (n - tot) (BSIZE - off % BSIZE) with hlast | hfull
  · right
    omega
  · left
    have hnext : off + (BSIZE - off % BSIZE) = (off / BSIZE + 1) * BSIZE := by
      rw [Nat.succ_mul]
      omega
    rw [Nat.min_eq_right hfull, hnext, Nat.mul_mod_left]

/-- The indirect block of the locked inode, if it has one. -/
def indirect (s : State) (inum : ℕ) : Finset ℕ :=
  (addrRef ((s.icache inum).addrs (Fin.last NDIRECT))).toFinset

theorem card_indirect_le (s : State) (inum : ℕ) : (indirect s inum).card ≤ 1 := by
  unfold indirect
  rw [Option.card_toFinset]
  cases addrRef ((s.icache inum).addrs (Fin.last NDIRECT)) <;> simp

/-- From `s` to `t`, the logged blocks are those of `D`, the indirect block, at
most `m` others, and one more if the indirect block is new. -/
structure Charged (inum : ℕ) (D : Finset ℕ) (m : ℕ) (s t : State) : Prop where
  mono : indirect s inum ⊆ indirect t inum
  blocks : ∃ (l : List ℕ) (S : Finset ℕ), t.logged = s.logged ++ l ∧
    (∀ b ∈ l, b ∈ D ∨ b ∈ S ∨ b ∈ indirect t inum) ∧
    S.card + (indirect s inum).card ≤ m + (indirect t inum).card

namespace Charged

theorem refl (inum : ℕ) (D : Finset ℕ) (m : ℕ) (s : State) : Charged inum D m s s :=
  ⟨Finset.Subset.refl _, [], ∅, (append_nil _).symm,
    fun _ hb => absurd hb not_mem_nil, Nat.add_le_add_right (Nat.zero_le m) _⟩

theorem trans (h : Charged inum D m s t) (h' : Charged inum D' m' t u) :
    Charged inum (D ∪ D') (m + m') s u := by
  obtain ⟨l, S, hlog, hmem, hcard⟩ := h.blocks
  obtain ⟨l', S', hlog', hmem', hcard'⟩ := h'.blocks
  refine ⟨h.mono.trans h'.mono, l ++ l', S ∪ S', ?_, fun b hb => ?_, ?_⟩
  · rw [hlog', hlog, append_assoc]
  · simp only [Finset.mem_union]
    rcases mem_append.mp hb with hb | hb
    · rcases hmem b hb with hb | hb | hb
      · exact Or.inl (Or.inl hb)
      · exact Or.inr (Or.inl (Or.inl hb))
      · exact Or.inr (Or.inr (h'.mono hb))
    · rcases hmem' b hb with hb | hb | hb
      · exact Or.inl (Or.inr hb)
      · exact Or.inr (Or.inl (Or.inr hb))
      · exact Or.inr (Or.inr hb)
  · have hunion := Finset.card_union_le S S'
    omega

/-- The last state may change where it does not matter. -/
theorem congr (h : Charged inum D m s t) (hlog : u.logged = t.logged)
    (hindirect : indirect u inum = indirect t inum) : Charged inum D m s u := by
  obtain ⟨hmono, hblocks⟩ := h
  constructor
  · rwa [hindirect]
  · rwa [hlog, hindirect]

/-- A block that is counted already is changed and logged. -/
theorem put (h : Charged inum D m s t) {b : ℕ} (data : Block) (hb : b ∈ D ∨ b ∈ indirect t inum) :
    Charged inum D m s ((t.putBlock b data).logWrite b) := by
  obtain ⟨l, S, hlog, hmem, hcard⟩ := h.blocks
  refine ⟨h.mono, l ++ [b], S, ?_, fun c hc => ?_, hcard⟩
  · rw [← append_assoc, ← hlog]
    rfl
  · rcases mem_append.mp hc with hc | hc
    · exact hmem c hc
    · rw [mem_singleton.mp hc]
      rcases hb with hb | hb
      · exact Or.inl hb
      · exact Or.inr (Or.inr hb)

/-- `balloc` logs the block, which it clears, and a block of the bitmap. -/
theorem balloc {a : Uint} (h : balloc sb s = .ok (a, t)) :
    t.icache = s.icache ∧ t.logged = s.logged ++ [sb.BBLOCK a.toNat, a.toNat] ∧
      Charged inum {a.toNat} 1 s t := by
  unfold Fs.balloc at h
  split at h
  next b hfind =>
    have hb : (BitVec.ofNat 32 b).toNat = b := by
      have hlt := (findFree_some hfind).1
      have hsize := sb.size_lt
      rw [BitVec.toNat_ofNat]
      omega
    cases h
    rw [hb]
    have hlog : (bzero (State.logWrite { s with disk := markBit sb s.disk b }
        (sb.BBLOCK b)) b).logged = s.logged ++ [sb.BBLOCK b, b] :=
      append_assoc ..
    refine ⟨rfl, hlog, Finset.Subset.refl _, _, {sb.BBLOCK b}, hlog, ?_, le_of_eq rfl⟩
    intro c hc
    rcases mem_pair.mp hc with rfl | rfl
    · exact Or.inr (Or.inl (Finset.mem_singleton_self _))
    · exact Or.inl (Finset.mem_singleton_self _)
  next => cases h

theorem ensureDirect {a : Uint} {i : Fin (NDIRECT + 1)} (hi : i ≠ Fin.last NDIRECT)
    (h : ensureAddr sb s inum i = .ok (a, t)) : Charged inum {a.toNat} 1 s t := by
  unfold ensureAddr at h
  dsimp only at h
  split at h
  next =>
    obtain ⟨⟨b, u⟩, hu, h⟩ := bind_eq_ok_iff.mp h
    cases h
    refine (Charged.balloc hu).2.2.congr rfl ?_
    unfold indirect
    simp [State.setAddr, State.setInode, Function.update_of_ne hi.symm]
  next =>
    cases h
    exact .refl ..

/-- The bitmap block for a new indirect block is paid by the indirect block. -/
theorem ensureIndirect {a : Uint} (ho : Own sb s) (hl : Locked sb s inum)
    (h : ensureAddr sb s inum (Fin.last NDIRECT) = .ok (a, t)) :
    Charged inum ∅ 0 s t ∧ indirect t inum = {a.toNat} := by
  have hmap := ensureAddr_ok ho hl h
  have hself := hmap.self
  rw [(hmap.grow.toExtend.locked hl).ref_eq, slotAddr_addrSlot] at hself
  have hind : indirect t inum = {a.toNat} := by
    unfold indirect
    rw [hself]
    rfl
  refine ⟨?_, hind⟩
  unfold ensureAddr at h
  dsimp only at h
  split at h
  next hzero =>
    have hempty : indirect s inum = ∅ := by
      unfold indirect
      rw [hzero]
      rfl
    obtain ⟨⟨b, u⟩, hu, h⟩ := bind_eq_ok_iff.mp h
    cases h
    obtain ⟨-, hlog, -⟩ : _ ∧ _ ∧ Charged inum _ _ _ _ := Charged.balloc hu
    refine ⟨hempty ▸ Finset.empty_subset _, _, {sb.BBLOCK b.toNat}, hlog, ?_, ?_⟩
    · intro c hc
      rcases mem_pair.mp hc with rfl | rfl
      · exact Or.inr (Or.inl (Finset.mem_singleton_self _))
      · exact Or.inr (Or.inr (hind ▸ Finset.mem_singleton_self _))
    · rw [hempty, hind]
      rfl
  next =>
    cases h
    exact .refl ..

/-- `bmap` logs the block, a block of the bitmap if it is new, and the indirect
block. -/
theorem bmap {a : Uint} {bn : ℕ} (ho : Own sb s) (hl : Locked sb s inum)
    (h : bmap sb s inum bn = .ok (a, t)) : Charged inum {a.toNat} 1 s t := by
  unfold Fs.bmap at h
  split at h
  next hbn =>
    refine ensureDirect (fun heq => ?_) h
    have hval : (addrIndex bn).val = bn := Nat.mod_eq_of_lt (by omega)
    exact hbn.ne (hval.symm.trans (congrArg Fin.val heq))
  next =>
    split at h
    next =>
      obtain ⟨⟨c, u⟩, hu, h⟩ := bind_eq_ok_iff.mp h
      obtain ⟨hsu, hind⟩ := ensureIndirect ho hl hu
      dsimp only at h
      split at h
      next =>
        obtain ⟨⟨b, v⟩, hv, h⟩ := bind_eq_ok_iff.mp h
        cases h
        obtain ⟨hicache, -, huv⟩ : _ ∧ _ ∧ Charged inum _ _ _ _ := Charged.balloc hv
        have hc : c.toNat ∈ indirect v inum := by
          unfold indirect at hind ⊢
          rw [hicache, hind]
          exact Finset.mem_singleton_self _
        have hsv := hsu.trans huv
        rw [Finset.empty_union, Nat.zero_add] at hsv
        exact hsv.put _ (Or.inr hc)
      next =>
        have hmore : ∀ D, Charged inum D 1 s u := fun D => by
          simpa only [Finset.empty_union, Nat.zero_add] using hsu.trans (.refl inum D 1 u)
        cases h
        exact hmore _
    next => cases h

/-- The loop of `writei` writes one block a round.  If the first block is there
already (`j = 1`), it needs no block of the bitmap. -/
theorem writeLoop {userSrc ok : Bool} {mem : Memory} {n src tot off off' k j : ℕ}
    (ho : Own sb s) (hl : Locked sb s inum)
    (hk : n ≤ tot ∨ off % BSIZE + (n - tot) ≤ (k + j) * BSIZE)
    (hj : j = 0 ∨ j = 1 ∧ ∃ a, Fs.bmap sb s inum (off / BSIZE) = .ok (a, s))
    (hend : off + (n - tot) ≤ MAXFILE * BSIZE)
    (h : writeLoop sb inum userSrc mem n src tot off s = .ok (ok, off', t)) :
    ∃ D : Finset ℕ, D.card ≤ k + j ∧ Charged inum D k s t := by
  fun_induction Fs.writeLoop sb inum userSrc mem n src tot off s generalizing k j with
  | case1 src tot off s hlt ih =>
    have hpos := chunk_pos off hlt
    have hm := chunk_le n tot off
    have hbn : off / BSIZE < MAXFILE := Nat.div_lt_of_lt_mul (by rw [Nat.mul_comm]; omega)
    obtain ⟨⟨a, u⟩, hu, h⟩ := bind_eq_ok_iff.mp h
    rcases hcopy : eitherCopyin userSrc mem (u.disk a.toNat) (off % BSIZE) src
      (chunk n tot off) with ⟨data, ok₁⟩
    simp only [hcopy] at h
    obtain ⟨k', hround, hk'⟩ : ∃ k', Charged inum {a.toNat} (k - k') s u ∧ k' ≤ k ∧
        k' + 1 = k + j := by
      rcases hj with rfl | ⟨rfl, b, hb⟩
      · obtain ⟨k', rfl⟩ : ∃ i, k = i + 1 := Nat.exists_eq_succ_of_ne_zero (by
          rintro rfl
          omega)
        refine ⟨k', ?_, by omega, rfl⟩
        rw [Nat.add_sub_cancel_left]
        exact Charged.bmap ho hl hu
      · cases hu.symm.trans hb
        exact ⟨k, .refl .., le_refl k, rfl⟩
    cases ok₁ with
    | true =>
      have hw : Written sb inum mem _ _ _ true _ s
          ((u.putBlock a.toNat data).logWrite a.toNat) := written_round
        ho hl hbn hpos (chunk_fits n tot off) hu hcopy rfl rfl
      have hnext : n ≤ tot + chunk n tot off ∨
          (off + chunk n tot off) % BSIZE + (n - (tot + chunk n tot off)) ≤ (k' + 0) * BSIZE := by
        have hchunk : chunk n tot off = min (n - tot) (BSIZE - off % BSIZE) := rfl
        have hmod : off % BSIZE < BSIZE := Nat.mod_lt _ (by decide)
        rw [← hk'.2, Nat.succ_mul] at hk
        rcases chunk_ends n tot off with hzero | hdone
        · right
          rw [Nat.add_zero]
          omega
        · exact Or.inl hdone
      obtain ⟨D, hD, hut⟩ := ih a u data hw.own (hw.extend.locked hl) hnext (Or.inl rfl)
        (by omega) h
      have hst := (hround.put data (Or.inl (Finset.mem_singleton_self _))).trans hut
      rw [Nat.sub_add_cancel hk'.1] at hst
      refine ⟨_, (Finset.card_union_le _ _).trans ?_, hst⟩
      rw [Finset.card_singleton]
      omega
    | false =>
      cases h
      have hst := (hround.congr (u := u.putBlock a.toNat data) rfl rfl).trans (.refl inum ∅ k' _)
      rw [Nat.sub_add_cancel hk'.1] at hst
      refine ⟨_, (Finset.card_union_le _ _).trans ?_, hst⟩
      rw [Finset.card_singleton, Finset.card_empty]
      omega
  | case2 src tot off s hge =>
    cases h
    exact ⟨∅, Nat.zero_le _, .refl ..⟩

theorem card_le (h : Charged inum D m s t) :
    ∃ l : List ℕ, t.logged = s.logged ++ l ∧ l.toFinset.card ≤ D.card + m + 2 := by
  obtain ⟨l, S, hlog, hmem, hcard⟩ := h.blocks
  have hind := card_indirect_le t inum
  refine ⟨l, hlog, ?_⟩
  calc l.toFinset.card ≤ (D ∪ S ∪ indirect t inum).card := by
        refine Finset.card_le_card fun c hc => ?_
        simp only [Finset.mem_union, or_assoc]
        exact hmem c (mem_toFinset.mp hc)
    _ ≤ D.card + S.card + (indirect t inum).card := (Finset.card_union_le _ _).trans
          (Nat.add_le_add_right (Finset.card_union_le _ _) _)
    _ ≤ D.card + m + 2 := by omega

end Charged

/-- A chunk of `filewrite` logs at most `MAXOPBLOCKS` blocks: one more than three
blocks of the file if it does not start at a block boundary, but the first of
these is not new; a block of the bitmap for every new block; the indirect block
and a block of the bitmap for it; and the block of the inode.  By `Own`, which every
consistent state has, `balloc` does not return block 0. -/
theorem writei_fits_reservation {userSrc : Bool} {mem : Memory} {src off n : ℕ} {r : ℤ}
    (ho : Own sb s) (hl : Locked sb s inum)
    (hholes : ∀ o < (s.icache inum).size.toNat, slotOf (o / BSIZE) ∈ mapped sb s inum)
    (hn : n ≤ maxWrite) (h : writei sb s inum userSrc mem src off n = .ok (r, t)) :
    ∃ l : List ℕ, t.logged = s.logged ++ l ∧ l.toFinset.card ≤ MAXOPBLOCKS := by
  have hnone : ∃ l : List ℕ, s.logged = s.logged ++ l ∧ l.toFinset.card ≤ MAXOPBLOCKS :=
    ⟨[], (append_nil _).symm, Nat.zero_le _⟩
  have hmax : maxWrite = 3 * BSIZE := rfl
  unfold writei at h
  split at h
  · cases h
    exact hnone
  next hchecks =>
    split at h
    · cases h
      exact hnone
    next hsize =>
      obtain ⟨⟨ok, off', u⟩, hu, h⟩ := bind_eq_ok_iff.mp h
      have hend : off + n ≤ MAXFILE * BSIZE := by
        have hlt := (s.icache inum).size.isLt
        have hB : BSIZE = 1024 := rfl
        omega
      obtain ⟨D, hD, hsu⟩ : ∃ D : Finset ℕ, D.card ≤ 4 ∧ Charged inum D 3 s u := by
        by_cases halign : off % BSIZE = 0
        · obtain ⟨D, hD, hsu⟩ := Charged.writeLoop (k := 3) (j := 0) ho hl
            (Or.inr (by omega)) (Or.inl rfl) hend hu
          exact ⟨D, by omega, hsu⟩
        · have hmod : off % BSIZE < BSIZE := Nat.mod_lt _ (by decide)
          refine Charged.writeLoop ho hl (Or.inr (by omega)) (Or.inr ⟨rfl, ?_⟩) hend hu
          have hblock := Nat.div_add_mod' off BSIZE
          have hlt : off / BSIZE < MAXFILE := by
            refine Nat.div_lt_of_lt_mul (lt_of_le_of_ne ?_ ?_)
            · rw [Nat.mul_comm]
              omega
            · rintro rfl
              exact halign (Nat.mul_mod_right ..)
          have hmapped := hholes (off / BSIZE * BSIZE) (by omega)
          rw [Nat.mul_div_cancel _ (by decide), mem_mapped] at hmapped
          obtain ⟨b, href⟩ := Option.ne_none_iff_exists'.mp hmapped
          obtain ⟨a, -, hbmap⟩ := bmap_of_ref hl hlt href
          exact ⟨a, hbmap⟩
      dsimp only at h
      generalize (if ok = true then n else 2 ^ 32 - 1) = n' at h
      split at h
      · cases h
        have hlast : Charged inum D 3 s (if off' > (u.icache inum).size.toNat then
            u.setInode inum fun ip => { ip with size := BitVec.ofNat 32 off' } else u) := by
          split
          · refine hsu.congr rfl ?_
            unfold indirect
            simp [State.setInode]
          · exact hsu
        have hinode := hlast.trans (((Charged.refl inum {sb.IBLOCK inum} 0 _).put zeroBlock
          (Or.inl (Finset.mem_singleton_self _))).congr (u := iupdate sb _ inum) rfl rfl)
        obtain ⟨l, hlog, hcard⟩ := hinode.card_le
        have hunion := Finset.card_union_le D {sb.IBLOCK inum}
        rw [Finset.card_singleton] at hunion
        exact ⟨l, hlog, hcard.trans (show _ ≤ 10 by omega)⟩
      · cases h
        obtain ⟨l, hlog, hcard⟩ := hsu.card_le
        exact ⟨l, hlog, hcard.trans (show _ ≤ 10 by omega)⟩

theorem writei_fits_reservation_tiny :
    ∃ t, writei tinySuperblock tinyState 1 false onesMemory 0 1 3 = .ok (3, t) ∧
      ∃ l : List ℕ, t.logged = tinyState.logged ++ l ∧ l.toFinset.card ≤ MAXOPBLOCKS := by
  obtain ⟨⟨_, t⟩, ht, rfl⟩ : ∃ r, writei tinySuperblock tinyState 1 false onesMemory 0 1 3 =
      .ok r ∧ r.1 = 3 := Fallible.exists_ok_of_any (by decide +kernel)
  refine ⟨t, ht, writei_fits_reservation tinyState_planted.consistent.own tinyState_locked
    (fun o ho => ?_) (by decide) ht⟩
  exact (tinyState_planted.noHoles 1 (by decide) (by decide) o ho).2

theorem File.le_length_write {d : File} {o : ℕ} (ho : o ≤ d.length) (a : List Byte) :
    o + a.length ≤ (d.write o a).length := by
  simp only [File.write, length_append, length_take]
  omega

/-- Two writes one behind the other are one write. -/
theorem File.write_append {d : File} {o : ℕ} (ho : o ≤ d.length) (a b : List Byte) :
    (d.write o a).write (o + a.length) b = d.write o (a ++ b) := by
  have hlen : (d.take o ++ a).length = o + a.length := by rw [length_append, length_take_of_le ho]
  unfold File.write
  rw [take_left' hlen, ← drop_drop, drop_left' hlen, drop_drop,
    append_assoc (d.take o), length_append, Nat.add_assoc]

theorem Memory.bytes_add (mem : Memory) (addr i k : ℕ) :
    mem.bytes addr (i + k) = mem.bytes addr i ++ mem.bytes (addr + i) k := by
  simp [Memory.bytes, range_add, Nat.add_assoc]

end OsCa.Fs

namespace OsCa.Sysfile

open Bytes Fs OsCa.Action

variable {sb : Superblock} {f : Fin NFILE}

/-! ## Rounds -/

/-- One round of the loop of `filewrite`.  It returns the next value of `i`, or
`none` if the loop is left. -/
def filewriteRound (sb : Superblock) (f : Fin NFILE) (mem : Memory) (addr n i : ℕ) :
    M (Option ℕ) := do
  let n1 := min (n - i) maxWrite
  let s ← read
  ilock sb (s.file f).ip
  let r ← writei sb (s.file f).ip true mem (addr + i) (s.file f).off.toNat n1
  advance f r
  if r < 0 then
    return none
  else if r ≠ n1 then
    fail .shortFilewrite
  else
    return some (i + n1)

theorem filewriteLoop_eq (sb : Superblock) (f : Fin NFILE) (mem : Memory) (addr n i : ℕ) :
    filewriteLoop sb f mem addr n i = if i < n then do
      let o ← filewriteRound sb f mem addr n i
      o.elim (pure i) (filewriteLoop sb f mem addr n)
    else pure i := by
  rw [filewriteLoop]
  refine if_congr Iff.rfl ?_ rfl
  unfold filewriteRound
  simp only [bind_assoc]
  refine bind_congr fun s => bind_congr fun _ => bind_congr fun r => bind_congr fun _ => ?_
  split
  · rfl
  · split <;> rfl

/-- A round with a readable buffer writes its bytes at the offset of the file, and
moves the offset behind them. -/
theorem filewriteRound_spec {mem : Memory} {addr n i : ℕ} {s : State} {v : View}
    (h : Rep sb s v) (href : v.ref (v.file f).ip ≠ 0)
    (htype : (v.node (v.file f).ip).type ≠ 0) (hread : Readable mem addr n) (hi : i ≤ n)
    (hoff : (v.file f).off.toNat ≤ (v.node (v.file f).ip).data.length)
    (hend : (v.file f).off.toNat + min (n - i) maxWrite ≤ MAXFILE * BSIZE) :
    wp (filewriteRound sb f mem addr n i) s
      (fun r t => r = some (i + min (n - i) maxWrite) ∧ ∃ w, Rep sb t w ∧
        w.ref = v.ref ∧ (w.file f).ip = (v.file f).ip ∧
        (w.file f).off.toNat = (v.file f).off.toNat + min (n - i) maxWrite ∧
        w.node (v.file f).ip = { v.node (v.file f).ip with
          data := (v.node (v.file f).ip).data.write (v.file f).off.toNat
            (mem.bytes (addr + i) (min (n - i) maxWrite)) })
      (· = .fs .ballocOutOfBlocks) := by
  have hmax : MAXFILE * BSIZE < 2 ^ 31 := by decide
  have hn1 : min (n - i) maxWrite ≤ n - i := min_le_left _ _
  refine wp_read_bind ?_
  rw [h.file_eq]
  generalize hip : (v.file f).ip = ip at *
  generalize min (n - i) maxWrite = n1 at *
  refine wp_bind (ilock_spec h (h.lt_of_type htype) (fun hzero => absurd hzero href)
    fun hzero => absurd hzero htype) ?_
  rintro - t₁ ⟨ht₁, -⟩
  have hbuf : Readable mem (addr + i) n1 := fun a hlo hhi => hread a (by omega) (by omega)
  refine wp_bind (writei_data_spec ht₁ (by rw [View.valid_lock, if_pos rfl]) (by omega)
    (fun _ => hbuf) hoff rfl) ?_
  rintro r t₂ ⟨hr, ht₂⟩
  obtain rfl := hr hend
  refine wp_update_bind ?_
  refine wp_ite (fun hneg => ?_) fun _ => wp_ite (fun hne => ?_) fun _ => wp_pure ⟨rfl, _,
    (ht₂ rfl).setFile f _, rfl, ?_, ?_, ?_⟩
  · omega
  · exact absurd rfl hne
  · simp [View.setFile, View.setNode, View.lock, hip]
  · simp only [View.setFile, Function.update_self]
    change (if (0 : ℤ) < n1 then (v.file f).off + BitVec.ofInt 32 n1 else
      (v.file f).off).toNat = _
    split
    · rw [BitVec.ofInt_natCast, BitVec.toNat_add, BitVec.toNat_ofNat]
      omega
    · omega
  · simp [View.setFile, View.setNode, View.lock]

/-! ## Writers that share an open file -/

/-- A call of `filewrite` that has come to byte `i`. -/
structure Write where
  mem : Memory
  addr : ℕ
  n : ℕ
  i : ℕ

/-- The bytes of one round, the offset at which they are written, and their call:
the process and the number of the call among those of the process. -/
structure Chunk (P : Type) where
  call : P × ℕ
  start : ℕ
  bytes : List Byte

/-- The kernel, the calls of the processes, the number of calls from which each has
returned, and what has been written and returned. -/
structure Shared (P : Type) where
  kernel : State
  current : P → Option Write
  count : P → ℕ
  chunks : List (Chunk P)
  returned : List ((P × ℕ) × Write × ℤ)

namespace Shared

variable {P : Type} [DecidableEq P] {s t : Shared P} {p : P} {c : Write}

inductive Event (P : Type) where
  | filewrite (p : P) (mem : Memory) (addr : ℕ) (n : BitVec 32)
  | round (p : P)

def goto (s : Shared P) (p : P) (o : Option Write) : Shared P :=
  { s with current := Function.update s.current p o }

/-- A round of `p` has brought its call to byte `i`. -/
def append (s : Shared P) (f : Fin NFILE) (p : P) (c : Write) (i : ℕ) (t : State) : Shared P :=
  { s.goto p (some { c with i := i }) with
    kernel := t
    chunks := s.chunks ++ [⟨(p, s.count p), (s.kernel.file f).off.toNat,
      c.mem.bytes (c.addr + c.i) (i - c.i)⟩] }

def leave (s : Shared P) (p : P) (c : Write) (ret : ℤ) : Shared P :=
  { s.goto p none with
    count := Function.update s.count p (s.count p + 1)
    returned := s.returned ++ [((p, s.count p), c, ret)] }

/-- A round is atomic, because the inode is locked. -/
def step (sb : Superblock) (f : Fin NFILE) (s : Shared P) : Event P → Option (Shared P)
  | .filewrite p mem addr n =>
    if (s.current p).isNone then some (s.goto p (some ⟨mem, addr, n.toInt.toNat, 0⟩))
    else none
  | .round p => (s.current p).bind fun c =>
      if c.i < c.n then
        match filewriteRound sb f c.mem c.addr c.n c.i s.kernel with
        | .ok (some i, t) => some (s.append f p c i t)
        | .ok (none, t) => some ({ s with kernel := t }.leave p c (-1))
        | .error _ => none
      else some (s.leave p c c.n)

def system (sb : Superblock) (f : Fin NFILE) (P : Type) [DecidableEq P] :
    EventSystem (Shared P) (Event P) where
  init s := (∀ p, s.current p = none) ∧ s.chunks = [] ∧ s.returned = []
  step := step sb f

/-- The buffers can be read, the lengths are positive, and the file does not get
too long. -/
def Valid (f : Fin NFILE) (s : Shared P) : Event P → Prop
  | .filewrite _ mem addr n => 0 < n.toInt ∧ Readable mem addr n.toInt.toNat
  | .round p => ∀ c, s.current p = some c →
      (s.kernel.file f).off.toNat + min (c.n - c.i) maxWrite ≤ MAXFILE * BSIZE

/-- What has been written, in the order of the file. -/
def bytes (s : Shared P) : List Byte := s.chunks.flatMap Chunk.bytes

/-- What one call has written, in the order of the file. -/
def bytesOf (s : Shared P) (call : P × ℕ) : List Byte :=
  (s.chunks.filter (·.call = call)).flatMap Chunk.bytes

/-- The file had the contents `d` and the offset `o` at first. -/
structure Inv (sb : Superblock) (f : Fin NFILE) (ip : ℕ) (d : File) (o : ℕ)
    (s : Shared P) : Prop where
  file : ∃ v, Rep sb s.kernel v ∧ (v.file f).ip = ip ∧ v.ref ip ≠ 0 ∧
    (v.node ip).type ≠ 0 ∧ (v.node ip).data = d.write o s.bytes ∧
    (v.file f).off.toNat = o + s.bytes.length
  tiles : ∀ l c l', s.chunks = l ++ c :: l' → c.start = o + (l.flatMap Chunk.bytes).length
  valid : ∀ p c, s.current p = some c → c.i ≤ c.n ∧ Readable c.mem c.addr c.n
  now : ∀ p, s.bytesOf (p, s.count p) = (s.current p).elim [] fun c => c.mem.bytes c.addr c.i
  later : ∀ p k, s.count p < k → s.bytesOf (p, k) = []
  returned : ∀ p k c r, ((p, k), c, r) ∈ s.returned →
    k < s.count p ∧ r = c.n ∧ s.bytesOf (p, k) = c.mem.bytes c.addr c.n

theorem bytesOf_append (s : Shared P) (p : P) (c : Write) (i : ℕ) (u : State)
    (call : P × ℕ) : (s.append f p c i u).bytesOf call = s.bytesOf call ++
      if (p, s.count p) = call then c.mem.bytes (c.addr + c.i) (i - c.i) else [] := by
  unfold bytesOf append
  rw [List.filter_append, List.flatMap_append]
  split
  next hcall => simp [hcall]
  next hcall => simp [hcall]

variable {ip o : ℕ} {d : File}

/-- A round of a call writes its next bytes behind those of the last round. -/
theorem Inv.append {u : State} {r : Option ℕ} (h : Inv sb f ip d o s) (ho : o ≤ d.length)
    (hp : s.current p = some c) (hok : Valid f s (.round p))
    (hrun : filewriteRound sb f c.mem c.addr c.n c.i s.kernel = .ok (r, u)) :
    ∃ i, r = some i ∧ Inv sb f ip d o (s.append f p c i u) := by
  obtain ⟨v, hv, rfl, href, htype, hdata, hoff⟩ := h.file
  obtain ⟨hi, hread⟩ := h.valid p c hp
  have hend := hok c hp
  rw [hv.file_eq] at hend
  obtain ⟨rfl, w, hw, hwref, hwip, hwoff, hwnode⟩ := wp_ok (filewriteRound_spec hv href htype
    hread hi (by rw [hdata, hoff]; exact File.le_length_write ho _) hend) hrun
  have hn1 : min (c.n - c.i) maxWrite ≤ c.n - c.i := min_le_left _ _
  generalize min (c.n - c.i) maxWrite = n1 at *
  have hbytes : (s.append f p c (c.i + n1) u).bytes = s.bytes ++ c.mem.bytes (c.addr + c.i) n1 := by
    simp [Shared.bytes, Shared.append]
  have hother : ∀ call, (p, s.count p) ≠ call →
      (s.append f p c (c.i + n1) u).bytesOf call = s.bytesOf call := fun call hne => by
    rw [bytesOf_append, if_neg hne, List.append_nil]
  refine ⟨_, rfl, ⟨w, hw, hwip, hwref ▸ href, ?_, ?_, ?_⟩, fun l x l' hl => ?_, fun q x hq => ?_,
    fun q => ?_, fun q k hk => ?_, fun q k x r hx => ?_⟩
  · rw [hwnode]
    exact htype
  · rw [hwnode, hbytes, hdata, hoff]
    exact File.write_append ho _ _
  · rw [hwoff, hoff, hbytes, List.length_append, Memory.length_bytes, Nat.add_assoc]
  · rcases List.eq_nil_or_concat l' with rfl | ⟨l'', y, rfl⟩
    · obtain ⟨rfl, hx⟩ := List.append_inj' hl rfl
      cases hx
      rw [hv.file_eq]
      exact hoff
    · rw [List.concat_eq_append, ← List.cons_append, ← List.append_assoc] at hl
      exact h.tiles l x l'' (List.append_inj' hl rfl).1
  · change Function.update s.current p _ q = some x at hq
    rw [Function.update_apply] at hq
    split at hq
    · cases hq
      exact ⟨by dsimp only; omega, hread⟩
    · exact h.valid q x hq
  · change (s.append f p c (c.i + n1) u).bytesOf (q, s.count q) =
      (Function.update s.current p _ q).elim _ _
    by_cases hq : q = p
    · subst hq
      rw [Function.update_self, bytesOf_append, if_pos rfl, h.now, hp, Nat.add_sub_cancel_left]
      exact (Memory.bytes_add ..).symm
    · rw [Function.update_of_ne hq, hother _ fun heq => hq (congrArg Prod.fst heq).symm]
      exact h.now q
  · rw [hother _ fun heq => by cases heq; exact absurd hk (lt_irrefl _)]
    exact h.later q k hk
  · obtain ⟨hk, hr⟩ := h.returned q k x r hx
    rw [hother _ fun heq => by cases heq; exact absurd hk (lt_irrefl _)]
    exact ⟨hk, hr⟩

/-- A call returns when it has written all its bytes. -/
theorem Inv.leave (h : Inv sb f ip d o s) (hp : s.current p = some c) (hi : ¬ c.i < c.n) :
    Inv sb f ip d o (s.leave p c c.n) := by
  have hcount : ∀ q, s.count q ≤ Function.update s.count p (s.count p + 1) q := fun q => by
    rw [Function.update_apply]
    split
    next heq => rw [heq]; exact Nat.le_succ _
    next => exact le_refl _
  refine ⟨h.file, h.tiles, fun q x hq => ?_, fun q => ?_, fun q k hk =>
    h.later q k ((hcount q).trans_lt hk), fun q k x r hx => ?_⟩
  · change Function.update s.current p none q = some x at hq
    rw [Function.update_apply] at hq
    split at hq
    · cases hq
    · exact h.valid q x hq
  · change s.bytesOf (q, Function.update s.count p _ q) =
      (Function.update s.current p none q).elim _ _
    by_cases hq : q = p
    · subst hq
      rw [Function.update_self, Function.update_self]
      exact h.later q _ (Nat.lt_succ_self _)
    · rw [Function.update_of_ne hq, Function.update_of_ne hq]
      exact h.now q
  · rcases List.mem_append.mp hx with hx | hx
    · obtain ⟨hk, hr⟩ := h.returned q k x r hx
      exact ⟨hk.trans_le (hcount q), hr⟩
    · cases List.mem_singleton.mp hx
      have hnow := h.now p
      rw [hp] at hnow
      refine ⟨?_, rfl, ?_⟩
      · change _ < Function.update s.count p _ p
        rw [Function.update_self]
        exact Nat.lt_succ_self _
      · rw [← (h.valid p c hp).1.antisymm (Nat.le_of_not_lt hi)]
        exact hnow

theorem Inv.step {e : Event P} (h : Inv sb f ip d o s) (ho : o ≤ d.length)
    (hok : Valid f s e) (hstep : Shared.step sb f s e = some t) : Inv sb f ip d o t := by
  cases e with
  | filewrite p mem addr n =>
    obtain ⟨hnone, hstep⟩ := Option.ite_none_right_eq_some.mp hstep
    rw [Option.isNone_iff_eq_none] at hnone
    cases hstep
    refine ⟨h.file, h.tiles, fun q x hq => ?_, fun q => ?_, h.later, h.returned⟩
    · change Function.update s.current p _ q = some x at hq
      rw [Function.update_apply] at hq
      split at hq
      · cases hq
        exact ⟨Nat.zero_le _, hok.2⟩
      · exact h.valid q x hq
    · change s.bytesOf (q, s.count q) = (Function.update s.current p _ q).elim _ _
      rw [Function.update_apply]
      split
      next heq =>
        rw [heq, h.now, hnone]
        rfl
      next => exact h.now q
  | round p =>
    obtain ⟨c, hp, hstep⟩ := Option.bind_eq_some_iff.mp hstep
    split at hstep
    next =>
      cases hrun : filewriteRound sb f c.mem c.addr c.n c.i s.kernel with
      | error e => simp [hrun] at hstep
      | ok a =>
        obtain ⟨r, u⟩ := a
        obtain ⟨i, rfl, hinv⟩ := h.append ho hp hok hrun
        simp only [hrun, Option.some.injEq] at hstep
        exact hstep ▸ hinv
    next hi =>
      cases hstep
      exact h.leave hp hi

/-- Processes that share an open file lose no writes.  In every interleaving of
their rounds, the offset moves by the bytes that are written; the chunks follow each
other in the file without gap or overlap; and the chunks of each call, in this order,
are the bytes of its buffer, all of them once it has returned.  With an offset behind the
end, which only a truncation leaves, `writei` writes nothing and every call returns -1. -/
theorem shared_offset_loses_no_writes {s₀ : Shared P} {es : List (Event P)} {v : View}
    (hstart : (system sb f P).init s₀) (hv : Rep sb s₀.kernel v)
    (href : v.ref (v.file f).ip ≠ 0) (htype : (v.node (v.file f).ip).type ≠ 0)
    (hoff : (v.file f).off.toNat ≤ (v.node (v.file f).ip).data.length)
    (hok : (system sb f P).Meets (Valid f) s₀ es)
    (hrun : (system sb f P).run s₀ es = some s) :
    (s.kernel.file f).off.toNat = (v.file f).off.toNat + s.bytes.length ∧
    content sb s.kernel.fs (v.file f).ip =
      (v.node (v.file f).ip).data.write (v.file f).off.toNat s.bytes ∧
    (∀ l c l', s.chunks = l ++ c :: l' →
      c.start = (v.file f).off.toNat + (l.flatMap Chunk.bytes).length) ∧
    (∀ p c, s.current p = some c → s.bytesOf (p, s.count p) = c.mem.bytes c.addr c.i) ∧
    ∀ p k c r, ((p, k), c, r) ∈ s.returned →
      r = c.n ∧ s.bytesOf (p, k) = c.mem.bytes c.addr c.n := by
  obtain ⟨hidle, hchunks, hreturned⟩ := hstart
  have hnone : ∀ call, s₀.bytesOf call = [] := fun call => by
    rw [bytesOf, hchunks]
    rfl
  have hbytes : s₀.bytes = [] := by
    rw [bytes, hchunks]
    rfl
  have hinit : Inv sb f (v.file f).ip (v.node (v.file f).ip).data (v.file f).off.toNat s₀ := by
    refine ⟨⟨v, hv, rfl, href, htype, ?_, by rw [hbytes]; rfl⟩, fun l c l' hl => ?_,
      fun p c hp => ?_, fun p => ?_, fun p k _ => hnone _, fun p k c r hmem => ?_⟩
    · simp [hbytes, File.write]
    · rw [hchunks] at hl
      simp at hl
    · exact absurd ((hidle p).symm.trans hp) (by simp)
    · rw [hnone, hidle]
      rfl
    · rw [hreturned] at hmem
      cases hmem
  have hinv := hok.invariant (fun _ _ _ hs he hstep => hs.step hoff he hstep) hinit hrun
  obtain ⟨w, hw, hip, -, htype', hdata, hoff'⟩ := hinv.file
  refine ⟨?_, ?_, hinv.tiles, fun p c hp => ?_, fun p k c r hmem => (hinv.returned p k c r hmem).2⟩
  · rw [hw.file_eq, hoff']
  · rw [hw.data_eq (hw.lt_of_type htype'), hdata]
  · rw [hinv.now, hp]
    rfl

def firstFile : Fin NFILE := ⟨0, by decide⟩

/-- Two processes that have the file of `tinyState` open. -/
def twoWriters : Shared (Fin 2) where
  kernel :=
    { fs := tinyState
      ref := fun _ => 1
      entries := 1
      file := fun _ => ⟨.inode, 2, true, true, 1, 0, 0⟩
      proc := fun _ => ⟨fun _ => none, none⟩ }
  current _ := none
  count _ := 0
  chunks := []
  returned := []

/-- Both call `filewrite`, and the second writes a chunk. -/
def bothWrite : List (Event (Fin 2)) :=
  [.filewrite 0 ⟨fun _ => true, fun _ => 1⟩ 0 5, .filewrite 1 ⟨fun _ => true, fun _ => 2⟩ 0 3,
    .round 1]

theorem shared_offset_loses_no_writes_twoWriters :
    ∃ s, (system tinySuperblock firstFile (Fin 2)).run twoWriters bothWrite = some s ∧
      s.bytes = [2, 2, 2] ∧ (s.kernel.file firstFile).off.toNat = s.bytes.length := by
  have hok : (system tinySuperblock firstFile (Fin 2)).Meets (Valid firstFile) twoWriters
      bothWrite := by
    refine ⟨⟨by decide, fun _ _ _ => rfl⟩, fun t ht => ?_⟩
    cases ht
    refine ⟨⟨by decide, fun _ _ _ => rfl⟩, fun t ht => ?_⟩
    cases ht
    refine ⟨fun c hc => ?_, fun _ _ => trivial⟩
    cases hc
    decide
  obtain ⟨s, hs, hbytes⟩ :
      ∃ s, (system tinySuperblock firstFile (Fin 2)).run twoWriters bothWrite = some s ∧
      s.bytes = [2, 2, 2] := EventSystem.exists_of_any_run (by decide +kernel)
  have hrep : Rep tinySuperblock twoWriters.kernel (twoWriters.kernel.view tinySuperblock) :=
    ⟨tinyState_planted.consistent, tinyState_planted.noHoles, rfl⟩
  have hall := shared_offset_loses_no_writes ⟨fun _ => rfl, rfl, rfl⟩ hrep (by decide)
    (by decide +kernel) (by decide +kernel) hok hs
  exact ⟨s, hs, hbytes, hall.1.trans (Nat.zero_add _)⟩

end Shared

end OsCa.Sysfile
