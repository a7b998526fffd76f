import OsCa.Kernel.Fs.Files

/-!
# The effect of every operation on the files

Each operation of the inode layer works on one inode.  This module says what it
does to this inode, and that every other inode keeps its fields, its blocks and
its contents.  Code that uses inodes - directories, system calls - needs
nothing else about blocks and bitmaps.

A consequence is that files never get holes: reading a file never allocates.
-/

namespace OsCa.Fs

open Bytes Fallible

variable {sb : Superblock} {s s' : State} {inum i : ℕ}

variable {type : Short} {mem : Memory} {src off n dst : ℕ} {userDst : Bool}

/-! ## Inodes that an operation leaves alone -/

structure Kept (sb : Superblock) (i : ℕ) (s s' : State) : Prop where
  inode : s'.inode sb i = s.inode sb i
  content : content sb s' i = content sb s i
  mapped : mapped sb s i ⊆ mapped sb s' i

theorem Kept.refl (sb : Superblock) (i : ℕ) (s : State) : Kept sb i s s :=
  ⟨rfl, rfl, Finset.Subset.refl _⟩

/-- The inode is the same, and so are its blocks. -/
theorem Kept.of_blocks (hinode : s'.inode sb i = s.inode sb i)
    (hdata : ∀ sl b, ref sb s (i, sl) = some b → s'.disk b = s.disk b) :
    Kept sb i s s' := by
  have href : ∀ sl, ref sb s' (i, sl) = ref sb s (i, sl) := fun sl =>
    ref_congr (fun _ => hinode) fun a ha => hdata .indirect a ha
  refine ⟨hinode, content_congr (by rw [hinode]) (fileByte_of_blocks href hdata), fun sl hsl => ?_⟩
  rw [mem_mapped] at hsl ⊢
  rwa [href]

theorem Kept.of_data (ho : Own sb s) (hinode : s'.inode sb i = s.inode sb i)
    (hdata : ∀ c, sb.nmeta ≤ c → s'.disk c = s.disk c) : Kept sb i s s' :=
  Kept.of_blocks hinode fun _ b hb => hdata b (ho.range hb).1

/-- The inode that an operation works on has no holes if it has no bytes. -/
theorem NoHoles.of_kept (h : NoHoles sb s) (hkept : ∀ i < sb.ninodes, i ≠ inum → Kept sb i s s')
    (hself : (s'.inode sb inum).type = 0 ∨ (s'.inode sb inum).size = 0) :
    NoHoles sb s' := by
  intro i hi htype o ho
  by_cases hne : i = inum
  · subst i
    rcases hself with hself | hself
    · exact absurd hself htype
    · rw [hself] at ho
      exact absurd ho (Nat.not_lt_zero o)
  · have hk := hkept i hi hne
    rw [hk.inode] at htype ho
    exact ⟨(h i hi htype o ho).1, hk.mapped (h i hi htype o ho).2⟩

/-! ## Locking -/

theorem ilock_kept (h : Consistent sb s) (hlt : inum < sb.ninodes)
    (hok : ilock sb s inum = .ok s') (i : ℕ) : Kept sb i s s' := by
  obtain ⟨-, -, hdisk, hinode⟩ := ilock_ok h hlt hok
  exact Kept.of_blocks (hinode i) fun _ b _ => by rw [hdisk]

theorem ilock_icache (hok : ilock sb s inum = .ok s') (hi : i ≠ inum) :
    s'.icache i = s.icache i := by
  unfold ilock at hok
  split at hok
  next =>
    dsimp only at hok
    split at hok
    next => cases hok
    next =>
      cases hok
      exact Function.update_of_ne hi _ _
  next =>
    cases hok
    rfl

/-- `ilock` panics only if the inode is free. -/
theorem ilock_free {e : Panic} (hlt : inum < sb.ninodes) (h : Consistent sb s)
    (herr : ilock sb s inum = .error e) :
    e = .ilockNoType ∧ (s.inode sb inum).type = 0 := by
  refine ⟨ilock_error herr, ?_⟩
  rw [h.inode_eq hlt]
  unfold ilock at herr
  split at herr
  next hvalid =>
    dsimp only at herr
    split at herr
    next htype => simpa [State.setInode] using htype
    next => cases herr
  next => cases herr

/-- An entry that is taken for another inode forgets its copy. -/
theorem recycle_kept (h : Consistent sb s) (hlt : inum < sb.ninodes) (i : ℕ) :
    Kept sb i s (s.setInode inum fun ip => { ip with valid := false }) := by
  refine Kept.of_blocks ?_ fun _ b _ => rfl
  by_cases hi : i = inum
  · subst i
    rw [h.inode_eq hlt]
    exact if_neg (by simp [State.setInode])
  · exact inode_congr (Function.update_of_ne hi _ _) rfl

/-! ## Allocating and freeing -/

theorem ialloc_new (h : Consistent sb s) (hok : ialloc sb s type = .ok (inum, s')) :
    s'.inode sb inum = newDinode type := by
  obtain ⟨-, hlt, htype, hs'⟩ := ialloc_found hok
  have hvalid := h.not_valid_of_free hlt htype
  rw [hs']
  unfold State.inode
  rw [if_neg (by simpa [State.logWrite] using hvalid)]
  exact (readDinode_initInode type).trans (if_pos rfl)

theorem ialloc_kept (h : Consistent sb s) (hok : ialloc sb s type = .ok (inum, s'))
    (hne : i ≠ inum) : Kept sb i s s' := by
  obtain ⟨-, hlt, -, hs'⟩ := ialloc_found hok
  subst s'
  exact Kept.of_data h.own (inode_congr rfl ((readDinode_initInode type).trans (if_neg hne)))
    fun c hc => data_initInode type hlt hc

theorem content_of_size_zero (h : (s.inode sb i).size = 0) : content sb s i = [] := by
  unfold content
  rw [h]
  rfl

theorem Truncated.kept (ht : Truncated sb inum s s') (ho : Own sb s)
    (hi : i < sb.ninodes) (hne : i ≠ inum) : Kept sb i s s' := by
  refine Kept.of_data ho (inode_congr (ht.icache i hne) ?_) ht.data
  rw [ht.dinode i hi, if_neg hne]

theorem Truncated.inode (ht : Truncated sb inum s s') (hl : Locked sb s inum) : s'.inode sb inum =
      { s.inode sb inum with size := 0, addrs := fun _ => 0 } := by
  have hvalid : (s'.icache inum).valid = true := by
    rw [ht.self]
    exact hl.valid
  rw [State.inode, if_pos hvalid, ht.self, hl.inode]

theorem Released.kept (hr : Released sb inum s s') (ho : Own sb s)
    (hi : i < sb.ninodes) (hne : i ≠ inum) : Kept sb i s s' := by
  refine Kept.of_data ho (inode_congr (hr.icache i hne) ?_) hr.data
  rw [hr.dinode i hi, if_neg hne]

theorem Released.inode (hr : Released sb inum s s') (hlt : inum < sb.ninodes) : s'.inode sb inum =
      { (s.icache inum).toDinode with
        type := 0, size := 0, addrs := fun _ => 0 } := by
  unfold State.inode
  rw [if_neg (by rw [hr.valid]; decide), hr.dinode inum hlt, if_pos rfl]

/-! ## Changing fields of an inode -/

/-- What code does that sets `major`, `minor` and `nlink` of a locked inode and
writes it back. -/
structure Updated (sb : Superblock) (inum : ℕ) (major minor nlink : Short)
    (s s' : State) : Prop where
  consistent : Consistent sb s'
  locked : Locked sb s' inum
  self : s'.icache inum =
    { s.icache inum with major := major, minor := minor, nlink := nlink }
  content : content sb s' inum = content sb s inum
  mapped : mapped sb s inum ⊆ mapped sb s' inum
  kept : ∀ i < sb.ninodes, i ≠ inum → Kept sb i s s'
  icache : ∀ i, i ≠ inum → s'.icache i = s.icache i

theorem updated_iupdate (h : Consistent sb s) (hl : Locked sb s inum) (major minor nlink : Short) :
    Updated sb inum major minor nlink s (iupdate sb (s.setInode inum fun ip =>
      { ip with major := major, minor := minor, nlink := nlink }) inum) := by
  set t := s.setInode inum fun ip =>
    { ip with major := major, minor := minor, nlink := nlink }
  set u := iupdate sb t inum
  have hself : t.icache inum =
      { s.icache inum with
        major := major, minor := minor, nlink := nlink } :=
    Function.update_self _ _ _
  have hother : ∀ i, i ≠ inum → t.icache i = s.icache i := fun i hi => Function.update_of_ne hi _ _
  have hlt : Locked sb t inum := hl.congr (by rw [hself]) (by rw [hself])
  have hlu : Locked sb u inum := ⟨hl.lt, hlt.valid, hlt.type⟩
  have hdata : ∀ c, sb.nmeta ≤ c → u.disk c = s.disk c := fun c hc => data_writeDinode _ hl.lt hc
  have hreft : ∀ q, ref sb t q = ref sb s q := ref_of_fields hl rfl hother
    (by rw [hself]) (by rw [hself]) (by rw [hself])
  have hot : Own sb t := own_of_views h.own (fun _ _ => rfl) hreft
  have href : ∀ sl, ref sb u (inum, sl) = ref sb s (inum, sl) := fun sl =>
    (ref_iupdate hot hlt _).trans (hreft _)
  refine ⟨consistent_iupdate h hot hlt hother fun _ _ _ => rfl, hlu, hself, ?_,
    fun sl hsl => ?_, fun i hi hne => ?_, hother⟩
  · refine content_congr ?_ (fileByte_of_blocks href fun _ b hb => hdata b (h.own.range hb).1)
    rw [hlu.inode, hl.inode, show u.icache inum = t.icache inum from rfl, hself]
  · rw [mem_mapped] at hsl ⊢
    rwa [href]
  · exact Kept.of_data h.own (inode_congr (hother i hne)
        ((readDinode_writeDinode _).trans (if_neg hne))) hdata

theorem Updated.noHoles {major minor nlink : Short}
    (hu : Updated sb inum major minor nlink s s') (h : NoHoles sb s)
    (hl : Locked sb s inum) : NoHoles sb s' := by
  intro i hi htype o ho
  by_cases hne : i = inum
  · subst i
    rw [hu.locked.inode, hu.self] at ho
    have hold := h inum hi (by rw [hl.inode]; exact hl.type) o (by rw [hl.inode]; exact ho)
    exact ⟨hold.1, hu.mapped hold.2⟩
  · have hk := hu.kept i hi hne
    rw [hk.inode] at htype ho
    exact ⟨(h i hi htype o ho).1, hk.mapped (h i hi htype o ho).2⟩

/-! ## Writing -/

/-- What any `writei` does, also one that is rejected or whose copy fails. -/
structure Rewritten (sb : Superblock) (inum : ℕ) (s s' : State) : Prop where
  consistent : Consistent sb s'
  noHoles : NoHoles sb s'
  locked : Locked sb s' inum
  self : s'.icache inum =
    { s.icache inum with
      size := (s'.icache inum).size, addrs := (s'.icache inum).addrs }
  kept : ∀ i < sb.ninodes, i ≠ inum → Kept sb i s s'
  icache : ∀ i, i ≠ inum → s'.icache i = s.icache i

theorem Written.rewritten {off' : ℕ} {ok : Bool} {s₁ : State}
    (hw : Written sb inum mem src off n ok off' s s₁) (hholes : NoHoles sb s)
    (hl : Locked sb s inum) (hacc : Accepted s inum off n)
    (hconsistent : Consistent sb s')
    (hend : Committed sb inum off' s₁ s' ∨ n = 0 ∧ s' = s₁) :
    Rewritten sb inum s s' := by
  have hl₁ := hw.extend.locked hl
  have hoff' : off' ≤ MAXFILE * BSIZE := hw.le_end.trans hacc.2
  rcases hend with hc | ⟨rfl, rfl⟩
  · have hl' : Locked sb s' inum := hl₁.congr (by rw [hc.self]) (by rw [hc.self])
    have hkept : ∀ p b, ref sb s p = some b → ref sb s' p = some b := by
      intro p b hp
      rw [hc.ref, hw.extend.kept p b hp]
    have hinode : ∀ i < sb.ninodes, i ≠ inum → s'.inode sb i = s.inode sb i := by
      intro i hi hne
      rw [← hw.extend.inode_of_ne hne hi]
      exact inode_congr (hc.icache i hne) (hc.dinode i hi hne)
    refine ⟨hconsistent, ?_, hl', ?_, fun i hi hne => ⟨hinode i hi hne, ?_,
      fun sl hsl => mem_mapped_of_kept hkept hsl⟩, ?_⟩
    · refine hholes.grow hl hacc.1 hoff' hkept hinode ?_ fun o hlo hhi => ?_
      · rw [hl'.inode, hc.self]
        dsimp only
        rw [grownSize_toNat (hoff'.trans_lt (by decide)), hw.extend.fields]
      · rw [mapped_congr hc.ref]
        exact hw.filled o hlo hhi
    · rw [hc.self, hw.extend.fields]
    · refine content_congr (by rw [hinode i hi hne]) fun o => ?_
      rw [fileByte_congr hw.own hc.ref hc.data, hw.outside i o (Or.inl hne)]
    · exact fun i hne => (hc.icache i hne).trans (hw.extend.icache i hne)
  · have hinode : ∀ i < sb.ninodes, i ≠ inum → s'.inode sb i = s.inode sb i := fun i hi hne =>
      hw.extend.inode_of_ne hne hi
    refine ⟨hconsistent, ?_, hl₁, ?_, fun i hi hne => ⟨hinode i hi hne, ?_,
      fun sl hsl => mem_mapped_of_kept hw.extend.kept hsl⟩, hw.extend.icache⟩
    · refine hholes.grow hl hacc.1 hoff' hw.extend.kept hinode ?_ hw.filled
      rw [hl₁.inode, hw.extend.fields]
      exact Nat.le_max_left _ _
    · rw [hw.extend.fields]
    · exact content_congr (by rw [hinode i hi hne]) fun o => hw.outside i o (Or.inl hne)

theorem writei_rewritten {userSrc : Bool} {r : ℤ} (h : Consistent sb s)
    (hholes : NoHoles sb s) (hl : Locked sb s inum) (hn : n < 2 ^ 32)
    (hok : writei sb s inum userSrc mem src off n = .ok (r, s')) :
    Rewritten sb inum s s' := by
  by_cases hacc : Accepted s inum off n
  · obtain ⟨ok, off', s₁, hw, -, -, hconsistent, hend⟩ := writei_ok h hl hacc hok
    exact hw.rewritten hholes hl hacc hconsistent hend
  · rw [writei_of_not_accepted hn hacc] at hok
    cases hok
    exact ⟨h, hholes, hl, rfl, fun i _ _ => Kept.refl sb i s, fun _ _ => rfl⟩

/-! ## Reading never allocates -/

/-- The loop of `readi` over mapped bytes leaves the state as it is, even if a
copy fails. -/
theorem readLoop_unchanged {tot : ℕ} (hl : Locked sb s inum)
    (hmapped : ∀ o, off ≤ o → o < off + (n - tot) →
      o / BSIZE < MAXFILE ∧ slotOf (o / BSIZE) ∈ mapped sb s inum) :
    ∃ ok mem', readLoop sb inum userDst n mem dst tot off s =
      .ok (ok, mem', s) := by
  fun_induction readLoop sb inum userDst n mem dst tot off s with
  | case1 mem dst tot off s hlt ih =>
    have hm := chunk_le n tot off
    obtain ⟨hbn, hslot⟩ := hmapped off (Nat.le_refl _) (by omega)
    obtain ⟨b, hb⟩ := Option.ne_none_iff_exists'.mp (mem_mapped.mp hslot)
    obtain ⟨a, -, hbmap⟩ := bmap_of_ref hl hbn hb
    rw [hbmap]
    simp only [bind, Except.bind]
    rcases eitherCopyout userDst mem dst (fun i => peek (s.disk a.toNat) (off % BSIZE + i))
      (chunk n tot off) with ⟨mem₁, ok₁⟩
    cases ok₁ with
    | true => exact ih s mem₁ hl fun o hlo hhi => hmapped o (by omega) (by omega)
    | false => exact ⟨false, mem₁, rfl⟩
  | case2 mem dst tot off s hlt => exact ⟨true, mem, rfl⟩

theorem readi_unchanged (hl : Locked sb s inum) (hholes : NoHoles sb s) (hn : n < 2 ^ 32) :
    ∃ r mem', readi sb s inum userDst mem dst off n = .ok (r, mem', s) := by
  have htype : (s.inode sb inum).type ≠ 0 := by
    rw [hl.inode]
    exact hl.type
  have hsize := (s.icache inum).size.isLt
  unfold readi
  dsimp only
  split
  next => exact ⟨0, mem, rfl⟩
  next hchecks =>
    generalize hm : (if (off + n) % 2 ^ 32 > (s.icache inum).size.toNat then
      (s.icache inum).size.toNat - off else n) = m
    -- Neither of the two lengths leads past the end of the file.
    have hle : off + m ≤ (s.icache inum).size.toNat := by
      rw [← hm]
      split <;> omega
    obtain ⟨ok, mem', hloop⟩ : ∃ ok mem',
        readLoop sb inum userDst m mem dst 0 off s = .ok (ok, mem', s) :=
      readLoop_unchanged hl fun o hlo hhi => hholes inum hl.lt htype o (by rw [hl.inode]; omega)
    rw [hloop]
    exact ⟨_, mem', rfl⟩

/-! ## Sequences of operations -/

/-- `NoHoles` block by block: file blocks below the size are mapped. -/
theorem noHoles_iff : NoHoles sb s ↔ ∀ i < sb.ninodes, (s.inode sb i).type ≠ 0 →
      ∀ bn < ((s.inode sb i).size.toNat + BSIZE - 1) / BSIZE,
        (blockOf sb s i bn).isSome = true := by
  have hpos : 0 < BSIZE := by decide
  have hiff : ∀ i bn, (bn < MAXFILE ∧ slotOf bn ∈ mapped sb s i) ↔
      (blockOf sb s i bn).isSome = true := by
    intro i bn
    rw [mem_mapped, ← Option.isSome_iff_ne_none]
    unfold blockOf
    by_cases hbn : bn < MAXFILE <;> simp [hbn]
  constructor
  · intro h i hi htype bn hbn
    have hlt : bn * BSIZE < (s.inode sb i).size.toNat := by
      rw [Nat.lt_div_iff_mul_lt hpos] at hbn
      omega
    have hblock := h i hi htype _ hlt
    rw [Nat.mul_div_cancel _ hpos] at hblock
    exact (hiff i bn).mp hblock
  · intro h i hi htype o ho
    refine (hiff i _).mpr (h i hi htype _ ?_)
    rw [Nat.div_lt_iff_lt_mul hpos]
    have hround := Nat.div_add_mod ((s.inode sb i).size.toNat + BSIZE - 1) BSIZE
    have hmod := Nat.mod_lt ((s.inode sb i).size.toNat + BSIZE - 1) hpos
    rw [Nat.mul_comm] at hround
    omega

theorem Op.run_noHoles (h : Consistent sb s) (hholes : NoHoles sb s)
    (op : Op sb) (hok : op.run s = .ok s') : NoHoles sb s' := by
  cases op with
  | ialloc type =>
    obtain ⟨⟨i, s₁⟩, hrun, hok⟩ := bind_eq_ok_iff.mp hok
    cases hok
    exact hholes.of_kept (fun j _ hne => ialloc_kept h hrun hne)
      (Or.inr (by rw [ialloc_new h hrun]; rfl))
  | writei inum userSrc mem src off n =>
    obtain ⟨s₁, hlock, hok⟩ := bind_eq_ok_iff.mp hok
    obtain ⟨h₁, hl₁, hdisk, hinode⟩ := ilock_ok h inum.isLt hlock
    obtain ⟨r, hrun, hok⟩ := bind_eq_ok_iff.mp hok
    cases hok
    exact (writei_rewritten h₁ (noHoles_of_inode_eq hholes hdisk hinode) hl₁ n.isLt hrun).noHoles
  | itrunc inum =>
    obtain ⟨s₁, hlock, hok⟩ := bind_eq_ok_iff.mp hok
    obtain ⟨h₁, hl₁, hdisk, hinode⟩ := ilock_ok h inum.isLt hlock
    obtain ⟨s₂, hrun, htrunc⟩ := itrunc_ok h₁.own hl₁
    rw [hrun] at hok
    cases hok
    exact (noHoles_of_inode_eq hholes hdisk hinode).of_kept
      (fun i hi hne => htrunc.kept h₁.own hi hne)
      (Or.inr (by rw [htrunc.inode hl₁]))
  | iput inum last =>
    obtain ⟨s₁, hrun, hcases⟩ := iput_cases h inum.isLt last
    rw [Op.run, hrun] at hok
    cases hok
    split at hcases
    · exact hholes.of_kept (fun i hi hne => hcases.kept h.own hi hne)
        (Or.inl (by rw [hcases.inode inum.isLt]))
    · rwa [hcases]
  | recycle inum =>
    cases hok
    refine noHoles_of_inode_eq hholes rfl fun i => (recycle_kept h inum.isLt i).inode

/-- On a consistent file system without holes, any sequence of operations leaves
no holes, and a read of any inode returns in the state it started from:
nothing was allocated, and nothing was written to the log. -/
theorem reads_never_allocate (h : Consistent sb s) (hholes : NoHoles sb s) (ops : List (Op sb)) :
    ∀ s', ops.foldlM Op.run s = .ok s' → NoHoles sb s' ∧
        ∀ inum < sb.ninodes, ∀ s'', ilock sb s' inum = .ok s'' →
          ∀ (userDst : Bool) (mem : Memory) (dst : ℕ) (off n : Uint),
            ∃ r mem', readi sb s'' inum userDst mem dst off.toNat n.toNat =
              .ok (r, mem', s'') := by
  intro s' hrun
  obtain ⟨h', hholes'⟩ := (foldlM_invariant
    (P := fun s => Consistent sb s ∧ NoHoles sb s) (Q := fun _ => True)
    (fun s op t hs hok => ⟨op.run_ok hs.1 hok, op.run_noHoles hs.1 hs.2 hok⟩)
    (fun _ _ _ _ _ => trivial) ops ⟨h, hholes⟩).1 s' hrun
  refine ⟨hholes', fun inum hlt s'' hlock userDst mem dst off n => ?_⟩
  obtain ⟨-, hl, hdisk, hinode⟩ := ilock_ok h' hlt hlock
  exact readi_unchanged hl (noHoles_of_inode_eq hholes' hdisk hinode) n.isLt

/-- Three bytes in the middle of the only block. -/
def tinyWrite : Op tinySuperblock := .writei ⟨1, by decide⟩ false onesMemory 0 1 3

theorem reads_never_allocate_tiny :
    ∃ s', [tinyWrite].foldlM Op.run tinyState = .ok s' ∧ NoHoles tinySuperblock s' := by
  obtain ⟨s', hs', -⟩ : ∃ s', [tinyWrite].foldlM Op.run tinyState = .ok s' ∧ True :=
    exists_ok_of_any (by decide +kernel)
  exact ⟨s', hs', (reads_never_allocate tinyState_planted.consistent
    tinyState_planted.noHoles _ s' hs').1⟩

/-- The file is written and truncated, and gets its block back from a `writei` whose `copyin`
fails. -/
def tinyFault : List (Op tinySuperblock) :=
  [tinyWrite, .itrunc ⟨1, by decide⟩, .writei ⟨1, by decide⟩ true onesMemory 0 0 1]

/-- The last reference is dropped. -/
def tinyPut : List (Op tinySuperblock) := [.iput ⟨1, by decide⟩ true]

/-- The block of the file is in use in the middle of the run and free at its end. -/
theorem block_ownership_tiny :
    ∃ s s', tinyFault.foldlM Op.run tinyState = .ok s ∧ Consistent tinySuperblock s ∧
      bit tinySuperblock s.disk 2 = true ∧ tinyPut.foldlM Op.run s = .ok s' ∧
      Consistent tinySuperblock s' ∧ bit tinySuperblock s'.disk 2 = false := by
  obtain ⟨s, hs, hused, hput⟩ : ∃ s, tinyFault.foldlM Op.run tinyState = .ok s ∧
      bit tinySuperblock s.disk 2 = true ∧ (tinyPut.foldlM Op.run s).toOption.any
        (fun s' => bit tinySuperblock s'.disk 2 = false) = true :=
    exists_ok_of_any (by decide +kernel)
  obtain ⟨s', hs', hfree⟩ := exists_ok_of_any hput
  have h := (block_ownership tinyState_planted.consistent tinyFault).1 s hs
  exact ⟨s, s', hs, h, hused, hs', (block_ownership h tinyPut).1 s' hs', hfree⟩

/-! ## Why the bitmap has to be exact

Without block ownership the blocks of a file can be given to another one.
-/

def brokenSuperblock : Superblock where
  size := 3
  nblocks := 1
  ninodes := 3
  inodestart := 0
  bmapstart := 1
  size_lt := tinySuperblock.size_lt
  inodes_fit := by decide
  bitmap_fit := tinySuperblock.bitmap_fit

/-- Inode 1 has fourteen file blocks, all of them in block 2, which is also its
indirect block; inode 2 is empty.  The bitmap says that block 2 is free. -/
def brokenState : State where
  disk := putBlock (writeDinode brokenSuperblock
        (writeDinode brokenSuperblock (emptyDisk brokenSuperblock) 1
          { newDinode 2 with nlink := 1, size := 14 * 1024, addrs := fun _ => 2 })
        2 { newDinode 2 with nlink := 1 })
      2 (setUint (setUint zeroBlock 0 2) 4 2)
  icache _ := { newDinode 0 with valid := false }
  logged := []

/-- One byte, written to inode 2. -/
def brokenWrite : Op brokenSuperblock := .writei ⟨2, by decide⟩ false onesMemory 0 0 1

/-- `balloc` hands out the indirect block of inode 1, and clears it. -/
theorem write_to_broken_makes_hole : NoHoles brokenSuperblock brokenState ∧
      ∃ s', [brokenWrite].foldlM Op.run brokenState = .ok s' ∧ ¬ NoHoles brokenSuperblock s' := by
  refine ⟨noHoles_iff.mpr (by decide +kernel), ?_⟩
  obtain ⟨s', hs', htype, hsize, hnone⟩ : ∃ s', [brokenWrite].foldlM Op.run brokenState = .ok s' ∧
        (s'.inode brokenSuperblock 1).type ≠ 0 ∧
        (s'.inode brokenSuperblock 1).size = 14 * 1024 ∧
        blockOf brokenSuperblock s' 1 13 = none := exists_ok_of_any (by decide +kernel)
  refine ⟨s', hs', fun hholes => ?_⟩
  have hblock := noHoles_iff.mp hholes 1 (by decide) htype 13 (by rw [hsize]; decide)
  rw [hnone] at hblock
  cases hblock

end OsCa.Fs
