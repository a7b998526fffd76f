import OsCa.Kernel.Fs.Content

/-!
# The invariant of the file system

In a consistent state the bitmap is exact, and a valid copy in the inode cache
equals the inode on disk.  This module shows that every operation on inodes
leads from a consistent state to a consistent state, and which panics are
possible on the way.

`itrunc` frees the blocks of an inode one by one, and those of the indirect
block while the inode still refers to them.  Its loops are therefore described
by the set of slots whose blocks were freed already.
-/

namespace OsCa.Fs

open Bytes Fallible Function List

variable {sb : Superblock} {s s' : State} {inum : ℕ}

variable {b i off src n : ℕ} {j : Fin NINDIRECT} {e : Panic} {userSrc : Bool}
  {mem : Memory} {r : ℤ} {type : Short}

/-! ## Freeing the blocks of an inode -/

/-- The references without those of the locked inode in the slots `D`. -/
def refWithout (sb : Superblock) (s : State) (inum : ℕ) (D : Finset Slot)
    (p : ℕ × Slot) : Option ℕ :=
  if p.1 = inum ∧ p.2 ∈ D then none else ref sb s p

theorem refWithout_insert_of_ne {D : Finset Slot} {sl : Slot} {q : ℕ × Slot} (hq : q ≠ (inum, sl)) :
    refWithout sb s inum (insert sl D) q = refWithout sb s inum D q := by
  have hiff : (q.1 = inum ∧ q.2 ∈ insert sl D) ↔ (q.1 = inum ∧ q.2 ∈ D) := by
    rw [Finset.mem_insert]
    constructor
    · rintro ⟨h1, h2 | h2⟩
      · exact absurd (Prod.ext h1 h2) hq
      · exact ⟨h1, h2⟩
    · rintro ⟨h1, h2⟩
      exact ⟨h1, Or.inr h2⟩
  simp only [refWithout, hiff]

/-- State `s` is reached from `s₀` by freeing the blocks in the slots `D` and
clearing their addresses. -/
structure Freed (sb : Superblock) (inum : ℕ) (s₀ : State) (D : Finset Slot)
    (s : State) : Prop where
  own : Owned (fun b => b < sb.size ∧ bit sb s.disk b = true)
    (fun b => b < sb.nmeta) (refWithout sb s₀ inum D)
  dinode : ∀ i < sb.ninodes, readDinode sb s.disk i = readDinode sb s₀.disk i
  data : ∀ c, sb.nmeta ≤ c → s.disk c = s₀.disk c
  icache : ∀ i, i ≠ inum → s.icache i = s₀.icache i
  fields : s.icache inum =
    { s₀.icache inum with addrs := (s.icache inum).addrs }
  addrs : ∀ i, (s.icache inum).addrs i = if addrSlot i ∈ D then 0 else (s₀.icache inum).addrs i

theorem Freed.start (ho : Own sb s) : Freed sb inum s ∅ s where
  own := Owned.congr ho (fun _ => Iff.rfl) fun q => if_neg (by simp)
  dinode _ _ := rfl
  data _ _ := rfl
  icache _ _ := rfl
  fields := rfl
  addrs i := by simp

theorem addrSlot_injective : Function.Injective addrSlot := by
  intro i
  refine Fin.lastCases (fun j => ?_) (fun i' j => ?_) i
  · refine Fin.lastCases (fun _ => rfl) (fun j' h => ?_) j
    rw [addrSlot_last, addrSlot_castSucc] at h
    cases h
  · refine Fin.lastCases (fun h => ?_) (fun j' h => ?_) j
    · rw [addrSlot_last, addrSlot_castSucc] at h
      cases h
    · rw [addrSlot_castSucc, addrSlot_castSucc, Slot.direct.injEq] at h
      rw [h]

theorem addrSlot_ne_entry (i : Fin (NDIRECT + 1)) (j : Fin NINDIRECT) : addrSlot i ≠ .entry j := by
  unfold addrSlot
  split <;> simp

namespace Freed

variable {s₀ : State} {D : Finset Slot} {sl : Slot}

section

variable (h : Freed sb inum s₀ D s)

include h

/-- A slot without a block needs no work. -/
theorem skip (hl : Locked sb s₀ inum) (hempty : ref sb s₀ (inum, sl) = none) :
    Freed sb inum s₀ (insert sl D) s where
  own := by
    refine Owned.congr h.own (fun _ => Iff.rfl) fun q => ?_
    by_cases hq : q = (inum, sl)
    · subst q
      simp [refWithout, hempty]
    · exact refWithout_insert_of_ne hq
  dinode := h.dinode
  data := h.data
  icache := h.icache
  fields := h.fields
  addrs i := by
    rw [h.addrs i]
    simp only [Finset.mem_insert]
    by_cases hsl : addrSlot i = sl
    · have hzero : (s₀.icache inum).addrs i = 0 := by
        rw [← hsl, hl.ref_eq, slotAddr_addrSlot] at hempty
        exact addrRef_eq_none_iff.mp hempty
      simp [hsl, hzero]
    · simp only [hsl, false_or]

/-- The bitmap after one more block is freed. -/
theorem own_freeBit (hp : ref sb s₀ (inum, sl) = some b) (hsl : sl ∉ D)
    (hdisk : s'.disk = freeBit sb s.disk b) :
    Owned (fun c => c < sb.size ∧ bit sb s'.disk c = true)
      (fun c => c < sb.nmeta) (refWithout sb s₀ inum (insert sl D)) := by
  refine Owned.unlink (p := (inum, sl)) (a := b) h.own ?_ ?_ ?_ ?_
  · exact (if_neg fun hmem => hsl hmem.2).trans hp
  · intro c
    rw [hdisk, bit_freeBit]
    simp only [Bool.and_eq_true, Bool.not_eq_true', decide_eq_false_iff_not, ne_eq]
    exact and_left_comm
  · exact if_pos ⟨rfl, Finset.mem_insert_self _ _⟩
  · exact fun q hq => refWithout_insert_of_ne hq

/-- Freeing a block that is still referred to does not panic. -/
theorem bfree_ok (hp : ref sb s₀ (inum, sl) = some b) (hsl : sl ∉ D) : b < sb.size ∧ bfree sb s b =
      .ok ({ s with disk := freeBit sb s.disk b }.logWrite (sb.BBLOCK b)) := by
  have href : refWithout sb s₀ inum D (inum, sl) = some b :=
    (if_neg fun hmem => hsl hmem.2).trans hp
  obtain ⟨hlt, hbit⟩ := h.own.used_of_ref href
  refine ⟨hlt, ?_⟩
  unfold bfree
  rw [if_neg (by simp [hbit])]

/-- The body of the first loop, and the end of the second part of `itrunc`:
free a block and clear its address. -/
theorem addr {i : Fin (NDIRECT + 1)} (hp : ref sb s₀ (inum, addrSlot i) = some b)
    (hsl : addrSlot i ∉ D) :
    ∃ s₁, bfree sb s b = .ok s₁ ∧
      Freed sb inum s₀ (insert (addrSlot i) D) (s₁.setAddr inum i 0) := by
  obtain ⟨hlt, hok⟩ := h.bfree_ok hp hsl
  refine ⟨_, hok, h.own_freeBit hp hsl rfl, ?_, ?_, ?_, ?_, ?_⟩
  · exact fun j hj => (readDinode_freeBit hj).trans (h.dinode j hj)
  · exact fun c hc => (data_freeBit hlt hc).trans (h.data c hc)
  · exact fun j hj => (update_of_ne hj _ _).trans (h.icache j hj)
  · simp only [State.setAddr, State.setInode, State.logWrite, update_self]
    rw [h.fields]
  · intro j
    simp only [State.setAddr, State.setInode, State.logWrite, update_self, Finset.mem_insert]
    by_cases hj : j = i
    · subst j
      simp
    · rw [update_of_ne hj, h.addrs j]
      simp only [addrSlot_injective.eq_iff, hj, false_or]

/-- The body of the second loop. -/
theorem entry (hp : ref sb s₀ (inum, .entry j) = some b) (hsl : .entry j ∉ D) :
    ∃ s₁, bfree sb s b = .ok s₁ ∧ Freed sb inum s₀ (insert (.entry j) D) s₁ := by
  obtain ⟨hlt, hok⟩ := h.bfree_ok hp hsl
  refine ⟨_, hok, h.own_freeBit hp hsl rfl, ?_, ?_, h.icache, h.fields, ?_⟩
  · exact fun j hj => (readDinode_freeBit hj).trans (h.dinode j hj)
  · exact fun c hc => (data_freeBit hlt hc).trans (h.data c hc)
  · intro i
    simp only [Finset.mem_insert, addrSlot_ne_entry, false_or]
    exact h.addrs i

end

/-- A loop that frees the slots of a list. -/
theorem foldlM {α : Type} {f : State → α → Except Panic State}
    (slot : α → Slot) (hinj : Function.Injective slot)
    (hstep : ∀ D s a, Freed sb inum s₀ D s → slot a ∉ D →
      ∃ s', f s a = .ok s' ∧ Freed sb inum s₀ (insert (slot a) D) s')
    (l : List α) (hl : l.Nodup) (hD : ∀ a ∈ l, slot a ∉ D)
    (h : Freed sb inum s₀ D s) :
    ∃ s', l.foldlM f s = .ok s' ∧ Freed sb inum s₀ ((l.map slot).toFinset ∪ D) s' := by
  induction l generalizing D s with
  | nil => exact ⟨s, rfl, by simpa using h⟩
  | cons a l ih =>
    obtain ⟨hnot, hnodup⟩ := nodup_cons.mp hl
    obtain ⟨s₁, hok, h₁⟩ := hstep D s a h (hD a mem_cons_self)
    have hD₁ : ∀ b ∈ l, slot b ∉ insert (slot a) D := by
      intro b hb hmem
      rcases Finset.mem_insert.mp hmem with heq | hmem
      · exact hnot (hinj heq ▸ hb)
      · exact hD b (mem_cons_of_mem a hb) hmem
    obtain ⟨s', hrun, h'⟩ := ih hnodup hD₁ h₁
    refine ⟨s', ?_, ?_⟩
    · rw [foldlM_cons, hok]
      exact hrun
    · rwa [map_cons, toFinset_cons, Finset.insert_union, ← Finset.union_insert]

section

variable (h : Freed sb inum s₀ D s) (hl : Locked sb s₀ inum)

include h hl

/-- A slot of `addrs` that was not freed still has its block. -/
theorem ref_addrSlot {i : Fin (NDIRECT + 1)} (hsl : addrSlot i ∉ D) :
    ref sb s₀ (inum, addrSlot i) = addrRef ((s.icache inum).addrs i) := by
  rw [hl.ref_eq, slotAddr_addrSlot, h.addrs i, if_neg hsl]

theorem truncDirect {i : Fin NDIRECT} (hsl : .direct i ∉ D) :
    ∃ s', truncDirect sb inum s i = .ok s' ∧ Freed sb inum s₀ (insert (.direct i) D) s' := by
  rw [← addrSlot_castSucc] at hsl ⊢
  have href := h.ref_addrSlot hl hsl
  unfold Fs.truncDirect
  dsimp only
  by_cases hzero : (s.icache inum).addrs i.castSucc = 0
  · rw [hzero] at href
    exact ⟨s, if_neg (not_not.mpr hzero), h.skip hl href⟩
  · obtain ⟨s₁, hok, h₁⟩ := h.addr (href.trans (if_neg hzero)) hsl
    refine ⟨_, ?_, h₁⟩
    rw [if_pos hzero, hok]
    rfl

theorem truncEntry {a : Uint} (hind : ref sb s₀ (inum, .indirect) = some a.toNat)
    (hsl : .entry j ∉ D) :
    ∃ s', truncEntry sb (s₀.disk a.toNat) s j = .ok s' ∧
      Freed sb inum s₀ (insert (.entry j) D) s' := by
  have href := hl.ref_entry hind j
  unfold Fs.truncEntry
  dsimp only
  by_cases hzero : getUint (s₀.disk a.toNat) (4 * j.val) = 0
  · rw [hzero] at href
    exact ⟨s, if_neg (not_not.mpr hzero), h.skip hl href⟩
  · obtain ⟨s₁, hok, h₁⟩ := h.entry (href.trans (if_neg hzero)) hsl
    refine ⟨s₁, ?_, h₁⟩
    rw [if_pos hzero, hok]

end

end Freed

/-! ## `itrunc` -/

/-- What `itrunc` does. -/
structure Truncated (sb : Superblock) (inum : ℕ) (s s' : State) : Prop where
  own : Own sb s'
  icache : ∀ i, i ≠ inum → s'.icache i = s.icache i
  self : s'.icache inum =
    { s.icache inum with size := 0, addrs := fun _ => 0 }
  dinode : ∀ i < sb.ninodes, readDinode sb s'.disk i =
    if i = inum then (s'.icache inum).toDinode else readDinode sb s.disk i
  data : ∀ c, sb.nmeta ≤ c → s'.disk c = s.disk c

theorem slotAddr_of_addrs_zero {ip : Dinode} (h : ∀ i, ip.addrs i = 0)
    (d : Disk) (sl : Slot) : ip.slotAddr d sl = 0 := by
  cases sl with
  | direct i => exact h _
  | indirect => exact h _
  | entry j => simp [Dinode.slotAddr, h]

theorem ref_of_addrs_zero (h : ∀ i, (s.inode sb inum).addrs i = 0)
    (sl : Slot) : ref sb s (inum, sl) = none := by
  unfold ref
  rw [if_neg]
  rintro ⟨-, -, hne⟩
  exact hne (slotAddr_of_addrs_zero h _ _)

/-- The end of `itrunc`, when no slot holds a block any more. -/
theorem Freed.truncated {s₀ : State} {D : Finset Slot}
    (h : Freed sb inum s₀ D s) (hl : Locked sb s₀ inum) (ho : Own sb s₀)
    (hD : ∀ sl, sl ∉ D → ref sb s₀ (inum, sl) = none) :
    Truncated sb inum s₀ (iupdate sb (s.setInode inum fun ip => { ip with size := 0 }) inum) := by
  set t := iupdate sb (s.setInode inum fun ip => { ip with size := 0 }) inum
  have haddrs : (s.icache inum).addrs = fun _ => 0 := by
    funext i
    rw [h.addrs i]
    split
    · rfl
    next hsl =>
      have hnone := hD _ hsl
      rw [hl.ref_eq, slotAddr_addrSlot] at hnone
      exact addrRef_eq_none_iff.mp hnone
  have hself : t.icache inum =
      { s₀.icache inum with size := 0, addrs := fun _ => 0 } := by
    refine (update_self _ _ _).trans ?_
    rw [h.fields, haddrs]
  have hicache : ∀ i, i ≠ inum → t.icache i = s₀.icache i :=
    fun i hi => (update_of_ne hi _ _).trans (h.icache i hi)
  have hdisk : t.disk = writeDinode sb s.disk inum (t.icache inum).toDinode := rfl
  have hdinode : ∀ i < sb.ninodes, readDinode sb t.disk i =
      if i = inum then (t.icache inum).toDinode
      else readDinode sb s₀.disk i := by
    intro i hi
    rw [hdisk, readDinode_writeDinode, h.dinode i hi]
  have hdata : ∀ c, sb.nmeta ≤ c → t.disk c = s₀.disk c := by
    intro c hc
    rw [hdisk, data_writeDinode _ hl.lt hc, h.data c hc]
  refine ⟨Owned.congr h.own (fun c => ?_) fun q => ?_, hicache, hself, hdinode, hdata⟩
  · rw [hdisk, bit_writeDinode _ hl.lt]
  · obtain ⟨i, sl⟩ := q
    by_cases hi : i = inum
    · subst i
      have hnone : ref sb t (inum, sl) = none := by
        refine ref_of_addrs_zero (fun i => ?_) sl
        rw [show t.inode sb inum = (t.icache inum).toDinode from
          if_pos (by rw [hself]; exact hl.valid), hself]
      rw [hnone]
      unfold refWithout
      split
      · rfl
      next hsl => exact (hD sl fun hmem => hsl ⟨rfl, hmem⟩).symm
    · rw [show refWithout sb s₀ inum D (i, sl) = ref sb s₀ (i, sl) from
        if_neg fun hmem => hi hmem.1]
      refine ref_congr (fun hlt => inode_congr (hicache i hi) ?_) fun c hc =>
        hdata c (ho.range hc).1
      rw [hdinode i hlt, if_neg hi]

/-- `itrunc` never panics. -/
theorem itrunc_ok (ho : Own sb s) (hl : Locked sb s inum) :
    ∃ s', itrunc sb s inum = .ok s' ∧ Truncated sb inum s s' := by
  obtain ⟨s₁, hrun₁, h₁⟩ := Freed.foldlM Slot.direct
    (fun _ _ => Slot.direct.inj) (fun _ _ _ h hsl => h.truncDirect hl hsl)
    (finRange NDIRECT) (nodup_finRange _) (by simp)
    (Freed.start ho : Freed sb inum s ∅ s)
  set D₁ := ((finRange NDIRECT).map Slot.direct).toFinset ∪ ∅
  have hdirect : ∀ i, Slot.direct i ∈ D₁ := by simp [D₁]
  have hlast : addrSlot (Fin.last NDIRECT) ∉ D₁ := by simp [D₁, addrSlot_last]
  have href := h₁.ref_addrSlot hl hlast
  unfold itrunc
  simp only [bind, Except.bind, hrun₁]
  by_cases hzero : (s₁.icache inum).addrs (Fin.last NDIRECT) = 0
  · rw [if_neg (not_not.mpr hzero)]
    refine ⟨_, rfl, h₁.truncated hl ho fun sl hsl => ?_⟩
    rw [hzero, addrSlot_last] at href
    cases sl with
    | direct i => exact absurd (hdirect i) hsl
    | indirect => exact href
    | entry j =>
      have haddr := h₁.addrs (Fin.last NDIRECT)
      rw [if_neg hlast, hzero] at haddr
      rw [hl.ref_eq]
      simp [Dinode.slotAddr, ← haddr, addrRef]
  · rw [addrRef, if_neg hzero] at href
    have hind := href
    rw [addrSlot_last] at hind
    rw [if_pos hzero, h₁.data _ (ho.range hind).1]
    obtain ⟨s₂, hrun₂, h₂⟩ := Freed.foldlM Slot.entry (fun _ _ => Slot.entry.inj)
      (fun _ _ _ h hsl => h.truncEntry hl hind hsl)
      (finRange NINDIRECT) (nodup_finRange _) (by simp [D₁]) h₁
    obtain ⟨s₃, hrun₃, h₃⟩ := h₂.addr href (by simp [D₁, addrSlot_last])
    simp only [hrun₂, hrun₃]
    refine ⟨_, rfl, h₃.truncated hl ho fun sl hsl => absurd ?_ hsl⟩
    rw [addrSlot_last]
    cases sl with
    | direct i => simp [hdirect i]
    | indirect => simp
    | entry j => simp

/-! ## Consistent states -/

/-- The state between two operations. -/
structure Consistent (sb : Superblock) (s : State) : Prop where
  own : Own sb s
  coherent : ∀ i < sb.ninodes, (s.icache i).valid = true →
    (s.icache i).toDinode = readDinode sb s.disk i
  type : ∀ i < sb.ninodes, (s.icache i).valid = true → (s.icache i).type ≠ 0

/-- The inodes are those on disk. -/
theorem Consistent.inode_eq (h : Consistent sb s) (hi : i < sb.ninodes) :
    s.inode sb i = readDinode sb s.disk i := by
  unfold State.inode
  split
  next hv => exact h.coherent i hi hv
  next => rfl

/-- An operation on one inode leaves the others as they are. -/
theorem Consistent.of_others (h : Consistent sb s) (ho : Own sb s')
    (hicache : ∀ i, i ≠ inum → s'.icache i = s.icache i)
    (hdinode : ∀ i < sb.ninodes, i ≠ inum → readDinode sb s'.disk i = readDinode sb s.disk i)
    (hself : (s'.icache inum).valid = true →
      (s'.icache inum).toDinode = readDinode sb s'.disk inum ∧
        (s'.icache inum).type ≠ 0) : Consistent sb s' := by
  have hall : ∀ i < sb.ninodes, (s'.icache i).valid = true →
      (s'.icache i).toDinode = readDinode sb s'.disk i ∧ (s'.icache i).type ≠ 0 := by
    intro i hi hv
    by_cases hne : i = inum
    · subst i
      exact hself hv
    · rw [hicache i hne] at hv ⊢
      rw [hdinode i hi hne]
      exact ⟨h.coherent i hi hv, h.type i hi hv⟩
  exact ⟨ho, fun i hi hv => (hall i hi hv).1, fun i hi hv => (hall i hi hv).2⟩

theorem ilock_ok (h : Consistent sb s) (hlt : inum < sb.ninodes) (hok : ilock sb s inum = .ok s') :
    Consistent sb s' ∧ Locked sb s' inum ∧ s'.disk = s.disk ∧
      ∀ i, s'.inode sb i = s.inode sb i := by
  unfold ilock at hok
  split at hok
  next hvalid =>
    dsimp only at hok
    split at hok
    next => cases hok
    next htype =>
      cases hok
      set t := s.setInode inum fun _ =>
        { readDinode sb s.disk inum with valid := true }
      have hself : t.icache inum =
          { readDinode sb s.disk inum with valid := true } :=
        update_self _ _ _
      have hother : ∀ i, i ≠ inum → t.icache i = s.icache i := fun i hi => update_of_ne hi _ _
      have hinode : ∀ i, t.inode sb i = s.inode sb i := by
        intro i
        by_cases hi : i = inum
        · subst i
          rw [State.inode, State.inode, hself, hvalid]
          rfl
        · exact inode_congr (hother i hi) rfl
      have ho : Own sb t := own_of_views h.own (fun _ _ => rfl) (ref_of_inode_eq rfl hinode)
      exact ⟨h.of_others ho hother (fun _ _ _ => rfl) fun _ => ⟨by rw [hself]; rfl, htype⟩,
        ⟨hlt, by rw [hself], htype⟩, rfl, hinode⟩
  next hvalid =>
    cases hok
    have hvalid : (s.icache inum).valid = true := by simpa using hvalid
    exact ⟨h, ⟨hlt, hvalid, h.type inum hlt hvalid⟩, rfl, fun _ => rfl⟩

theorem ilock_error (herr : ilock sb s inum = .error e) : e = .ilockNoType := by
  unfold ilock at herr
  split at herr
  · dsimp only at herr
    split at herr
    · exact (Except.error.inj herr).symm
    · cases herr
  · cases herr

theorem inode_iupdate (hl : Locked sb s inum) (i : ℕ) :
    (iupdate sb s inum).inode sb i = s.inode sb i := by
  by_cases hi : i = inum
  · subst i
    rw [hl.inode]
    exact if_pos hl.valid
  · exact inode_congr rfl ((readDinode_writeDinode _).trans (if_neg hi))

theorem ref_iupdate (ho : Own sb s) (hl : Locked sb s inum) (q : ℕ × Slot) :
    ref sb (iupdate sb s inum) q = ref sb s q :=
  ref_congr (fun _ => inode_iupdate hl q.1) fun _ hc => data_writeDinode _ hl.lt (ho.range hc).1

/-- Writing a locked inode back makes the state consistent again. -/
theorem consistent_iupdate {s₀ : State} (h : Consistent sb s₀) (ho : Own sb s)
    (hl : Locked sb s inum) (hicache : ∀ i, i ≠ inum → s.icache i = s₀.icache i)
    (hdinode : ∀ i < sb.ninodes, i ≠ inum → readDinode sb s.disk i = readDinode sb s₀.disk i) :
    Consistent sb (iupdate sb s inum) := by
  have hdisk : ∀ i, readDinode sb (iupdate sb s inum).disk i = _ :=
    fun i => readDinode_writeDinode _
  refine h.of_others (own_of_views ho (fun c _ => bit_writeDinode _ hl.lt) (ref_iupdate ho hl))
    hicache (fun i hi hne => ?_) fun _ => ⟨?_, hl.type⟩
  · rw [hdisk, if_neg hne, hdinode i hi hne]
  · rw [hdisk, if_pos rfl]
    rfl

/-- The other fields of a locked inode do not matter for its references. -/
theorem ref_of_fields (hl : Locked sb s inum) (hdisk : s'.disk = s.disk)
    (hicache : ∀ i, i ≠ inum → s'.icache i = s.icache i)
    (hvalid : (s'.icache inum).valid = (s.icache inum).valid)
    (htype : (s'.icache inum).type = (s.icache inum).type)
    (haddrs : (s'.icache inum).addrs = (s.icache inum).addrs) (q : ℕ × Slot) :
    ref sb s' q = ref sb s q := by
  by_cases hq : q.1 = inum
  · have hl' := hl.congr hvalid htype
    refine ref_congr_addrs (fun _ => ?_) (fun _ => ?_) fun c _ => by rw [hdisk]
    · rw [hq, hl'.inode, hl.inode, htype]
    · rw [hq, hl'.inode, hl.inode, haddrs]
  · exact ref_congr (fun _ => inode_congr (hicache _ hq) (by rw [hdisk])) fun c _ => by rw [hdisk]

/-! ## `writei` -/

/-- The size of a file after a write that stopped at `off`. -/
def grownSize (size : Uint) (off : ℕ) : Uint :=
  if off > size.toNat then BitVec.ofNat 32 off else size

/-- What the end of `writei` does: it sets the size and writes the inode
back. -/
structure Committed (sb : Superblock) (inum off : ℕ) (s s' : State) :
    Prop where
  consistent : Consistent sb s'
  ref : ∀ q, ref sb s' q = ref sb s q
  data : ∀ c, sb.nmeta ≤ c → s'.disk c = s.disk c
  icache : ∀ i, i ≠ inum → s'.icache i = s.icache i
  self : s'.icache inum =
    { s.icache inum with size := grownSize (s.icache inum).size off }
  dinode : ∀ i < sb.ninodes, i ≠ inum → readDinode sb s'.disk i = readDinode sb s.disk i

theorem committed_iupdate {s₀ : State} (h : Consistent sb s₀) (ho : Own sb s)
    (hl : Locked sb s inum) (hother : ∀ i, i ≠ inum → s.icache i = s₀.icache i)
    (hdinode : ∀ i < sb.ninodes, readDinode sb s.disk i = readDinode sb s₀.disk i) :
    Committed sb inum off s (iupdate sb (if off > (s.icache inum).size.toNat then
        s.setInode inum fun ip => { ip with size := BitVec.ofNat 32 off }
      else s) inum) := by
  obtain ⟨t, ht⟩ : ∃ t, t = if off > (s.icache inum).size.toNat then
      s.setInode inum fun ip => { ip with size := BitVec.ofNat 32 off }
    else s := ⟨_, rfl⟩
  rw [← ht]
  have hdisk : t.disk = s.disk := by
    rw [ht]
    split <;> rfl
  have hicache : ∀ i, i ≠ inum → t.icache i = s.icache i := by
    intro i hi
    rw [ht]
    split
    · exact update_of_ne hi _ _
    · rfl
  have hself : t.icache inum =
      { s.icache inum with size := grownSize (s.icache inum).size off } := by
    rw [ht]
    unfold grownSize
    split
    · exact update_self _ _ _
    · rfl
  have hlt : Locked sb t inum := hl.congr (by rw [hself]) (by rw [hself])
  have href : ∀ q, Fs.ref sb t q = Fs.ref sb s q := ref_of_fields hl hdisk hicache
    (by rw [hself]) (by rw [hself]) (by rw [hself])
  have hot : Own sb t := own_of_views ho (fun c _ => by rw [hdisk]) href
  refine ⟨consistent_iupdate h hot hlt (fun i hi => ?_) fun i hi _ => ?_,
    fun q => (ref_iupdate hot hlt q).trans (href q), ?_, hicache, hself, ?_⟩
  · rw [hicache i hi, hother i hi]
  · rw [hdisk, hdinode i hi]
  · intro c hc
    rw [← hdisk]
    exact data_writeDinode _ hl.lt hc
  · intro i hi hne
    rw [← hdisk]
    exact (readDinode_writeDinode _).trans (if_neg hne)

/-- `writei` passes its range checks. -/
def Accepted (s : State) (inum off n : ℕ) : Prop :=
  off ≤ (s.icache inum).size.toNat ∧ off + n ≤ MAXFILE * BSIZE

theorem writei_of_accepted (h : Accepted s inum off n) :
    writei sb s inum userSrc mem src off n = (do
      let (ok, off, s) ← writeLoop sb inum userSrc mem n src 0 off s
      let n := if ok then n else 2 ^ 32 - 1
      if n > 0 then
        let s :=
          if off > (s.icache inum).size.toNat then
            s.setInode inum fun ip => { ip with size := BitVec.ofNat 32 off }
          else s
        return (asInt n, iupdate sb s inum)
      else
        return (asInt n, s)) := by
  have hmax : MAXFILE * BSIZE < 2 ^ 32 := by decide
  have hwrap : (off + n) % 2 ^ 32 = off + n := Nat.mod_eq_of_lt (h.2.trans_lt hmax)
  unfold writei
  rw [hwrap, if_neg (by have := h.1; omega), if_neg (by have := h.2; omega)]

theorem writei_of_not_accepted (hn : n < 2 ^ 32) (h : ¬ Accepted s inum off n) :
    writei sb s inum userSrc mem src off n = .ok (-1, s) := by
  have hsize : (s.icache inum).size.toNat < 2 ^ 32 := (s.icache inum).size.isLt
  unfold writei
  by_cases hfirst : off > (s.icache inum).size.toNat ∨ (off + n) % 2 ^ 32 < off
  · rw [if_pos hfirst]
    rfl
  · rw [if_neg hfirst, if_pos]
    · rfl
    · unfold Accepted at h
      omega

/-- A `writei` that passes its checks runs the loop, and writes the inode back
unless there was nothing to do. -/
theorem writei_ok (h : Consistent sb s) (hl : Locked sb s inum) (hacc : Accepted s inum off n)
    (hok : writei sb s inum userSrc mem src off n = .ok (r, s')) :
    ∃ ok off' s₁, Written sb inum mem src off n ok off' s s₁ ∧
      ((userSrc = true → Readable mem src n) → ok = true) ∧
      r = asInt (if ok then n else 2 ^ 32 - 1) ∧
      Consistent sb s' ∧
      (Committed sb inum off' s₁ s' ∨ n = 0 ∧ s' = s₁) := by
  rw [writei_of_accepted hacc] at hok
  obtain ⟨⟨ok, off', s₁⟩, hloop, hok⟩ := bind_eq_ok_iff.mp hok
  obtain ⟨hwritten, hread⟩ := writeLoop_ok h.own hl hacc.2 hloop
  rw [Nat.sub_zero] at hwritten hread
  refine ⟨ok, off', s₁, hwritten, hread, ?_⟩
  dsimp only at hok
  by_cases hpos : (if ok then n else 2 ^ 32 - 1) > 0
  · rw [if_pos hpos] at hok
    cases hok
    have hcommit : Committed sb inum off' s₁ _ :=
      committed_iupdate h hwritten.own (hwritten.extend.locked hl)
        hwritten.extend.icache hwritten.extend.dinode
    exact ⟨rfl, hcommit.consistent, Or.inl hcommit⟩
  · rw [if_neg hpos] at hok
    cases hok
    obtain ⟨rfl, rfl⟩ : ok = true ∧ n = 0 := by
      cases ok <;> simp_all
    -- Nothing was written, so the loop returned at once.
    unfold writeLoop at hloop
    rw [if_neg (Nat.lt_irrefl 0)] at hloop
    cases hloop
    exact ⟨rfl, h, Or.inr ⟨rfl, rfl⟩⟩

theorem writei_error (h : Consistent sb s) (hl : Locked sb s inum) (hacc : Accepted s inum off n)
    (herr : writei sb s inum userSrc mem src off n = .error e) :
    e = .ballocOutOfBlocks ∧ s.free sb < (touchedRange off n \ mapped sb s inum).card := by
  rw [writei_of_accepted hacc] at herr
  rcases bind_eq_error_iff.mp herr with hloop | ⟨⟨ok, off', s₁⟩, -, herr⟩
  · have herror := writeLoop_error h.own hl hacc.2 hloop
    rwa [Nat.sub_zero] at herror
  · dsimp only at herr
    by_cases hpos : (if ok then n else 2 ^ 32 - 1) > 0
    · rw [if_pos hpos] at herr
      cases herr
    · rw [if_neg hpos] at herr
      cases herr

/-! ## Allocating and freeing inodes -/

/-- `ialloc` finds an inode that is free on disk. -/
theorem ialloc_found (hok : ialloc sb s type = .ok (i, s')) :
    0 < i ∧ i < sb.ninodes ∧ (readDinode sb s.disk i).type = 0 ∧
      s' = { s with disk := initInode sb s.disk i type }.logWrite (sb.IBLOCK i) := by
  unfold ialloc at hok
  split at hok
  next inum hfind =>
    obtain ⟨rfl, rfl⟩ := Prod.mk.inj (Except.ok.inj hok)
    have hmem := mem_of_find?_eq_some hfind
    rw [mem_range'] at hmem
    exact ⟨by omega, by omega, by simpa using find?_some hfind, rfl⟩
  next => cases hok

/-- A valid copy in the cache would have a type. -/
theorem Consistent.not_valid_of_free (h : Consistent sb s)
    (hlt : inum < sb.ninodes) (htype : (readDinode sb s.disk inum).type = 0) :
    (s.icache inum).valid = false := by
  refine Bool.eq_false_iff.mpr fun hv => h.type inum hlt hv ?_
  rw [h.coherent inum hlt hv, htype]

theorem ialloc_ok (h : Consistent sb s) (hok : ialloc sb s type = .ok (i, s')) :
    Consistent sb s' := by
  obtain ⟨-, hlt, htype, hs'⟩ := ialloc_found hok
  have hvalid := h.not_valid_of_free hlt htype
  have hicache : s'.icache = s.icache := by rw [hs']; rfl
  have hdisk : s'.disk = initInode sb s.disk i type := by rw [hs']; rfl
  have hdinode : ∀ j, readDinode sb s'.disk j =
      if j = i then newDinode type else readDinode sb s.disk j := by
    intro j
    rw [hdisk, readDinode_initInode]
  refine h.of_others (own_of_views h.own (fun c _ => ?_) fun q => ?_)
    (fun j _ => congrFun hicache j) (fun j _ hj => by rw [hdinode, if_neg hj]) fun hv => ?_
  · rw [hdisk, bit_initInode type hlt]
  · obtain ⟨j, sl⟩ := q
    by_cases hj : j = i
    · subst j
      have hold : s.inode sb i = readDinode sb s.disk i := by simp [State.inode, hvalid]
      have hnew : s'.inode sb i = newDinode type := by simp [State.inode, hicache, hvalid, hdinode]
      have hnone : ref sb s (i, sl) = none := if_neg fun hr => hr.2.1 (by rw [hold, htype])
      rw [hnone]
      exact ref_of_addrs_zero (fun k => by rw [hnew]; rfl) sl
    · refine ref_congr (fun _ => inode_congr (congrFun hicache j) ?_) fun c hc => ?_
      · rw [hdinode, if_neg hj]
      · rw [hdisk, data_initInode type hlt (h.own.range hc).1]
  · rw [hicache, hvalid] at hv
    cases hv

theorem ialloc_error (herr : ialloc sb s type = .error e) : e = .iallocNoInodes := by
  unfold ialloc at herr
  split at herr
  · cases herr
  · exact (Except.error.inj herr).symm

/-- What `iput` does when it frees an inode: the inode is marked free on disk,
and its copy in the cache is no longer valid. -/
structure Released (sb : Superblock) (inum : ℕ) (s s' : State) : Prop where
  consistent : Consistent sb s'
  icache : ∀ i, i ≠ inum → s'.icache i = s.icache i
  valid : (s'.icache inum).valid = false
  dinode : ∀ i < sb.ninodes, readDinode sb s'.disk i = if i = inum then
      { (s.icache inum).toDinode with
        type := 0, size := 0, addrs := fun _ => 0 }
    else readDinode sb s.disk i
  data : ∀ c, sb.nmeta ≤ c → s'.disk c = s.disk c

theorem Truncated.released {s₁ : State} (ht : Truncated sb inum s s₁)
    (h : Consistent sb s) (hl : Locked sb s inum) :
    Released sb inum s ((iupdate sb (s₁.setInode inum fun ip => { ip with type := 0 })
        inum).setInode inum fun ip => { ip with valid := false }) := by
  set t := (iupdate sb (s₁.setInode inum fun ip => { ip with type := 0 })
    inum).setInode inum fun ip => { ip with valid := false }
  have hself : t.icache inum =
      { s₁.icache inum with type := 0, valid := false } := by
    simp [t, iupdate, State.setInode, State.logWrite]
  have hother : ∀ i, i ≠ inum → t.icache i = s₁.icache i := by
    intro i hi
    simp [t, iupdate, State.setInode, State.logWrite, hi]
  have hdisk : t.disk = writeDinode sb s₁.disk inum
      { (s₁.icache inum).toDinode with type := 0 } := by
    simp [t, iupdate, State.setInode, State.logWrite]
  have hdinode : ∀ i, readDinode sb t.disk i =
      if i = inum then { (s₁.icache inum).toDinode with type := 0 }
      else readDinode sb s₁.disk i := fun i => by
    rw [hdisk, readDinode_writeDinode]
  have hrest : ∀ i < sb.ninodes, i ≠ inum → readDinode sb t.disk i = readDinode sb s.disk i := by
    intro i hi hne
    rw [hdinode, if_neg hne, ht.dinode i hi, if_neg hne]
  have hicache : ∀ i, i ≠ inum → t.icache i = s.icache i := fun i hi =>
    (hother i hi).trans (ht.icache i hi)
  refine ⟨h.of_others (own_of_views ht.own (fun c _ => ?_) fun q => ?_) hicache hrest
    fun hv => ?_, hicache, by rw [hself], ?_, ?_⟩
  · rw [hdisk, bit_writeDinode _ hl.lt]
  · obtain ⟨i, sl⟩ := q
    by_cases hi : i = inum
    · -- The inode had no blocks left before it lost its type.
      subst i
      have hold : s₁.inode sb inum = (s₁.icache inum).toDinode :=
        if_pos (by rw [ht.self]; exact hl.valid)
      have hnew : t.inode sb inum =
          { (s₁.icache inum).toDinode with type := 0 } := by
        simp [State.inode, hself, hdinode]
      rw [ref_of_addrs_zero (fun j => by rw [hnew, ht.self]) sl,
        ref_of_addrs_zero (fun j => by rw [hold, ht.self]) sl]
    · refine ref_congr (fun _ => inode_congr (hother i hi) ?_) fun c hc => ?_
      · rw [hdinode, if_neg hi]
      · rw [hdisk, data_writeDinode _ hl.lt (ht.own.range hc).1]
  · rw [hself] at hv
    cases hv
  · intro i hi
    by_cases hne : i = inum
    · rw [if_pos hne, hdinode, if_pos hne, ht.self]
    · rw [if_neg hne, hrest i hi hne]
  · intro c hc
    rw [hdisk, data_writeDinode _ hl.lt hc, ht.data c hc]

/-- `iput` never panics.  It frees the inode if nothing refers to it any
more. -/
theorem iput_cases (h : Consistent sb s) (hlt : inum < sb.ninodes) (last : Bool) :
    ∃ s', iput sb s inum last = .ok s' ∧ if last = true ∧ (s.icache inum).valid = true ∧
          (s.icache inum).nlink = 0 then
        Released sb inum s s'
      else s' = s := by
  unfold iput
  split
  next hfree =>
    have hl : Locked sb s inum := ⟨hlt, hfree.2.1, h.type inum hlt hfree.2.1⟩
    obtain ⟨s₁, hrun, ht⟩ := itrunc_ok h.own hl
    rw [hrun]
    exact ⟨_, rfl, ht.released h hl⟩
  next => exact ⟨s, rfl, rfl⟩

theorem iput_ok (h : Consistent sb s) (hlt : inum < sb.ninodes) (last : Bool) :
    ∃ s', iput sb s inum last = .ok s' ∧ Consistent sb s' := by
  obtain ⟨s', hrun, hs'⟩ := iput_cases h hlt last
  refine ⟨s', hrun, ?_⟩
  split at hs'
  · exact hs'.consistent
  · rw [hs']
    exact h

/-! ## An empty disk -/

/-- A disk without inodes, on which only the metadata blocks are in use. -/
def emptyDisk (sb : Superblock) : Disk := (range sb.nmeta).foldl (markBit sb) fun _ => zeroBlock

theorem bit_foldl_markBit (l : List ℕ) (d : Disk) (c : ℕ) :
    bit sb (l.foldl (markBit sb) d) c = (decide (c ∈ l) || bit sb d c) := by
  induction l generalizing d with
  | nil => simp
  | cons b l ih =>
    rw [foldl_cons, ih, bit_markBit]
    simp only [mem_cons, Bool.decide_or]
    rw [Bool.or_left_comm, Bool.or_assoc]

theorem bit_emptyDisk (sb : Superblock) (c : ℕ) :
    bit sb (emptyDisk sb) c = decide (c < sb.nmeta) := by
  have hzero : bit sb (fun _ => zeroBlock) c = false := by
    rw [bit, testBit_eq, peek_zeroBlock]
    exact BitVec.getLsbD_zero
  rw [emptyDisk, bit_foldl_markBit, hzero, Bool.or_false]
  simp only [mem_range]

theorem readDinode_foldl_markBit (hi : i < sb.ninodes) (l : List ℕ) (d : Disk) :
    readDinode sb (l.foldl (markBit sb) d) i = readDinode sb d i := by
  induction l generalizing d with
  | nil => rfl
  | cons b l ih => rw [foldl_cons, ih, readDinode_markBit hi]

theorem readDinode_emptyDisk (hi : i < sb.ninodes) :
    readDinode sb (emptyDisk sb) i = newDinode 0 := by
  have hword : ∀ off k, word zeroBlock off k = 0 := fun off k =>
    word_of_zero fun j _ _ => peek_zeroBlock j
  rw [emptyDisk, readDinode_foldl_markBit hi]
  exact Dinode.ext (hword _ _) (hword _ _) (hword _ _) (hword _ _)
    (hword _ _) (funext fun _ => hword _ _)

/-! ## Operations -/

/-- The operations on inodes.  Those that need the lock of the inode take it
first. -/
inductive Op (sb : Superblock) where
  | ialloc (type : Short)
  | writei (inum : Fin sb.ninodes) (userSrc : Bool) (mem : Memory) (src : ℕ) (off n : Uint)
  | itrunc (inum : Fin sb.ninodes)
  | iput (inum : Fin sb.ninodes) (last : Bool)
  /-- `iget` takes the entry of an inode nobody uses for another inode. -/
  | recycle (inum : Fin sb.ninodes)

def Op.run (s : State) : Op sb → Except Panic State
  | .ialloc type => do
      let (_, s) ← Fs.ialloc sb s type
      return s
  | .writei inum userSrc mem src off n => do
      let s ← ilock sb s inum
      let (_, s) ← Fs.writei sb s inum userSrc mem src off.toNat n.toNat
      return s
  | .itrunc inum => do
      let s ← ilock sb s inum
      Fs.itrunc sb s inum
  | .iput inum last => Fs.iput sb s inum last
  | .recycle inum => return s.setInode inum fun ip => { ip with valid := false }

theorem Truncated.consistent (ht : Truncated sb inum s s')
    (h : Consistent sb s) (hl : Locked sb s inum) : Consistent sb s' := by
  refine h.of_others ht.own ht.icache (fun i hi hne => ?_) fun _ => ⟨?_, ?_⟩
  · rw [ht.dinode i hi, if_neg hne]
  · rw [ht.dinode inum hl.lt, if_pos rfl]
  · rw [ht.self]
    exact hl.type

theorem consistent_recycle (h : Consistent sb s) (hlt : inum < sb.ninodes) :
    Consistent sb (s.setInode inum fun ip => { ip with valid := false }) := by
  set t := s.setInode inum fun ip => { ip with valid := false }
  have hself : (t.icache inum).valid = false := by simp [t, State.setInode]
  have hother : ∀ i, i ≠ inum → t.icache i = s.icache i := fun i hi => update_of_ne hi _ _
  refine h.of_others (own_of_views h.own (fun _ _ => rfl) fun q => ?_) hother
    (fun _ _ _ => rfl) fun hv => ?_
  · refine ref_congr (fun _ => ?_) fun _ _ => rfl
    by_cases hq : q.1 = inum
    · rw [hq, h.inode_eq hlt]
      exact if_neg (by simp [hself])
    · exact inode_congr (hother _ hq) rfl
  · rw [hself] at hv
    cases hv

theorem writei_consistent (h : Consistent sb s) (hl : Locked sb s inum)
    (hn : n < 2 ^ 32) (hok : writei sb s inum userSrc mem src off n = .ok (r, s')) :
    Consistent sb s' := by
  by_cases hacc : Accepted s inum off n
  · obtain ⟨-, -, -, -, -, -, hconsistent, -⟩ := writei_ok h hl hacc hok
    exact hconsistent
  · rw [writei_of_not_accepted hn hacc] at hok
    cases hok
    exact h

theorem Op.run_ok (h : Consistent sb s) (op : Op sb)
    (hok : op.run s = .ok s') : Consistent sb s' := by
  cases op with
  | ialloc type =>
    obtain ⟨r, hrun, hok⟩ := bind_eq_ok_iff.mp hok
    cases hok
    exact ialloc_ok h hrun
  | writei inum userSrc mem src off n =>
    obtain ⟨s₁, hlock, hok⟩ := bind_eq_ok_iff.mp hok
    obtain ⟨h₁, hl₁, -⟩ := ilock_ok h inum.isLt hlock
    obtain ⟨r, hrun, hok⟩ := bind_eq_ok_iff.mp hok
    cases hok
    exact writei_consistent h₁ hl₁ n.isLt hrun
  | itrunc inum =>
    obtain ⟨s₁, hlock, hok⟩ := bind_eq_ok_iff.mp hok
    obtain ⟨h₁, hl₁, -⟩ := ilock_ok h inum.isLt hlock
    obtain ⟨s₂, hrun, htrunc⟩ := itrunc_ok h₁.own hl₁
    rw [hrun] at hok
    cases hok
    exact htrunc.consistent h₁ hl₁
  | iput inum last =>
    obtain ⟨s₁, hrun, h₁⟩ := iput_ok h inum.isLt last
    rw [Op.run, hrun] at hok
    cases hok
    exact h₁
  | recycle inum =>
    cases hok
    exact consistent_recycle h inum.isLt

/-- The panics that an operation can run into. -/
def Panic.Expected (e : Panic) : Prop :=
  e = .ballocOutOfBlocks ∨ e = .iallocNoInodes ∨ e = .ilockNoType

theorem Op.run_error (h : Consistent sb s) (op : Op sb) (herr : op.run s = .error e) :
    e.Expected := by
  cases op with
  | ialloc type =>
    rcases bind_eq_error_iff.mp herr with herr | ⟨r, -, herr⟩
    · exact Or.inr (Or.inl (ialloc_error herr))
    · cases herr
  | writei inum userSrc mem src off n =>
    rcases bind_eq_error_iff.mp herr with herr | ⟨s₁, hlock, herr⟩
    · exact Or.inr (Or.inr (ilock_error herr))
    obtain ⟨h₁, hl₁, -⟩ := ilock_ok h inum.isLt hlock
    rcases bind_eq_error_iff.mp herr with herr | ⟨r, -, herr⟩
    · by_cases hacc : Accepted s₁ inum off.toNat n.toNat
      · exact Or.inl (writei_error h₁ hl₁ hacc herr).1
      · rw [writei_of_not_accepted n.isLt hacc] at herr
        cases herr
    · cases herr
  | itrunc inum =>
    rcases bind_eq_error_iff.mp herr with herr | ⟨s₁, hlock, herr⟩
    · exact Or.inr (Or.inr (ilock_error herr))
    obtain ⟨h₁, hl₁, -⟩ := ilock_ok h inum.isLt hlock
    obtain ⟨s₂, hrun, -⟩ := itrunc_ok h₁.own hl₁
    rw [hrun] at herr
    cases herr
  | iput inum last =>
    obtain ⟨s₁, hrun, -⟩ := iput_ok h inum.isLt last
    rw [Op.run, hrun] at herr
    cases herr
  | recycle inum => cases herr

/-- Any sequence of operations leads from a consistent state to a consistent
state, unless it runs out of blocks or inodes, or an operation is applied to an
inode that is not allocated.  In particular no block is ever freed twice. -/
theorem block_ownership (h : Consistent sb s) (ops : List (Op sb)) :
    (∀ s', ops.foldlM Op.run s = .ok s' → Consistent sb s') ∧
      ∀ e, ops.foldlM Op.run s = .error e → e.Expected :=
  foldlM_invariant (fun _ op _ h hok => op.run_ok h hok)
    (fun _ op _ h herr => op.run_error h herr) ops h

end OsCa.Fs
