import OsCa.Kernel.Virtio.Model

/-!
# Descriptor chains

What `alloc3_desc` and `free_chain` do to the table of descriptors, and what the
device reads in a chain that `virtio_disk_rw` has filled in.
-/

namespace OsCa.Virtio

open Bytes Function

variable {B : Type} {d d' : Disk B} {c : Call B} {i : Chain}

/-! ## Allocation -/

theorem free_of_allocDesc {x : Index} (h : d.allocDesc = some (x, d')) :
    d.free x = true ∧ d' = { d with free := update d.free x false } := by
  unfold Disk.allocDesc at h
  obtain ⟨y, hy, heq⟩ := Option.map_eq_some_iff.mp h
  cases heq
  exact ⟨List.find?_some hy, rfl⟩

theorem freeDesc_eq {x : Index} (h : d.free x = false) : d.freeDesc x = .ok { d with
      desc := update d.desc x ⟨.null, 0, 0, 0⟩
      free := update d.free x true } := by
  unfold Disk.freeDesc
  rw [dif_pos x.isLt, if_neg (by simp [h])]

/-- The descriptors are marked as not free. -/
def Disk.mark (d : Disk B) (i : Chain) : Disk B :=
  { d with
    free := update (update (update d.free i.head false) i.data false) i.status false }

/-- Only descriptors that are free have changed. -/
structure Rolled (d d' : Disk B) : Prop where
  eq : d' = { d with desc := d'.desc }
  desc : ∀ x, d.free x = false → d'.desc x = d.desc x

theorem Rolled.refl (d : Disk B) : Rolled d d := ⟨rfl, fun _ _ => rfl⟩

/-- A descriptor is allocated and freed again. -/
theorem Rolled.undo {x : Index} (hx : d.free x = true)
    (h : Rolled { d with free := update d.free x false } d') :
    ∃ u, d'.freeDesc x = .ok u ∧ Rolled d u := by
  have hd' : d'.free = update d.free x false := by rw [h.eq]
  refine ⟨_, freeDesc_eq (by rw [hd', update_self]), ?_, fun y hy => ?_⟩
  · have hback : update d.free x true = d.free := update_eq_self_iff.mpr hx.symm
    rw [h.eq]
    simp only [update_idem, hback]
  · have hne : y ≠ x := by
      rintro rfl
      exact absurd (hx.symm.trans hy) (by simp)
    dsimp only
    rw [update_of_ne hne]
    refine h.desc y ?_
    dsimp only
    rw [update_of_ne hne, hy]

theorem alloc3Desc_cases (d : Disk B) :
    (∃ i, d.alloc3Desc = .ok (.ok i, d.mark i) ∧ i.indices.Nodup ∧
      ∀ x ∈ i.indices, d.free x = true) ∨
    ∃ freed d', d.alloc3Desc = .ok (.failed freed, d') ∧ Rolled d d' := by
  unfold Disk.alloc3Desc
  split
  next => exact Or.inr ⟨0, d, rfl, .refl d⟩
  next i₀ d₁ h₀ =>
    obtain ⟨hfree₀, rfl⟩ := free_of_allocDesc h₀
    split
    next =>
      obtain ⟨u, hu, hrolled⟩ := Rolled.undo hfree₀ (.refl _)
      rw [hu]
      exact Or.inr ⟨1, u, rfl, hrolled⟩
    next i₁ d₂ h₁ =>
      obtain ⟨hfree₁, rfl⟩ := free_of_allocDesc h₁
      dsimp only at hfree₁
      have hne : i₁ ≠ i₀ := by
        rintro rfl
        rw [update_self] at hfree₁
        cases hfree₁
      rw [update_of_ne hne] at hfree₁
      split
      next =>
        -- The descriptors are freed in the order in which they were allocated.
        have hfirst : update d.free i₁ false i₀ = true := by rw [update_of_ne (Ne.symm hne), hfree₀]
        obtain ⟨u, hu, hrolled⟩ := Rolled.undo
          (d := { d with free := update d.free i₁ false }) hfirst (.refl _)
        obtain ⟨v, hv, hrolled⟩ := Rolled.undo hfree₁ hrolled
        dsimp only at hu ⊢
        rw [update_comm hne.symm, hu]
        refine Or.inr ⟨2, v, ?_, hrolled⟩
        change (u.freeDesc i₁ >>= fun d => .ok (Disk.Alloc.failed 2, d)) = _
        rw [hv]
        rfl
      next i₂ d₃ h₂ =>
        obtain ⟨hfree₂, rfl⟩ := free_of_allocDesc h₂
        dsimp only at hfree₂
        have hne₁ : i₂ ≠ i₁ := by
          rintro rfl
          rw [update_self] at hfree₂
          cases hfree₂
        rw [update_of_ne hne₁] at hfree₂
        have hne₀ : i₂ ≠ i₀ := by
          rintro rfl
          rw [update_self] at hfree₂
          cases hfree₂
        rw [update_of_ne hne₀] at hfree₂
        refine Or.inl ⟨⟨i₀, i₁, i₂⟩, rfl, ?_, ?_⟩
        · simp [Chain.indices, Ne.symm hne, Ne.symm hne₀, Ne.symm hne₁]
        · simp [Chain.indices, hfree₀, hfree₁, hfree₂]

/-! ## Requests -/

/-- The entry of `disk.ops` for the call. -/
def Call.blkReq (c : Call B) : BlkReq :=
  ⟨if c.write then VIRTIO_BLK_T_OUT else VIRTIO_BLK_T_IN, 0, Disk.sector c.blockno⟩

/-- What the device should read in the chain of a call. -/
def Call.request (c : Call B) (i : Chain) : Request B :=
  ⟨i.head, c.blkReq.type, c.blkReq.sector, c.b⟩

/-- The chain is in the table for the call. -/
structure Posted (d : Disk B) (c : Call B) (i : Chain) : Prop where
  nodup : i.indices.Nodup
  taken : ∀ x ∈ i.indices, d.free x = false
  head : d.desc i.head = ⟨.ops i.head, 16, VRING_DESC_F_NEXT, BitVec.ofNat 16 i.data⟩
  data : d.desc i.data = ⟨.data c.b, BitVec.ofNat 32 BSIZE,
      (if c.write then 0 else VRING_DESC_F_WRITE) ||| VRING_DESC_F_NEXT,
      BitVec.ofNat 16 i.status⟩
  status : d.desc i.status = ⟨.status i.head, 1, VRING_DESC_F_WRITE, 0⟩
  ops : d.ops i.head = c.blkReq
  info : (d.info i.head).b = some c.b

theorem toNat_index (x : Index) : (BitVec.ofNat 16 x.val).toNat = x := by
  rw [BitVec.toNat_ofNat, Nat.mod_eq_of_lt (x.isLt.trans (by decide))]

theorem ofNat_index (x : Index) : Fin.ofNat NUM x.val = x := Fin.ext (Nat.mod_eq_of_lt x.isLt)

theorem data_flags (write : Bool) :
    ((if write then 0 else VRING_DESC_F_WRITE) ||| VRING_DESC_F_NEXT) &&&
      VRING_DESC_F_NEXT ≠ 0 := by
  cases write <;> decide

namespace Posted

/-- Only the entries of the chain matter. -/
theorem congr (h : Posted d c i) (hfree : ∀ x ∈ i.indices, d'.free x = false)
    (hdesc : ∀ x ∈ i.indices, d'.desc x = d.desc x) (hops : d'.ops i.head = d.ops i.head)
    (hinfo : (d'.info i.head).b = (d.info i.head).b) : Posted d' c i := by
  refine ⟨h.nodup, hfree, ?_, ?_, ?_, ?_, ?_⟩
  · rw [hdesc i.head (by simp [Chain.indices]), h.head]
  · rw [hdesc i.data (by simp [Chain.indices]), h.data]
  · rw [hdesc i.status (by simp [Chain.indices]), h.status]
  · rw [hops, h.ops]
  · rw [hinfo, h.info]

theorem rolled (h : Posted d c i) (hr : Rolled d d') : Posted d' c i := by
  have hfree : d'.free = d.free := by rw [hr.eq]
  refine h.congr (fun x hx => ?_) (fun x hx => hr.desc x (h.taken x hx)) ?_ ?_
  · rw [hfree]
    exact h.taken x hx
  · rw [hr.eq]
  · rw [hr.eq]

/-- The device reads the request. -/
theorem decode (h : Posted d c i) : decode d i.head = some (c.request i, i.head) := by
  unfold Virtio.decode
  rw [dif_pos i.head.isLt]
  simp only [h.head, toNat_index, ofNat_index, h.data, h.status]
  rw [if_pos ⟨by decide, data_flags c.write, by decide⟩]
  simp only [h.ops, Call.request]

end Posted

theorem ne_of_nodup (h : i.indices.Nodup) :
    i.head ≠ i.data ∧ i.head ≠ i.status ∧ i.data ≠ i.status := by
  simpa [Chain.indices, and_assoc] using h

/-- `virtio_disk_rw` fills in the descriptors it has got. -/
theorem posted_format (hnodup : i.indices.Nodup) (c : Call B) :
    Posted ((d.mark i).format c i) c i := by
  obtain ⟨h₁, h₂, h₃⟩ := ne_of_nodup hnodup
  refine ⟨hnodup, ?_, ?_, ?_, ?_, ?_, ?_⟩
  · simp [Chain.indices, Disk.format, Disk.mark, update_apply]
  · simp [Disk.format, h₁, h₂]
  · simp [Disk.format, h₃]
  · simp [Disk.format]
  · simp [Disk.format, Call.blkReq]
  · simp [Disk.format]

/-- The rest of the table is not touched. -/
structure Elsewhere (i : Chain) (d d' : Disk B) : Prop where
  free : ∀ x ∉ i.indices, d'.free x = d.free x
  desc : ∀ x ∉ i.indices, d'.desc x = d.desc x
  ops : ∀ x ∉ i.indices, d'.ops x = d.ops x
  info : ∀ x ∉ i.indices, d'.info x = d.info x

theorem Posted.elsewhere {j : Chain} (h : Posted d c i) (hd : Elsewhere j d d')
    (hdisj : i.indices.Disjoint j.indices) : Posted d' c i := by
  have hhead : i.head ∉ j.indices := hdisj (by simp [Chain.indices])
  refine h.congr (fun x hx => ?_) (fun x hx => hd.desc x (hdisj hx)) (hd.ops _ hhead) ?_
  · rw [hd.free x (hdisj hx)]
    exact h.taken x hx
  · rw [hd.info _ hhead]

theorem elsewhere_format (d : Disk B) (c : Call B) (i : Chain) :
    Elsewhere i d ((d.mark i).format c i) := by
  refine ⟨?_, ?_, ?_, ?_⟩
  all_goals
    intro x hx
    simp only [Chain.indices, List.mem_cons, List.not_mem_nil, or_false, not_or] at hx
    simp [Disk.format, Disk.mark, hx]

/-- A round of `free_chain`. -/
theorem freeChainLoop_succ {x : Index} (fuel : ℕ) (hx : d.free x = false) :
    Disk.freeChainLoop (fuel + 1) d x = let u := { d with
        desc := update d.desc x ⟨.null, 0, 0, 0⟩
        free := update d.free x true }
      if (d.desc x).flags &&& VRING_DESC_F_NEXT ≠ 0 then
        Disk.freeChainLoop fuel u (d.desc x).next.toNat
      else .ok u := by
  rw [Disk.freeChainLoop, freeDesc_eq hx, ofNat_index]
  rfl

/-- The table after `free_chain`. -/
def Disk.release (d : Disk B) (i : Chain) : Disk B :=
  { d.forget i with
    desc := update (update (update d.desc i.head
      ⟨.null, 0, 0, 0⟩) i.data ⟨.null, 0, 0, 0⟩) i.status ⟨.null, 0, 0, 0⟩
    free := update (update (update d.free i.head true) i.data true) i.status true }

/-- `free_chain` gives back the three descriptors of a call. -/
theorem Posted.freeChain (h : Posted d c i) :
    (d.forget i).freeChain i.head = .ok (d.release i) := by
  obtain ⟨h₁, h₂, h₃⟩ := ne_of_nodup h.nodup
  have hfree := h.taken
  simp only [Chain.indices, List.mem_cons, List.not_mem_nil, or_false, forall_eq_or_imp,
    forall_eq] at hfree
  obtain ⟨hhead, hdata, hstatus⟩ := hfree
  unfold Disk.freeChain
  rw [freeChainLoop_succ (d := d.forget i) NUM hhead]
  simp only [Disk.forget, h.head, toNat_index]
  rw [if_pos (by decide)]
  refine (freeChainLoop_succ 7 ?_).trans ?_
  · simp only [update_of_ne h₁.symm, hdata]
  simp only [update_of_ne h₁.symm, h.data, toNat_index]
  rw [if_pos (data_flags c.write), freeChainLoop_succ 6
    (by simp only [update_of_ne h₂.symm, update_of_ne h₃.symm, hstatus])]
  simp only [update_of_ne h₂.symm, update_of_ne h₃.symm, h.status]
  rw [if_neg (by decide)]
  rfl

theorem elsewhere_release (d : Disk B) (i : Chain) : Elsewhere i d (d.release i) := by
  refine ⟨?_, ?_, ?_, ?_⟩
  all_goals
    intro x hx
    simp only [Chain.indices, List.mem_cons, List.not_mem_nil, or_false, not_or] at hx
    simp [Disk.release, Disk.forget, hx]

theorem free_release {x : Index} (hx : x ∈ i.indices) : (d.release i).free x = true := by
  simp only [Chain.indices, List.mem_cons, List.not_mem_nil, or_false] at hx
  rcases hx with rfl | rfl | rfl <;> simp [Disk.release, update_apply]

end OsCa.Virtio
