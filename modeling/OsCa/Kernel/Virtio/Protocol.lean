import OsCa.Kernel.Virtio.Chains
import Mathlib.Data.Fintype.Card

/-!
# Requests in flight

A request goes from the avail ring to the device and from the device to the used
ring, and its head is in one place at a time.  It is in flight until
`virtio_disk_intr` clears `b->disk`, and its descriptors are not free until the
process that waits for it has gone on.

This needs that no two processes are in `virtio_disk_rw` for the same buffer, as
the sleep-lock of the buffer ensures: the first of their requests to complete
would make both of them return.
-/

namespace OsCa.Virtio

open Bytes Function List

variable {P B : Type} {s t : State P B} {e : Event P B} {p : P} {c : Call B} {i : Chain}

variable {r : Request B} {α : Type} {k : ℕ} {pc' : Pc B} {sleeping : P → Bool}

/-- The buffer of a call. -/
def Pc.buf : Pc B → Option B
  | .user => none
  | .alloc c => some c.b
  | .wait c _ => some c.b

/-- Nobody else uses the buffer of a new call. -/
def Exclusive (s : State P B) : Event P B → Prop
  | .virtioDiskRw _ c => ∀ q, (s.pc q).buf ≠ some c.b
  | _ => True

/-- With this event the process goes through the loop that allocates. -/
def State.Allocates (s : State P B) (e : Event P B) (p : P) (c : Call B) : Prop :=
  s.pc p = .user ∧ e = .virtioDiskRw p c ∨ s.pc p = .alloc c ∧ e = .resume p

/-! ## The invariant -/

/-- A chain in the table belongs to one process, and every process has a buffer of
its own. -/
structure Table (s : State P B) : Prop where
  posted : ∀ p c i, s.pc p = .wait c i → Posted s.disk c i
  disjoint : ∀ p q c i c' i', s.pc p = .wait c i → s.pc q = .wait c' i' → p ≠ q →
    i.indices.Disjoint i'.indices
  owned : ∀ x, s.disk.free x = false → ∃ p c i, s.pc p = .wait c i ∧ x ∈ i.indices
  buf : ∀ p q b, (s.pc p).buf = some b → (s.pc q).buf = some b → p = q

/-- The requests in flight are those that a process waits for. -/
structure Known (s : State P B) (all : List (Request B)) : Prop where
  nodup : (all.map Request.head).Nodup
  pending : ∀ r ∈ all, ∃ p c i, s.pc p = .wait c i ∧ r = c.request i ∧ s.bdisk c.b = true
  waiting : ∀ p c i, s.pc p = .wait c i → s.bdisk c.b = true → c.request i ∈ all

/-- The requests in the rings and on their way to the device. -/
structure Places (s : State P B) (avail taken used : List (Request B)) : Prop where
  availRing : Ring.Holds s.disk.availRing s.device.seen s.disk.availIdx
    (avail.map fun r => BitVec.ofNat 16 r.head)
  device : s.device.taken = taken.map fun r => BitVec.ofNat 16 r.head
  usedRing : Ring.Holds s.disk.usedRing s.disk.seen s.disk.usedIdx
    (used.map fun r => BitVec.ofNat 32 r.head)
  completed : s.completed.map Request.b = s.cleared ++ used.map Request.b

structure Inv (s : State P B) : Prop where
  table : Table s
  flight : ∃ avail taken used, Places s avail taken used ∧
    Known s (avail ++ taken ++ s.device.served ++ used) ∧
    ∀ r ∈ s.device.served ++ used, (s.disk.info r.head).status = 0
  panic : s.panic = none

theorem Known.perm {all all' : List (Request B)} (h : Known s all) (hp : all.Perm all') :
    Known s all' :=
  ⟨((hp.map _).nodup_iff).mp h.nodup, fun r hr => h.pending r (hp.mem_iff.mpr hr),
    fun p c i hc hb => hp.mem_iff.mp (h.waiting p c i hc hb)⟩

theorem Known.congr {all : List (Request B)} (h : Known s all)
    (hwait : ∀ p c i, t.pc p = .wait c i ↔ s.pc p = .wait c i)
    (hb : t.bdisk = s.bdisk) : Known t all := by
  refine ⟨h.nodup, fun r hr => ?_, fun p c i hc hbc => ?_⟩
  · obtain ⟨p, c, i, hc, heq, hbc⟩ := h.pending r hr
    exact ⟨p, c, i, (hwait p c i).mpr hc, heq, hb ▸ hbc⟩
  · exact h.waiting p c i ((hwait p c i).mp hc) (hb ▸ hbc)

/-- There are not more requests in flight than descriptors. -/
theorem Known.length_le {all : List (Request B)} (h : Known s all) : all.length ≤ NUM := by
  have hcard := h.nodup.length_le_card
  rwa [length_map, Fintype.card_fin] at hcard

/-- The head of a request in flight is not free. -/
theorem Table.taken_head (h : Table s) {all : List (Request B)} (hk : Known s all)
    (hr : r ∈ all) : s.disk.free r.head = false := by
  obtain ⟨p, c, i, hc, rfl, -⟩ := hk.pending r hr
  exact (h.posted p c i hc).taken i.head (by simp [Chain.indices])

/-- A step that leaves the chains and the buffers of the processes as they are. -/
theorem Table.congr (h : Table s) (hwait : ∀ p c i, t.pc p = .wait c i ↔ s.pc p = .wait c i)
    (hbuf : ∀ p q b, (t.pc p).buf = some b → (t.pc q).buf = some b → p = q)
    (hposted : ∀ c i, Posted s.disk c i → Posted t.disk c i)
    (hfree : t.disk.free = s.disk.free) : Table t := by
  refine ⟨fun p c i hc => hposted c i (h.posted p c i ((hwait p c i).mp hc)), ?_, ?_, hbuf⟩
  · intro p q c i c' i' hc hc'
    exact h.disjoint p q c i c' i' ((hwait p c i).mp hc) ((hwait q c' i').mp hc')
  · intro x hx
    rw [hfree] at hx
    obtain ⟨p, c, i, hc, hmem⟩ := h.owned x hx
    exact ⟨p, c, i, (hwait p c i).mpr hc, hmem⟩

/-- The buffer of a call that allocates is used by no other process. -/
theorem buf_of_call (h : Table s) (hok : Exclusive s e) (hp : s.Allocates e p c) (q : P)
    (hq : (s.pc q).buf = some c.b) : q = p := by
  rcases hp with ⟨-, rfl⟩ | ⟨hp, -⟩
  · exact absurd hq (hok q)
  · exact h.buf q p c.b hq (by rw [hp]; rfl)

theorem State.Allocates.ne_intrRound (hp : s.Allocates e p c) : e ≠ .intrRound := by
  rcases hp with ⟨-, rfl⟩ | ⟨-, rfl⟩ <;> simp

theorem not_wait_of_call (hp : s.Allocates e p c) (c' : Call B)
    (i : Chain) : s.pc p ≠ .wait c' i := by
  rcases hp with ⟨hp, -⟩ | ⟨hp, -⟩
  · simp [hp]
  · simp [hp]

/-- The invariant does not look at who sleeps and who has the lock. -/
theorem Inv.quiet (h : Inv s) (sleeping : P → Bool) (intr : Bool) :
    Inv { s with sleeping := sleeping, intr := intr } := by
  obtain ⟨avail, taken, used, hplaces, hknown, hstatus⟩ := h.flight
  exact ⟨⟨h.table.posted, h.table.disjoint, h.table.owned, h.table.buf⟩,
    ⟨avail, taken, used, ⟨hplaces.availRing, hplaces.device, hplaces.usedRing,
      hplaces.completed⟩, hknown.congr (fun _ _ _ => .rfl) rfl, hstatus⟩, h.panic⟩

theorem Start.inv (hs : Start s) : Inv s where
  table := by
    refine ⟨fun p c i hc => ?_, fun p q c i c' i' hc => ?_, fun x hx => ?_, fun p q b hb => ?_⟩
    · exact absurd ((hs.pc p).symm.trans hc) (by simp)
    · exact absurd ((hs.pc p).symm.trans hc) (by simp)
    · exact absurd ((hs.free x).symm.trans hx) (by simp)
    · rw [hs.pc p] at hb
      cases hb
  flight := by
    refine ⟨[], [], [], ⟨?_, ?_, ?_, ?_⟩, ⟨?_, ?_, fun p c i hc => ?_⟩, ?_⟩
    · rw [hs.device, hs.availIdx]
      exact Ring.Holds.nil _ _
    · rw [hs.device]
      rfl
    · rw [hs.seen, hs.usedIdx]
      exact Ring.Holds.nil _ _
    · rw [hs.completed, hs.cleared]
      rfl
    · simp [hs.device]
    · simp [hs.device]
    · exact absurd ((hs.pc p).symm.trans hc) (by simp)
    · simp [hs.device]
  panic := hs.panic

/-! ## The device and its interrupt -/

section Device

theorem Inv.take (h : Inv s) (hne : s.device.seen ≠ s.disk.availIdx) : Inv s.take := by
  obtain ⟨avail, taken, used, hplaces, hknown, hstatus⟩ := h.flight
  have hempty := hplaces.availRing.empty_iff (by decide)
  cases avail with
  | nil => exact absurd (hempty.mpr rfl) hne
  | cons r avail =>
    refine ⟨⟨h.table.posted, h.table.disjoint, h.table.owned, h.table.buf⟩,
      ⟨avail, taken ++ [r], used, ⟨hplaces.availRing.pop, ?_, hplaces.usedRing,
        hplaces.completed⟩, (hknown.perm ?_).congr (fun _ _ _ => .rfl) rfl, hstatus⟩,
      h.panic⟩
    · change s.device.taken ++ [_] = _
      rw [hplaces.device, hplaces.availRing.head, map_append]
      rfl
    · simp only [cons_append, append_assoc, nil_append, State.take]
      rw [← append_assoc avail, ← append_assoc avail]
      exact perm_middle.symm

/-- The device finds the request in the chain it has taken. -/
theorem Table.decode (h : Table s) {all : List (Request B)} (hk : Known s all) (hr : r ∈ all) :
    decode s.disk (BitVec.ofNat 16 r.head.val).toNat = some (r, r.head) := by
  obtain ⟨p, c, i, hc, rfl, -⟩ := hk.pending r hr
  rw [toNat_index]
  exact (h.posted p c i hc).decode

theorem perm_eraseIdx {l : List α} {x : α} (h : l[k]? = some x) :
    l.Perm (x :: l.eraseIdx k) := by
  obtain ⟨hk, rfl⟩ := List.getElem?_eq_some_iff.mp h
  exact (List.getElem_cons_eraseIdx_perm hk).symm

theorem Inv.serve {head : BitVec 16} {j : Index} (h : Inv s) (hk : s.device.taken[k]? = some head)
    (hdecode : Virtio.decode s.disk head.toNat = some (r, j)) :
    Inv { s with
      device := { s.device with
        taken := s.device.taken.eraseIdx k
        served := s.device.served ++ [r] }
      disk := { s.disk with
        info := update s.disk.info j { s.disk.info j with status := 0 } } } := by
  obtain ⟨avail, taken, used, hplaces, hknown, hstatus⟩ := h.flight
  rw [hplaces.device, getElem?_map, Option.map_eq_some_iff] at hk
  obtain ⟨r', hk, rfl⟩ := hk
  have hmem : r' ∈ taken := mem_of_getElem? hk
  have hread := h.table.decode hknown (r := r') (by simp [hmem])
  cases hdecode.symm.trans hread
  refine ⟨h.table.congr (fun _ _ _ => .rfl) h.table.buf (fun c i hc => ?_) rfl,
    ⟨avail, taken.eraseIdx k, used, ⟨hplaces.availRing, ?_, hplaces.usedRing,
      hplaces.completed⟩, (hknown.perm ?_).congr (fun _ _ _ => .rfl) rfl,
      fun r' hr' => ?_⟩, h.panic⟩
  · refine hc.congr hc.taken (fun _ _ => rfl) rfl ?_
    dsimp only
    rw [update_apply]
    split
    next heq => rw [heq]
    next => rfl
  · change s.device.taken.eraseIdx k = _
    rw [hplaces.device, eraseIdx_map]
  · simp only [append_assoc]
    refine List.Perm.append_left avail ?_
    refine ((perm_eraseIdx hk).append_right _).trans ?_
    rw [cons_append, singleton_append, ← append_assoc, ← append_assoc]
    exact perm_middle.symm
  · dsimp only
    rw [update_apply]
    split
    next => rfl
    next hne =>
      refine hstatus r' ?_
      simp only [mem_append, mem_singleton] at hr' ⊢
      rcases hr' with (hr' | rfl) | hr'
      · exact Or.inl hr'
      · exact absurd rfl hne
      · exact Or.inr hr'

theorem Inv.append (h : Inv s) (hk : s.device.served[k]? = some r) : Inv { s with
      device := { s.device with served := s.device.served.eraseIdx k }
      disk := { s.disk with
        usedRing := update s.disk.usedRing (Ring.slot NUM s.disk.usedIdx) (BitVec.ofNat 32 r.head)
        usedIdx := s.disk.usedIdx + 1 }
      completed := s.completed ++ [r] } := by
  obtain ⟨avail, taken, used, hplaces, hknown, hstatus⟩ := h.flight
  have hperm := perm_eraseIdx hk
  refine ⟨h.table.congr (fun _ _ _ => .rfl) h.table.buf (fun c i hc => ?_) rfl,
    ⟨avail, taken, used ++ [r], ⟨hplaces.availRing, hplaces.device, ?_, ?_⟩,
      (hknown.perm ?_).congr (fun _ _ _ => .rfl) rfl, fun r' hr' => ?_⟩, h.panic⟩
  · exact hc.congr hc.taken (fun _ _ => rfl) rfl rfl
  · have hlen := hknown.length_le
    have hserved := hperm.length_eq
    simp only [length_append, length_cons] at hlen hserved
    rw [map_append]
    refine hplaces.usedRing.push (by decide) ?_ _
    rw [length_map]
    omega
  · dsimp only
    rw [map_append, hplaces.completed, map_append, append_assoc]
  · simp only [append_assoc]
    refine (List.Perm.append_left taken ?_).append_left avail
    refine (hperm.append_right used).trans ?_
    rw [cons_append, ← append_assoc]
    exact (perm_append_singleton _ _).symm
  · refine hstatus r' ?_
    simp only [mem_append, mem_singleton] at hr' ⊢
    rcases hr' with hr' | hr' | rfl
    · exact Or.inl (mem_of_mem_eraseIdx hr')
    · exact Or.inr hr'
    · exact Or.inl (mem_of_getElem? hk)

variable [DecidableEq B]

/-- The interrupt handler sees the first request in the used ring. -/
theorem intrRound_eq (h : Inv s) (hne : s.disk.seen ≠ s.disk.usedIdx) :
    ∃ r p c i, s.pc p = .wait c i ∧ r = c.request i ∧ s.bdisk c.b = true ∧
      s.intrRound = { s.wakeBuf c.b with
        bdisk := update s.bdisk c.b false
        disk := { s.disk with seen := s.disk.seen + 1 }
        cleared := s.cleared ++ [c.b] } ∧
      ∃ avail taken used, Places s avail taken (r :: used) ∧
        Known s (avail ++ taken ++ s.device.served ++ r :: used) ∧
        ∀ r' ∈ s.device.served ++ r :: used, (s.disk.info r'.head).status = 0 := by
  obtain ⟨avail, taken, used, hplaces, hknown, hstatus⟩ := h.flight
  have hempty := hplaces.usedRing.empty_iff (by decide)
  cases used with
  | nil => exact absurd (hempty.mpr rfl) hne
  | cons r used =>
    obtain ⟨p, c, i, hc, hr, hb⟩ := hknown.pending r (by simp)
    refine ⟨r, p, c, i, hc, hr, hb, ?_, avail, taken, used, hplaces, hknown, hstatus⟩
    have hid : (s.disk.usedRing (Ring.slot NUM s.disk.seen)).toNat = r.head := by
      rw [hplaces.usedRing.head, BitVec.toNat_ofNat,
        Nat.mod_eq_of_lt (r.head.isLt.trans (by decide))]
    have hinfo : (s.disk.info r.head).b = some c.b := by
      rw [hr]
      exact (h.table.posted p c i hc).info
    unfold State.intrRound
    simp only [hid, r.head.isLt, dif_pos, Fin.eta]
    rw [if_neg (not_not.mpr (hstatus r (by simp))), hinfo]

theorem Inv.intr (h : Inv s) (hne : s.disk.seen ≠ s.disk.usedIdx) : Inv s.intrRound := by
  obtain ⟨r, p, c, i, hc, rfl, hb, heq, avail, taken, used, hplaces, hknown, hstatus⟩ :=
    intrRound_eq h hne
  rw [heq]
  have hall := hknown.perm (@perm_middle _ _ (avail ++ taken ++ s.device.served) _)
  have hhead := nodup_cons.mp hall.nodup
  refine ⟨h.table.congr (fun _ _ _ => .rfl) h.table.buf (fun c i hc => ?_) rfl,
    ⟨avail, taken, used, ⟨hplaces.availRing, hplaces.device, hplaces.usedRing.pop, ?_⟩,
      ⟨hhead.2, fun r' hr' => ?_, fun q c' i' hq hbq => ?_⟩, fun r' hr' => ?_⟩, h.panic⟩
  · exact hc.congr hc.taken (fun _ _ => rfl) rfl rfl
  · change s.completed.map Request.b = (s.cleared ++ [c.b]) ++ used.map Request.b
    rw [hplaces.completed, append_assoc]
    rfl
  · obtain ⟨q, c', i', hq, heq', hbq⟩ := hall.pending r' (mem_cons_of_mem _ hr')
    refine ⟨q, c', i', hq, heq', ?_⟩
    -- Another request belongs to another process, and so to another buffer.
    have hqp : q ≠ p := by
      rintro rfl
      cases hc.symm.trans hq
      exact hhead.1 (mem_map.mpr ⟨r', hr', by rw [heq']⟩)
    have hbne : c'.b ≠ c.b := fun hsame =>
      hqp (h.table.buf q p c.b (by rw [hq, ← hsame]; rfl) (by rw [hc]; rfl))
    exact (update_of_ne hbne _ _).trans hbq
  · change update s.bdisk c.b false c'.b = true at hbq
    rw [update_apply] at hbq
    split at hbq
    next => cases hbq
    next hbne =>
      rcases mem_cons.mp (hall.waiting q c' i' hq hbq) with hsame | hmem
      · exact absurd (congrArg Request.b hsame) hbne
      · exact hmem
  · refine hstatus r' ?_
    simp only [mem_append, mem_cons] at hr' ⊢
    rcases hr' with hr' | hr'
    · exact Or.inl hr'
    · exact Or.inr (Or.inr hr')

end Device

/-! ## Cells that are still to be read -/

/-- The cell after the end of a ring that still fits with one more element is none of
its cells. -/
theorem slot_ne_of_push {data data' : Fin NUM → α} {r e : BitVec 16} {q q' : List α}
    (h : Ring.Holds data r e q) (h' : Ring.Holds data' r (e + 1) q')
    (hk : k < (e - r).toNat) :
    Ring.slot NUM (r + BitVec.ofNat 16 k) ≠ Ring.slot NUM e := by
  have hlen := h.toNat_sub (by decide)
  have hlen' := h'.toNat_sub (by decide)
  have hle : q.length ≤ 8 := h.length_le
  have hle' : q'.length ≤ 8 := h'.length_le
  have hsucc : e + 1 - r = (e - r) + 1 := by
    rw [BitVec.sub_eq_add_neg, BitVec.sub_eq_add_neg, BitVec.add_assoc, BitVec.add_assoc,
      BitVec.add_comm 1]
  rw [hsucc, BitVec.toNat_add, hlen] at hlen'
  have hone : (1 : BitVec 16).toNat = 1 := rfl
  rw [hone, Nat.mod_eq_of_lt (by omega)] at hlen'
  exact h.slot_ne (by decide) (show q.length < 8 by omega) (hlen ▸ hk)

/-- The entries of the two rings that are still to be read. -/
structure Unread (s t : State P B) : Prop where
  avail : ∀ k < (s.disk.availIdx - s.device.seen).toNat,
    t.disk.availRing (Ring.slot NUM (s.device.seen + BitVec.ofNat 16 k)) =
      s.disk.availRing (Ring.slot NUM (s.device.seen + BitVec.ofNat 16 k))
  used : ∀ k < (s.disk.usedIdx - s.disk.seen).toNat,
    t.disk.usedRing (Ring.slot NUM (s.disk.seen + BitVec.ofNat 16 k)) =
      s.disk.usedRing (Ring.slot NUM (s.disk.seen + BitVec.ofNat 16 k))

theorem Unread.of_eq (havail : t.disk.availRing = s.disk.availRing)
    (hused : t.disk.usedRing = s.disk.usedRing) : Unread s t :=
  ⟨fun _ _ => by rw [havail], fun _ _ => by rw [hused]⟩

/-! ## The processes -/

section Processes

variable [DecidableEq P]

theorem update_wait_iff (hs : ∀ c i, s.pc p ≠ .wait c i) (ht : ∀ c i, pc' ≠ .wait c i)
    (q : P) (c : Call B) (i : Chain) :
    update s.pc p pc' q = .wait c i ↔ s.pc q = .wait c i := by
  rw [update_apply]
  split
  next heq =>
    subst heq
    exact ⟨fun h => absurd h (ht c i), fun h => absurd h (hs c i)⟩
  next => rfl

/-- A process goes on with the buffer it has, or with one that nobody uses. -/
theorem buf_update (h : ∀ p q b, (s.pc p).buf = some b → (s.pc q).buf = some b → p = q)
    (hp : ∀ b q, pc'.buf = some b → (s.pc q).buf = some b → q = p) (q r : P) (b : B)
    (hq : (update s.pc p pc' q).buf = some b)
    (hr : (update s.pc p pc' r).buf = some b) : q = r := by
  rw [update_apply] at hq hr
  split at hq
  next heq =>
    split at hr
    next heq' => rw [heq, heq']
    next => rw [heq, hp b r hq hr]
  next =>
    split at hr
    next heq => rw [heq, hp b q hr hq]
    next => exact h q r b hq hr

theorem Inv.failed {d : Disk B} (h : Inv s) (hok : Exclusive s e)
    (hp : s.Allocates e p c) (hd : Rolled s.disk d) :
    Inv { s with
      disk := d, pc := update s.pc p (.alloc c), sleeping := sleeping } := by
  have halloc : ∀ d i, Pc.alloc c ≠ .wait d i := by simp
  have hwait := update_wait_iff (not_wait_of_call hp) halloc
  obtain ⟨avail, taken, used, hplaces, hknown, hstatus⟩ := h.flight
  refine ⟨h.table.congr hwait (buf_update h.table.buf fun b q hb hq => ?_)
    (fun c i hc => hc.rolled hd) ?_,
    ⟨avail, taken, used, ⟨?_, hplaces.device, ?_, hplaces.completed⟩,
      hknown.congr hwait rfl, ?_⟩, h.panic⟩
  · cases hb
    exact buf_of_call h.table hok hp q hq
  · dsimp only
    rw [hd.eq]
  · dsimp only
    rw [hd.eq]
    exact hplaces.availRing
  · dsimp only
    rw [hd.eq]
    exact hplaces.usedRing
  · dsimp only
    rw [hd.eq]
    exact hstatus

/-- The chain of the new request is in the table. -/
theorem Table.post (h : Table s) (hok : Exclusive s e) (hp : s.Allocates e p c)
    (hnodup : i.indices.Nodup) (hfree : ∀ x ∈ i.indices, s.disk.free x = true)
    (hpc : t.pc = update s.pc p (.wait c i))
    (hdisk : t.disk = ((s.disk.mark i).format c i).notify i) : Table t := by
  have hother := elsewhere_format s.disk c i
  have hdisj : ∀ q c' i', s.pc q = .wait c' i' → i'.indices.Disjoint i.indices := by
    intro q c' i' hq x hx hx'
    exact absurd ((hfree x hx').symm.trans ((h.posted q c' i' hq).taken x hx)) (by simp)
  have hcase : ∀ q c' i', t.pc q = .wait c' i' →
      q = p ∧ c' = c ∧ i' = i ∨ q ≠ p ∧ s.pc q = .wait c' i' := by
    intro q c' i' hq
    rw [hpc, update_apply] at hq
    split at hq
    next heq =>
      cases hq
      exact Or.inl ⟨heq, rfl, rfl⟩
    next hne => exact Or.inr ⟨hne, hq⟩
  refine ⟨fun q c' i' hq => ?_, ?_, fun x hx => ?_, ?_⟩
  · rw [hdisk]
    rcases hcase q c' i' hq with ⟨-, rfl, rfl⟩ | ⟨-, hq⟩
    · have hnew : Posted ((s.disk.mark i').format c' i') c' i' := posted_format hnodup c'
      exact hnew.congr hnew.taken (fun _ _ => rfl) rfl rfl
    · have hq' := (h.posted q c' i' hq).elsewhere hother (hdisj q c' i' hq)
      exact hq'.congr hq'.taken (fun _ _ => rfl) rfl rfl
  · intro q r c₁ i₁ c₂ i₂ hq hr hne
    rcases hcase q c₁ i₁ hq with ⟨rfl, rfl, rfl⟩ | ⟨-, hq⟩
    · rcases hcase r c₂ i₂ hr with ⟨rfl, -, -⟩ | ⟨-, hr⟩
      · exact absurd rfl hne
      · exact (hdisj r c₂ i₂ hr).symm
    · rcases hcase r c₂ i₂ hr with ⟨rfl, rfl, rfl⟩ | ⟨-, hr⟩
      · exact hdisj q c₁ i₁ hq
      · exact h.disjoint q r c₁ i₁ c₂ i₂ hq hr hne
  · rw [hdisk] at hx
    by_cases hmem : x ∈ i.indices
    · exact ⟨p, c, i, by rw [hpc, update_self], hmem⟩
    · obtain ⟨q, c', i', hq, hx'⟩ := h.owned x ((hother.free x hmem).symm.trans hx)
      refine ⟨q, c', i', ?_, hx'⟩
      have hne : q ≠ p := by
        rintro rfl
        exact not_wait_of_call hp c' i' hq
      rw [hpc, update_of_ne hne, hq]
  · rw [hpc]
    refine buf_update h.buf fun b q hb hq => ?_
    cases hb
    exact buf_of_call h hok hp q hq

theorem Inv.again (h : Inv s) (hp : s.pc p = .wait c i) :
    Inv { s with pc := update s.pc p (.wait c i), sleeping := sleeping } := by
  have hpc : update s.pc p (.wait c i) = s.pc := update_eq_self_iff.mpr hp.symm
  rw [hpc]
  exact h.quiet sleeping s.intr

/-- The process that has waited frees its chain. -/
theorem Table.finish (h : Table s) (hp : s.pc p = .wait c i)
    (hpc : t.pc = update s.pc p .user) (hdisk : t.disk = s.disk.release i) :
    Table t := by
  have hother := elsewhere_release s.disk i
  have hcase : ∀ q c' i', t.pc q = .wait c' i' → q ≠ p ∧ s.pc q = .wait c' i' := by
    intro q c' i' hq
    rw [hpc, update_apply] at hq
    split at hq
    next => cases hq
    next hne => exact ⟨hne, hq⟩
  refine ⟨fun q c' i' hq => ?_, fun q r c₁ i₁ c₂ i₂ hq hr => ?_, fun x hx => ?_, ?_⟩
  · obtain ⟨hne, hq⟩ := hcase q c' i' hq
    rw [hdisk]
    exact (h.posted q c' i' hq).elsewhere hother (h.disjoint q p c' i' c i hq hp hne)
  · exact h.disjoint q r c₁ i₁ c₂ i₂ (hcase q c₁ i₁ hq).2 (hcase r c₂ i₂ hr).2
  · rw [hdisk] at hx
    have hmem : x ∉ i.indices := fun hmem => absurd ((free_release hmem).symm.trans hx) (by simp)
    obtain ⟨q, c', i', hq, hx'⟩ := h.owned x ((hother.free x hmem).symm.trans hx)
    refine ⟨q, c', i', ?_, hx'⟩
    have hne : q ≠ p := by
      rintro rfl
      cases hp.symm.trans hq
      exact hmem hx'
    rw [hpc, update_of_ne hne, hq]
  · rw [hpc]
    exact buf_update h.buf fun b q hb => absurd hb (by simp [Pc.buf])

theorem waitRound_eq (h : Table s) (hp : s.pc p = .wait c i) (hb : s.bdisk c.b = false) :
    s.waitRound p c i = { s with disk := s.disk.release i }.wakeFree.goto p .user false := by
  unfold State.waitRound
  rw [if_neg (by simp [hb]), (h.posted p c i hp).freeChain]

theorem Inv.finish (h : Inv s) (hp : s.pc p = .wait c i) (hb : s.bdisk c.b = false) :
    Inv (s.waitRound p c i) := by
  rw [waitRound_eq h.table hp hb]
  obtain ⟨avail, taken, used, hplaces, hknown, hstatus⟩ := h.flight
  refine ⟨h.table.finish hp rfl rfl, ⟨avail, taken, used, ⟨hplaces.availRing,
    hplaces.device, hplaces.usedRing, hplaces.completed⟩, ⟨hknown.nodup, fun r hr => ?_,
    fun q c' i' hq hbq => ?_⟩, fun r hr => ?_⟩, h.panic⟩
  · obtain ⟨q, c', i', hq, heq, hbq⟩ := hknown.pending r hr
    refine ⟨q, c', i', ?_, heq, hbq⟩
    have hne : q ≠ p := by
      rintro rfl
      cases hp.symm.trans hq
      exact absurd (hb.symm.trans hbq) (by simp)
    exact (update_of_ne hne _ _).trans hq
  · change update s.pc p .user q = .wait c' i' at hq
    rw [update_apply] at hq
    split at hq
    next => cases hq
    next => exact hknown.waiting q c' i' hq hbq
  · have hrelease : ((s.disk.release i).info r.head).status = (s.disk.info r.head).status := by
      simp only [Disk.release, Disk.forget, update_apply]
      split
      next heq => rw [heq]
      next => rfl
    exact hrelease.trans (hstatus r hr)

end Processes

variable [DecidableEq P] [DecidableEq B]

section Posting

variable {all : List (Request B)}

theorem Known.post (h : Known s all) (htable : Table s) (hok : Exclusive s e)
    (hp : s.Allocates e p c)
    (hfree : s.disk.free i.head = true)
    (hpc : t.pc = update s.pc p (.wait c i))
    (hb : t.bdisk = update s.bdisk c.b true) :
    Known t (c.request i :: all) := by
  have hne : ∀ q c' i', s.pc q = .wait c' i' → q ≠ p := by
    rintro q c' i' hq rfl
    exact not_wait_of_call hp c' i' hq
  refine ⟨?_, fun r hr => ?_, fun q c' i' hq hbq => ?_⟩
  · rw [map_cons, nodup_cons]
    refine ⟨fun hmem => ?_, h.nodup⟩
    obtain ⟨r, hr, heq⟩ := mem_map.mp hmem
    have htaken := htable.taken_head h hr
    rw [heq] at htaken
    exact absurd (hfree.symm.trans htaken) (by simp)
  · rcases mem_cons.mp hr with rfl | hr
    · exact ⟨p, c, i, by rw [hpc, update_self], rfl, by rw [hb, update_self]⟩
    · obtain ⟨q, c', i', hq, heq, hbq⟩ := h.pending r hr
      refine ⟨q, c', i', by rw [hpc, update_of_ne (hne q c' i' hq), hq], heq, ?_⟩
      rw [hb, update_apply, hbq, ite_self]
  · rw [hpc, update_apply] at hq
    split at hq
    next =>
      cases hq
      exact mem_cons_self
    next hqp =>
      have hbne : c'.b ≠ c.b := fun heq =>
        hqp (buf_of_call htable hok hp q (by rw [hq, ← heq]; rfl))
      rw [hb, update_of_ne hbne] at hbq
      exact mem_cons_of_mem _ (h.waiting q c' i' hq hbq)

theorem Inv.post (h : Inv s) (hok : Exclusive s e) (hp : s.Allocates e p c)
    (hnodup : i.indices.Nodup) (hfree : ∀ x ∈ i.indices, s.disk.free x = true) :
    Inv { s with
      disk := ((s.disk.mark i).format c i).notify i
      bdisk := update s.bdisk c.b true
      pc := update s.pc p (.wait c i)
      sleeping := sleeping } := by
  have hhead : s.disk.free i.head = true := hfree i.head (by simp [Chain.indices])
  obtain ⟨avail, taken, used, hplaces, hknown, hstatus⟩ := h.flight
  have hnew := hknown.post h.table hok hp hhead (t := { s with
      disk := ((s.disk.mark i).format c i).notify i
      bdisk := update s.bdisk c.b true
      pc := update s.pc p (.wait c i)
      sleeping := sleeping }) rfl rfl
  refine ⟨h.table.post hok hp hnodup hfree rfl rfl,
    ⟨avail ++ [c.request i], taken, used, ⟨?_, hplaces.device, hplaces.usedRing,
      hplaces.completed⟩, hnew.perm ?_, fun r hr => ?_⟩, h.panic⟩
  · have hlen := hnew.length_le
    simp only [length_cons, length_append] at hlen
    rw [map_append]
    refine hplaces.availRing.push (by decide) ?_ _
    rw [length_map]
    omega
  · simp only [append_assoc]
    exact perm_middle.symm
  · have hne : r.head ≠ i.head := by
      intro heq
      have htaken := h.table.taken_head hknown (r := r) (by
        rcases mem_append.mp hr with hr | hr
        · exact mem_append_left _ (mem_append_right _ hr)
        · exact mem_append_right _ hr)
      rw [heq] at htaken
      exact absurd (hhead.symm.trans htaken) (by simp)
    change (update s.disk.info i.head _ r.head).status = 0
    rw [update_of_ne hne]
    exact hstatus r hr

end Posting

/-! ## Steps -/

/-- What a step does.  The flags that say who sleeps and whether `virtio_disk_intr`
has the lock do not matter here. -/
inductive Move (s : State P B) : Event P B → State P B → Prop
  | failed {e : Event P B} {p : P} {c : Call B} {d : Disk B} {sleeping : P → Bool}
      (hp : s.Allocates e p c)
      (hd : Rolled s.disk d) :
      Move s e { s with
        disk := d, pc := update s.pc p (.alloc c), sleeping := sleeping }
  | posted {e : Event P B} {p : P} {c : Call B} {i : Chain} {sleeping : P → Bool}
      (hp : s.Allocates e p c)
      (hnodup : i.indices.Nodup) (hfree : ∀ x ∈ i.indices, s.disk.free x = true) :
      Move s e { s with
        disk := ((s.disk.mark i).format c i).notify i
        bdisk := update s.bdisk c.b true
        pc := update s.pc p (.wait c i)
        sleeping := sleeping }
  | again {p : P} {c : Call B} {i : Chain} {sleeping : P → Bool} (hp : s.pc p = .wait c i) :
      Move s (.resume p)
        { s with pc := update s.pc p (.wait c i), sleeping := sleeping }
  | finish {p : P} {c : Call B} {i : Chain} (hp : s.pc p = .wait c i)
      (hb : s.bdisk c.b = false) : Move s (.resume p) (s.waitRound p c i)
  | quiet {e : Event P B} {sleeping : P → Bool} {intr : Bool} (he : e ≠ .intrRound) :
      Move s e { s with sleeping := sleeping, intr := intr }
  | intr (hne : s.disk.seen ≠ s.disk.usedIdx) : Move s .intrRound s.intrRound
  | take (hne : s.device.seen ≠ s.disk.availIdx) : Move s .take s.take
  | serve {k : ℕ} {head : BitVec 16} {r : Request B} {j : Index}
      (hk : s.device.taken[k]? = some head)
      (hdecode : decode s.disk head.toNat = some (r, j)) :
      Move s (.serve k) { s with
        device := { s.device with
          taken := s.device.taken.eraseIdx k
          served := s.device.served ++ [r] }
        disk := { s.disk with
          info := update s.disk.info j { s.disk.info j with status := 0 } } }
  | append {k : ℕ} {r : Request B} (hk : s.device.served[k]? = some r) : Move s (.append k) { s with
        device := { s.device with served := s.device.served.eraseIdx k }
        disk := { s.disk with
          usedRing := update s.disk.usedRing (Ring.slot NUM s.disk.usedIdx) (BitVec.ofNat 32 r.head)
          usedIdx := s.disk.usedIdx + 1 }
        completed := s.completed ++ [r] }

theorem allocRound_move (hp : s.Allocates e p c) : Move s e (s.allocRound p c) := by
  unfold State.allocRound
  rcases alloc3Desc_cases s.disk with ⟨i, hi, hnodup, hfree⟩ | ⟨freed, d, hd, hrolled⟩
  · rw [hi]
    exact .posted hp hnodup hfree
  · rw [hd]
    dsimp only
    split
    · exact .failed hp hrolled
    · exact .failed hp hrolled

theorem step_move (h : step s e = some t) : Move s e t := by
  unfold step at h
  split at h
  next => cases h
  next hpanic =>
    split at h
    next p c =>
      split at h
      next hp =>
        cases h
        exact allocRound_move (Or.inl ⟨hp, rfl⟩)
      next => cases h
    next p =>
      split at h
      next hp =>
        cases h
        exact allocRound_move (Or.inr ⟨hp, rfl⟩)
      next c i _ _ hp =>
        cases h
        cases hb : s.bdisk c.b with
        | false => exact .finish hp hb
        | true =>
          unfold State.waitRound
          rw [if_pos hb]
          exact .again hp
      next => cases h
    next p =>
      cases h
      exact @Move.quiet _ _ _ _ _ _ _ s.intr (by simp)
    next =>
      split at h
      · cases h
      · cases h
        exact @Move.quiet _ _ _ _ _ _ s.sleeping _ (by simp)
    next =>
      obtain ⟨hs, ⟨⟩⟩ := Option.ite_none_right_eq_some.mp h
      exact .intr hs.2
    next =>
      split at h
      · cases h
        exact @Move.quiet _ _ _ _ _ _ s.sleeping _ (by simp)
      · cases h
    next =>
      obtain ⟨hs, ⟨⟩⟩ := Option.ite_none_right_eq_some.mp h
      exact .take hs
    next k =>
      obtain ⟨head, hk, h⟩ := Option.bind_eq_some_iff.mp h
      obtain ⟨⟨r, j⟩, hd, h⟩ := Option.bind_eq_some_iff.mp h
      cases h
      exact .serve hk hd
    next k =>
      obtain ⟨r, hk, h⟩ := Option.bind_eq_some_iff.mp h
      cases h
      exact .append hk

theorem Move.inv (hm : Move s e t) (h : Inv s) (hok : Exclusive s e) : Inv t := by
  cases hm with
  | failed hp hd => exact h.failed hok hp hd
  | posted hp hnodup hfree => exact h.post hok hp hnodup hfree
  | again hp => exact h.again hp
  | finish hp hb => exact h.finish hp hb
  | quiet => exact h.quiet _ _
  | intr hne => exact h.intr hne
  | take hne => exact h.take hne
  | serve hk hdecode => exact h.serve hk hdecode
  | append hk => exact h.append hk

theorem Move.unread (hm : Move s e t) (h : Inv s) (hok : Exclusive s e) : Unread s t := by
  have ht := hm.inv h hok
  obtain ⟨avail, taken, used, hplaces, -⟩ := h.flight
  obtain ⟨avail', taken', used', hplaces', -⟩ := ht.flight
  cases hm with
  | failed hp hd =>
    refine .of_eq ?_ ?_
    · dsimp only
      rw [hd.eq]
    · dsimp only
      rw [hd.eq]
  | posted =>
    refine ⟨fun k hk => update_of_ne ?_ _ _, fun _ _ => rfl⟩
    exact slot_ne_of_push hplaces.availRing hplaces'.availRing hk
  | again | quiet | take | serve => exact .of_eq rfl rfl
  | finish hp hb =>
    rw [waitRound_eq h.table hp hb]
    exact .of_eq rfl rfl
  | intr hne =>
    obtain ⟨r, p, c, i, -, -, -, heq, -⟩ := intrRound_eq h hne
    rw [heq]
    exact .of_eq rfl rfl
  | append =>
    refine ⟨fun _ _ => rfl, fun k hk => update_of_ne ?_ _ _⟩
    exact slot_ne_of_push hplaces.usedRing hplaces'.usedRing hk

/-- `b->disk` is cleared by the interrupt handler only, and for one buffer. -/
theorem Move.clears (hm : Move s e t) (h : Inv s) :
    (e = .intrRound → ∃ b, s.bdisk b = true ∧ t.bdisk = update s.bdisk b false ∧
      t.cleared = s.cleared ++ [b]) ∧
    (e ≠ .intrRound → t.cleared = s.cleared ∧ ∀ b, s.bdisk b = true → t.bdisk b = true) := by
  cases hm with
  | failed hp =>
    refine ⟨fun he => ?_, fun _ => ⟨rfl, fun _ hb => hb⟩⟩
    exact absurd he hp.ne_intrRound
  | posted hp =>
    refine ⟨fun he => absurd he hp.ne_intrRound, fun _ => ⟨rfl, fun b hb => ?_⟩⟩
    dsimp only
    rw [update_apply, hb, ite_self]
  | again | take | serve | append =>
    exact ⟨fun he => absurd he (by simp), fun _ => ⟨rfl, fun _ hb => hb⟩⟩
  | finish hp hb =>
    rw [waitRound_eq h.table hp hb]
    exact ⟨fun he => absurd he (by simp), fun _ => ⟨rfl, fun _ hb => hb⟩⟩
  | quiet he => exact ⟨fun he' => absurd he' he, fun _ => ⟨rfl, fun _ hb => hb⟩⟩
  | intr hne =>
    obtain ⟨r, p, c, i, -, -, hb, heq, -⟩ := intrRound_eq h hne
    refine ⟨fun _ => ⟨c.b, hb, ?_, ?_⟩, fun he => absurd rfl he⟩
    · rw [heq]
    · rw [heq]

/-! ## Runs -/

/-- If no two processes use one buffer, the driver and the device agree on every
request, and every completion reaches the process that waits for it. -/
theorem virtio_protocol {es : List (Event P B)} (hstart : Start s)
    (hok : (system P B).Meets Exclusive s es) (hrun : (system P B).run s es = some t) :
    (∀ p q c i c' i', t.pc p = .wait c i → t.pc q = .wait c' i' → p ≠ q →
      i.indices.Disjoint i'.indices) ∧
    (∀ x, t.disk.free x = false ↔ ∃ p c i, t.pc p = .wait c i ∧ x ∈ i.indices) ∧
    (∀ head ∈ t.device.taken, ∃ p c i, t.pc p = .wait c i ∧ t.bdisk c.b = true ∧
      decode t.disk head.toNat = some (c.request i, i.head)) ∧
    (∃ rest, t.completed.map Request.b = t.cleared ++ rest ∧
      rest.length = (t.disk.usedIdx - t.disk.seen).toNat ∧
      ∀ b ∈ rest, t.bdisk b = true) ∧
    (∀ e u, step t e = some u → Exclusive t e → Unread t u ∧
      (e = .intrRound → ∃ b, t.bdisk b = true ∧
        u.bdisk = update t.bdisk b false ∧ u.cleared = t.cleared ++ [b]) ∧
      (e ≠ .intrRound → u.cleared = t.cleared ∧ ∀ b, t.bdisk b = true → u.bdisk b = true)) ∧
    t.panic = none := by
  have hinv : Inv t := hok.invariant
    (fun s e t hs hok hstep => (step_move hstep).inv hs hok) hstart.inv hrun
  obtain ⟨avail, taken, used, hplaces, hknown, -⟩ := hinv.flight
  refine ⟨hinv.table.disjoint, fun x => ⟨hinv.table.owned x, ?_⟩, fun head hhead => ?_,
    ⟨used.map Request.b, hplaces.completed, ?_, fun b hb => ?_⟩, fun e u hstep hok => ?_,
    hinv.panic⟩
  · rintro ⟨p, c, i, hc, hx⟩
    exact (hinv.table.posted p c i hc).taken x hx
  · rw [hplaces.device] at hhead
    obtain ⟨r, hr, rfl⟩ := mem_map.mp hhead
    have hmem : r ∈ avail ++ taken ++ t.device.served ++ used := by simp [hr]
    obtain ⟨p, c, i, hc, rfl, hb⟩ := hknown.pending r hmem
    exact ⟨p, c, i, hc, hb, hinv.table.decode hknown hmem⟩
  · rw [hplaces.usedRing.toNat_sub (by decide), length_map, length_map]
  · obtain ⟨r, hr, rfl⟩ := mem_map.mp hb
    obtain ⟨p, c, i, -, rfl, hdisk⟩ := hknown.pending r (by simp [hr])
    exact hdisk
  · have hm := step_move hstep
    exact ⟨hm.unread hinv hok, hm.clears hinv⟩

section TwoCalls

instance decidableExclusive [Fintype P] (s : State P B) : ∀ e, Decidable (Exclusive s e)
  | .virtioDiskRw .. => inferInstanceAs (Decidable (∀ _, _))
  | .resume _ | .kill _ | .intrBegin | .intrRound | .intrEnd | .take | .serve _ |
    .append _ => .isTrue trivial

/-- After `virtio_disk_init`. -/
def ready (P B : Type) : State P B where
  disk :=
    { desc := fun _ => ⟨.null, 0, 0, 0⟩
      availIdx := 0
      availRing := fun _ => 0
      usedIdx := 0
      usedRing := fun _ => 0
      free := fun _ => true
      seen := 0
      info := fun _ => ⟨none, 0⟩
      ops := fun _ => ⟨0, 0, 0⟩ }
  device := ⟨0, [], []⟩
  intr := false
  pc _ := .user
  sleeping _ := false
  bdisk _ := false
  completed := []
  cleared := []
  panic := none

theorem start_ready (P B : Type) : Start (ready P B) :=
  ⟨rfl, rfl, rfl, fun _ => rfl, rfl, fun _ => rfl, rfl, rfl, rfl⟩

/-- Process `false` reads into the buffer `b` and process `true` into `b'`.  The device
takes both requests, and completes one of them. -/
def twoReads {B : Type} (b b' : B) (k : ℕ) : List (Event Bool B) :=
  [.virtioDiskRw false ⟨b, 1, false⟩, .virtioDiskRw true ⟨b', 2, false⟩, .take, .take,
    .serve k, .append 0, .intrBegin, .intrRound, .intrEnd]

theorem virtio_protocol_twoReads :
    (system Bool Bool).Meets Exclusive (ready Bool Bool) (twoReads false true 1) ∧
    ∃ t, (system Bool Bool).run (ready Bool Bool) (twoReads false true 1) = some t ∧
      t.cleared = [true] ∧ t.panic = none ∧
      ∃ p c i, t.pc p = .wait c i ∧ t.bdisk c.b = true ∧
        decode t.disk 0 = some (c.request i, i.head) := by
  have hok : (system Bool Bool).Meets Exclusive (ready Bool Bool) (twoReads false true 1) := by
    decide +kernel
  obtain ⟨t, ht, hcleared, htaken⟩ :
      ∃ t, (system Bool Bool).run (ready Bool Bool) (twoReads false true 1) = some t ∧
      t.cleared = [true] ∧ t.device.taken = [0] :=
    EventSystem.exists_of_any_run (by decide +kernel)
  obtain ⟨-, -, hdevice, -, -, hpanic⟩ := virtio_protocol (start_ready Bool Bool) hok ht
  exact ⟨hok, t, ht, hcleared, hpanic, hdevice 0 (by simp [htaken])⟩

/-- Both processes read into one buffer.  The first completion makes both return, and
the descriptors of the other request are free while the device works on it. -/
theorem chain_freed_twoReads : Start (ready Bool Unit) ∧
    ∃ t, (system Bool Unit).run (ready Bool Unit)
        (twoReads () () 0 ++ [.resume false, .resume true]) = some t ∧
      t.panic.isNone ∧ t.device.taken = [3] ∧ ∀ i, t.disk.free i = true := by
  refine ⟨start_ready Bool Unit, ?_⟩
  exact EventSystem.exists_of_any_run (by decide +kernel)

end TwoCalls

end OsCa.Virtio
