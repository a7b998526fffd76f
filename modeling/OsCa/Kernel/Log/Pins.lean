import OsCa.Kernel.Bio.Structure
import OsCa.Kernel.Log.Buffers

/-!
# Pins match the log

The pinned buffers are those of the blocks in the header, each with one pin, from
the first `log_write` of the block until `install_trans` has written it home.
While `commit()` runs, the list `P` of the blocks that are still pinned gets
shorter.  That the rest of its program takes back exactly these pins is a
property `Sound` of the program text, which does not depend on what other
processes do in between.
-/

namespace OsCa.Pins

open Log Bio Function List

variable {bs P' : List Uint} {latest' : Uint → Block} {data : Block} {u : Use}
  {ins : Instr}

/-! ## The program of `commit()` is sound -/

/-- The program takes back the pins of the blocks `P` in their order, each after
the block has been written home (`I`), and copies to the log blocks only from
pinned blocks.  `regs` are the blocks of its two buffers. -/
def Sound : List Uint → List Uint → (Reg → Phase Uint) → List Instr → Prop
  | _, P, regs, [] => P = [] ∧ ∀ r, regs r = .outside
  | I, P, regs, .bget r b :: rest => regs r = .outside ∧ Sound I P (update regs r (.waiting b)) rest
  | I, P, regs, .acquiresleep r :: rest =>
    ∃ b, regs r = .waiting b ∧ Sound I P (update regs r (.filling b)) rest
  | I, P, regs, .fill r :: rest =>
    ∃ b, regs r = .filling b ∧ Sound I P (update regs r (.holding b)) rest
  | I, P, regs, .memmove dst src :: rest =>
    (∃ b, regs dst = .holding b) ∧ (∃ b, regs src = .holding b ∧ (dst = .lbuf → b ∈ P)) ∧
      Sound I P regs rest
  | I, P, regs, .fillHead r :: rest => (∃ b, regs r = .holding b) ∧ Sound I P regs rest
  | I, P, regs, .bwrite r :: rest =>
    ∃ b, regs r = .holding b ∧ Sound (if r = .dbuf then b :: I else I) P regs rest
  | I, P, regs, .bunpin r :: rest =>
    ∃ b P', regs r = .holding b ∧ P = b :: P' ∧ b ∈ I ∧ Sound I P' regs rest
  | I, P, regs, .releasesleep r :: rest =>
    ∃ b, regs r = .holding b ∧ Sound I P (update regs r (.releasing b)) rest
  | I, P, regs, .brelse r :: rest =>
    ∃ b, regs r = .releasing b ∧ Sound I P (update regs r .outside) rest
  | I, P, regs, .clear :: rest => P = [] ∧ Sound I P regs rest

section Programs

variable {I P : List Uint} {regs : Reg → Phase Uint} {rest : List Instr}
  {r : Reg} {b : Uint} {L : LogArea} {tail : ℕ}

theorem sound_bread (hr : regs r = .outside) (h : Sound I P (update regs r (.holding b)) rest) :
    Sound I P regs (bread r b ++ rest) := by
  refine ⟨hr, b, update_self .., b, update_self .., ?_⟩
  rwa [update_idem, update_idem]

theorem sound_brelse (hr : regs r = .holding b) (h : Sound I P (update regs r .outside) rest) :
    Sound I P regs (brelse r ++ rest) := by
  refine ⟨b, hr, b, update_self .., ?_⟩
  rwa [update_idem]

/-- No buffers. -/
def noRegs : Reg → Phase Uint := fun _ => .outside

/-- The two buffers of a round are released in either order. -/
theorem update_noRegs {x y : Phase Uint} : update (update (update (update noRegs
      .lbuf x) .dbuf y) .dbuf .outside) .lbuf .outside = noRegs ∧
    update (update (update (update noRegs
      .lbuf x) .dbuf y) .lbuf .outside) .dbuf .outside = noRegs := by
  constructor
  · funext r
    cases r <;> rfl
  · funext r
    cases r <;> rfl

theorem sound_writeLog (hbs : ∀ b ∈ bs, b ∈ P) (h : Sound I P noRegs rest) :
    Sound I P noRegs (writeLog L tail bs ++ rest) := by
  induction bs generalizing tail with
  | nil => exact h
  | cons b bs ih =>
    have hrest : Sound I P noRegs (writeLog L (tail + 1) bs ++ rest) :=
      ih fun x hx => hbs x (mem_cons_of_mem b hx)
    simp only [writeLog, append_assoc]
    refine sound_bread rfl (sound_bread rfl ?_)
    refine ⟨⟨_, rfl⟩, ⟨b, rfl, fun _ => hbs b mem_cons_self⟩, _, rfl, ?_⟩
    refine sound_brelse (b := b) rfl (sound_brelse (b := logBlock L tail) rfl ?_)
    rw [update_noRegs.1]
    exact hrest

theorem sound_installTrans (h : ∀ I, Sound I [] noRegs rest) :
    Sound I bs noRegs (installTrans L tail bs ++ rest) := by
  induction bs generalizing tail I with
  | nil => exact h I
  | cons b bs ih =>
    simp only [installTrans, append_assoc]
    refine sound_bread rfl (sound_bread rfl ?_)
    refine ⟨⟨b, rfl⟩, ⟨_, rfl, by simp⟩, b, rfl, b, bs, rfl, rfl, mem_cons_self, ?_⟩
    refine sound_brelse (b := logBlock L tail) rfl (sound_brelse (b := b) rfl ?_)
    rw [update_noRegs.2]
    exact ih

theorem sound_writeHead (h : Sound I P noRegs rest) : Sound I P noRegs (writeHead L ++ rest) := by
  simp only [writeHead, append_assoc]
  refine sound_bread rfl ⟨⟨_, rfl⟩, _, rfl, sound_brelse rfl ?_⟩
  rw [update_idem]
  rwa [show update noRegs .lbuf .outside = noRegs from
    update_eq_self ..]

theorem sound_commit (L : LogArea) (lh : List Uint) : Sound [] lh noRegs (commit L lh) := by
  have hend : ∀ I, Sound I [] noRegs [] := fun _ => ⟨rfl, fun _ => rfl⟩
  unfold commit
  split
  next =>
    refine sound_writeLog (fun _ hb => hb) (sound_writeHead (sound_installTrans fun I => ⟨rfl, ?_⟩))
    have hhead := sound_writeHead (L := L) (hend I)
    rwa [append_nil] at hhead
  next hempty =>
    obtain rfl : lh = [] := by simpa using hempty
    exact hend []

end Programs

/-! ## Pinned buffers -/

/-- The pinned buffers are those of the blocks `P`, each with one pin, and they
have the latest contents. -/
structure Pinned (c : Bio.State Handle) (latest : Uint → Block)
    (P : List Uint) : Prop where
  wf : Wf c
  dev : ∀ h i, (c.phase h).buf = some i → (c.cache.buf i).dev = ROOTDEV
  valid : ∀ h i, c.phase h = .holding i → (c.cache.buf i).valid = true
  pins : ∀ i, c.pins i =
    if (c.cache.buf i).dev = ROOTDEV ∧ (c.cache.buf i).blockno ∈ P then 1 else 0
  cached : ∀ b ∈ P, ∃ i, c.cache.Holds i ROOTDEV b ∧
    (c.cache.buf i).valid = true ∧ (c.cache.buf i).data = latest b

namespace Pinned

variable {c d : Bio.State Handle} {latest : Uint → Block} {P : List Uint}
  {h : Handle} {i : Fin NBUF} {b : Uint} {e : Bio.Event Handle}

theorem card_handle : Fintype.card Handle = 1986 := by
  rw [← Fintype.card_congr Handle.equiv, Fintype.card_sum, Fintype.card_prod,
    Fintype.card_fin, Fintype.card_fin]
  rfl

/-- The counts do not overflow. -/
theorem refs_lt (hc : Pinned c latest P) (i : Fin NBUF) : c.refs i < 2 ^ 32 := by
  have husers : c.users i ≤ 1986 := by
    rw [← card_handle]
    exact Finset.card_le_univ _
  have hpins : c.pins i ≤ 1 := by
    rw [hc.pins i]
    split
    next => exact le_rfl
    next => exact Nat.zero_le _
  unfold Bio.State.refs
  omega

theorem refs_eq_zero (hc : Pinned c latest P) (hi : (c.cache.buf i).refcnt = 0) : c.refs i = 0 := by
  have hcount := congrArg BitVec.toNat (hc.wf.refcnt i)
  rw [hi, BitVec.toNat_ofNat, Nat.mod_eq_of_lt (hc.refs_lt i)] at hcount
  exact hcount.symm

theorem refcnt_of_user (hc : Pinned c latest P) (hh : (c.phase h).buf = some i) :
    (c.cache.buf i).refcnt ≠ 0 := by
  intro hzero
  have hrefs := hc.refs_eq_zero hzero
  have huser := Bio.State.users_pos hh
  unfold Bio.State.refs at hrefs
  omega

theorem refcnt_of_mem (hc : Pinned c latest P) (hi : c.cache.Holds i ROOTDEV b)
    (hb : b ∈ P) : (c.cache.buf i).refcnt ≠ 0 := by
  intro hzero
  have hrefs := hc.refs_eq_zero hzero
  have hpins := hc.pins i
  rw [hi.1, hi.2, if_pos ⟨rfl, hb⟩] at hpins
  unfold Bio.State.refs at hrefs
  omega

/-- A buffer with references keeps its block, and stays valid. -/
theorem holds (hm : Move c e d) (hi : (c.cache.buf i).refcnt ≠ 0) :
    (d.cache.buf i).dev = (c.cache.buf i).dev ∧ (d.cache.buf i).blockno = (c.cache.buf i).blockno ∧
      ((c.cache.buf i).valid = true → (d.cache.buf i).valid = true) :=
  (hm.buf_cases i).resolve_right fun hx => hi hx.1

section

variable (hc : Pinned c latest P)

include hc

/-- The buffer of a pinned block is the only one. -/
theorem eq_of_holds {j : Fin NBUF} (hi : c.cache.Holds i ROOTDEV b)
    (hj : c.cache.Holds j ROOTDEV b) : i = j := by
  refine hc.wf.unique i j ?_ ?_
  · rw [hi.1]
    decide
  · rw [hi.1, hi.2]
    exact hj

theorem holds_of_holding (hh : c.phase h = .holding i) :
    c.cache.Holds i ROOTDEV (c.cache.buf i).blockno :=
  ⟨hc.dev h i (by rw [hh]; rfl), rfl⟩

/-- A step that sets or takes back no pin.  The contents `latest'` are those
after the step. -/
theorem move (hm : Move c e d) (hdev : ∀ h dev b, e = .bget h dev b → dev = ROOTDEV)
    (hpins : d.pins = c.pins)
    (hdata : ∀ b ∈ P, ∀ i, c.cache.Holds i ROOTDEV b →
      (c.cache.buf i).valid = true → (c.cache.buf i).data = latest b →
      (d.cache.buf i).data = latest' b) : Pinned d latest' P := by
  refine ⟨hc.wf.move hm, fun h i hh => ?_, fun h i hh => ?_, fun i => ?_, fun b hb => ?_⟩
  · rcases hm.phase_cases hh with hh | ⟨dev, b, he, hholds⟩
    · rw [(holds hm (hc.refcnt_of_user hh)).1]
      exact hc.dev h i hh
    · rw [hholds.1]
      exact hdev h dev b he
  · rcases hm.holding_cases hh with hh | hvalid
    · have hbuf : (c.phase h).buf = some i := by rw [hh]; rfl
      exact (holds hm (hc.refcnt_of_user hbuf)).2.2 (hc.valid h i hh)
    · exact hvalid
  · rw [hpins, hc.pins i]
    rcases hm.buf_cases i with ⟨hdev', hblock, -⟩ | ⟨hfree, h, dev, b, he, hnew, hholds⟩
    · rw [hdev', hblock]
    · -- The buffer was not pinned, and its new block is not pinned either.
      have hrefs := hc.refs_eq_zero hfree
      have hzero := hc.pins i
      unfold Bio.State.refs at hrefs
      rw [show c.pins i = 0 by omega] at hzero
      rw [← hzero, if_neg]
      rw [hholds.1, hholds.2]
      rintro ⟨rfl, hb⟩
      obtain ⟨j, hj, -⟩ := hc.cached b hb
      exact hnew j hj
  · obtain ⟨i, hi, hvalid, hlatest⟩ := hc.cached b hb
    obtain ⟨hdev', hblock, hvalid'⟩ := holds hm (hc.refcnt_of_mem hi hb)
    exact ⟨i, ⟨hdev'.trans hi.1, hblock.trans hi.2⟩, hvalid' hvalid, hdata b hb i hi hvalid hlatest⟩

/-- Events that change neither pins nor data, on the root device. -/
def Quiet : Bio.Event Handle → Prop
  | .bget _ dev _ => dev = ROOTDEV
  | .bpin _ | .bunpin _ | .store _ _ => False
  | _ => True

theorem quiet (hm : Move c e d) (he : Quiet e) : Pinned d latest P := by
  refine hc.move hm ?_ (hm.pins_eq ?_ ?_) fun b _ i _ hvalid hlatest => ?_
  · rintro h dev b rfl
    exact he
  · rintro i rfl
    exact he
  · rintro h rfl
    exact he
  · rcases hm.data_cases hvalid with hdata | ⟨h, rfl, -⟩
    · exact hdata.trans hlatest
    · exact absurd he id

theorem store (hh : c.phase h = .holding i) (hm : Move c (.store h data) d) :
    Pinned d (update latest (c.cache.buf i).blockno data) P := by
  refine hc.move hm (by simp) (hm.pins_eq (by simp) (by simp)) fun b _ j hj _ hlatest => ?_
  cases hm with
  | @store _ i' _ hh' =>
    obtain rfl : i' = i := Phase.holding.inj (hh'.symm.trans hh)
    rw [State.modify_cache, Bcache.modify_buf]
    split
    next hij => rw [← hij, hj.2, update_self]
    next hij =>
      have hne : b ≠ (c.cache.buf i').blockno := by
        rintro rfl
        exact hij (hc.eq_of_holds hj (hc.holds_of_holding hh))
      rw [update_of_ne hne, hlatest]

/-- The pins of one buffer change, and so do the blocks that are pinned. -/
theorem repin {n : ℕ} (hd : Wf d) (hr : Repins c d i n) (hi : c.cache.Holds i ROOTDEV b)
    (hn : n = if b ∈ P' then 1 else 0) (hP : ∀ b', b' ≠ b → (b' ∈ P' ↔ b' ∈ P))
    (hcached : ∀ b' ∈ P', ∃ j, c.cache.Holds j ROOTDEV b' ∧
      (c.cache.buf j).valid = true ∧ (c.cache.buf j).data = latest' b') :
    Pinned d latest' P' := by
  refine ⟨hd, fun h' j hj => ?_, fun h' j hj => ?_, fun j => ?_, fun b' hb' => ?_⟩
  · rw [hr.dev]
    rw [hr.phase] at hj
    exact hc.dev h' j hj
  · rw [hr.valid]
    rw [hr.phase] at hj
    exact hc.valid h' j hj
  · rw [hr.dev, hr.blockno, hr.pins]
    by_cases hji : j = i
    · rw [hji, update_self, hi.1, hi.2, hn]
      simp
    · rw [update_of_ne hji, hc.pins j]
      by_cases hj : (c.cache.buf j).dev = ROOTDEV
      · have hne : (c.cache.buf j).blockno ≠ b := fun heq => hji (hc.eq_of_holds ⟨hj, heq⟩ hi)
        simp only [hP _ hne]
      · rw [if_neg fun hx => hj hx.1, if_neg fun hx => hj hx.1]
  · obtain ⟨j, hj, hvalid, hdata⟩ := hcached b' hb'
    refine ⟨j, ⟨?_, ?_⟩, ?_, ?_⟩
    · rw [hr.dev, hj.1]
    · rw [hr.blockno, hj.2]
    · rw [hr.valid, hvalid]
    · rw [hr.data, hdata]

/-- A block that is pinned already has its latest contents in the buffer. -/
theorem latest_eq (hh : c.phase h = .holding i) (hb : (c.cache.buf i).blockno ∈ P) :
    latest (c.cache.buf i).blockno = (c.cache.buf i).data := by
  obtain ⟨j, hj, -, hdata⟩ := hc.cached _ hb
  rw [← hdata, hc.eq_of_holds (hc.holds_of_holding hh) hj]

theorem bpin (hh : c.phase h = .holding i) (hb : (c.cache.buf i).blockno ∉ P)
    (hm : Move c (.bpin i) d) :
    Pinned d (update latest (c.cache.buf i).blockno
      (c.cache.buf i).data) (P ++ [(c.cache.buf i).blockno]) := by
  have hi := hc.holds_of_holding hh
  have hpins := hc.pins i
  rw [if_neg fun hx => hb hx.2] at hpins
  refine hc.repin (hc.wf.move hm) hm.repins_bpin hi ?_ (fun b' hne => ?_) fun b' hb' => ?_
  · rw [hpins, if_pos (by simp)]
  · simp [hne]
  · by_cases hbb : b' = (c.cache.buf i).blockno
    · rw [hbb, update_self]
      exact ⟨i, hi, hc.valid h i hh, rfl⟩
    · rw [update_of_ne hbb]
      exact hc.cached b' (by simpa [hbb] using hb')

end

theorem bunpin (hc : Pinned c latest (b :: P)) (hb : b ∉ P)
    (hh : c.phase h = .holding i) (hbi : (c.cache.buf i).blockno = b)
    (hm : Move c (.bunpin h) d) : Pinned d latest P := by
  have hi : c.cache.Holds i ROOTDEV b := hbi ▸ hc.holds_of_holding hh
  have hpins := hc.pins i
  rw [hi.1, hi.2, if_pos ⟨rfl, mem_cons_self⟩] at hpins
  refine hc.repin (hc.wf.move hm) (hm.repins_bunpin hh) hi ?_ (fun b' hne => ?_)
    fun b' hb' => hc.cached b' (mem_cons_of_mem b hb')
  · rw [hpins, if_neg hb]
  · simp [hne]

end Pinned

/-! ## The buffers of `commit()` -/

/-- The blocks of the two buffers of `commit()`. -/
def regs (c : Bio.State Handle) (r : Reg) : Phase Uint :=
  (c.phase (.commit r)).map fun i => (c.cache.buf i).blockno

section Regs

variable {c d : Bio.State Handle} {latest : Uint → Block} {P : List Uint}
  {e : Bio.Event Handle} {r : Reg} {b : Uint}

section

variable (hc : Pinned c latest P) (hm : Move c e d)

include hc hm

/-- The block of a caller that stays where it is. -/
theorem regs_of_phase_eq (hphase : d.phase (.commit r) = c.phase (.commit r)) :
    regs d r = regs c r := by
  unfold regs
  rw [hphase]
  have hkeep : ∀ i, (c.phase (.commit r)).buf = some i →
      (d.cache.buf i).blockno = (c.cache.buf i).blockno := fun i hi =>
    (Pinned.holds hm (hc.refcnt_of_user hi)).2.1
  cases hph : c.phase (.commit r) with
  | outside => rfl
  | waiting i | filling i | holding i | releasing i =>
    rw [hph] at hkeep
    simp only [Phase.map, hkeep i rfl]

theorem regs_eq_of_phase (hphase : d.phase = c.phase) : regs d = regs c :=
  funext fun _ => regs_of_phase_eq hc hm (by rw [hphase])

theorem regs_of_ne (hr : e.caller ≠ some (.commit r)) : regs d r = regs c r :=
  regs_of_phase_eq hc hm (hm.phase_of_ne hr)

/-- Only the buffer of the caller changes. -/
theorem regs_eq_update {ph : Phase Uint} (hr : e.caller = some (.commit r))
    (hph : regs d r = ph) : regs d = update (regs c) r ph := by
  funext r'
  by_cases hrr : r' = r
  · rw [hrr, update_self, hph]
  · rw [update_of_ne hrr]
    refine regs_of_ne hc hm ?_
    rw [hr]
    simpa using fun heq => hrr heq.symm

end

theorem exists_of_regs_holding (h : regs c r = .holding b) :
    ∃ i, c.phase (.commit r) = .holding i ∧ (c.cache.buf i).blockno = b := by
  unfold regs at h
  cases hph : c.phase (.commit r) with
  | holding i =>
    rw [hph] at h
    exact ⟨i, rfl, Phase.holding.inj h⟩
  | outside | waiting | filling | releasing =>
    rw [hph] at h
    cases h

theorem regs_bget (hm : Move c (.bget (.commit r) ROOTDEV b) d) : regs d r = .waiting b := by
  unfold regs
  cases hm with
  | hit _ hi => simp [Phase.map, hi.2]
  | recycle => simp [Phase.map]

theorem regs_acquiresleep (hm : Move c (.acquiresleep (.commit r)) d)
    (h : regs c r = .waiting b) : regs d r = .filling b := by
  unfold regs at h ⊢
  cases hm with
  | acquiresleep hr _ =>
    rw [hr] at h
    simpa [Phase.map] using h

theorem regs_fill (hm : Move c (.fill (.commit r)) d)
    (h : regs c r = .filling b) : regs d r = .holding b := by
  unfold regs at h ⊢
  cases hm with
  | fill hr =>
    rw [hr] at h
    have hb : (c.cache.buf _).blockno = b := Phase.filling.inj h
    simp only [State.phase_goto_self, Phase.map, State.goto_cache, State.modify_cache,
      Bcache.modify_self]
    split <;> rw [hb]

theorem regs_releasesleep (hm : Move c (.releasesleep (.commit r)) d)
    (h : regs c r = .holding b) : regs d r = .releasing b := by
  unfold regs at h ⊢
  cases hm with
  | releasesleep hr =>
    rw [hr] at h
    simpa [Phase.map] using h

theorem regs_brelse (hm : Move c (.brelse (.commit r)) d) : regs d r = .outside := by
  unfold regs
  cases hm
  simp [Phase.map]

end Regs

/-! ## Steps -/

section Steps

variable {s t : State} {P : List Uint} {h : Handle}

theorem State.cacheStep_move {e : Bio.Event Handle} {latest : Uint → Block}
    (hstep : s.cacheStep e = some t) (hs : Pinned s.bio latest P) :
    ∃ d, Move s.bio e d ∧ t = { s with bio := d } := by
  obtain ⟨d, hd, rfl⟩ := Option.map_eq_some_iff.mp hstep
  obtain ⟨l, hl, -⟩ := hs.wf.order
  exact ⟨d, step_move hl hd, rfl⟩

theorem State.store_move (hs : Pinned s.bio s.latest P) (hstep : s.store h data = some t) :
    ∃ d i, s.bio.phase h = .holding i ∧ Move s.bio (.store h data) d ∧ t = { s with
        bio := d
        latest := update s.latest (s.bio.cache.buf i).blockno data } := by
  unfold State.store at hstep
  split at hstep
  next i hi =>
    obtain ⟨d, hd, rfl⟩ := State.cacheStep_move hstep hs
    exact ⟨d, i, hi, hd, rfl⟩
  next => cases hstep

/-- What a use of a buffer changes. -/
theorem State.use_move (hs : Pinned s.bio s.latest P) (hstep : s.use h u = some t) :
    ∃ d latest' e, Move s.bio e d ∧ e.caller = some h ∧
      t = { s with bio := d, latest := latest' } ∧ Pinned d latest' P := by
  cases u with
  | store data =>
    obtain ⟨d, i, hi, hm, rfl⟩ := State.store_move hs hstep
    exact ⟨d, _, _, hm, rfl, rfl, hs.store hi hm⟩
  | bget b =>
    obtain ⟨d, hm, rfl⟩ := State.cacheStep_move hstep hs
    exact ⟨d, s.latest, _, hm, rfl, rfl, hs.quiet hm rfl⟩
  | acquiresleep | fill | releasesleep | brelse =>
    obtain ⟨d, hm, rfl⟩ := State.cacheStep_move hstep hs
    exact ⟨d, s.latest, _, hm, rfl, rfl, hs.quiet hm trivial⟩

/-- The state between steps; `P` are the blocks that are still pinned. -/
structure Inv (s : State) (P : List Uint) : Prop where
  pinned : Pinned s.bio s.latest P
  nodup : s.lh.Nodup
  written : ∀ b, b ∈ s.lh ↔ b ∈ s.written
  sub : ∀ b ∈ P, b ∈ s.lh
  distinct : P.Nodup
  home : ∀ b ∈ s.lh, b ∈ P ∨ b ∈ s.installed
  idle : s.committing = false → P = s.lh ∧ s.rest = [] ∧ regs s.bio = noRegs
  busy : s.committing = true → s.outstanding = 0 ∧ (s.lh = [] ∨ Instr.clear ∈ s.rest) ∧
    Sound s.installed P (regs s.bio) s.rest

/-- The buffer cache takes a step, or is left alone. -/
def Moves (s t : State) : Prop := t.bio = s.bio ∨ ∃ e, Move s.bio e t.bio

theorem inv_start (hs : Start s) : Inv s [] := by
  have hnone : ∀ h i, (s.bio.phase h).buf ≠ some i := fun h i => by
    rw [hs.outside h]
    simp [Phase.buf]
  refine ⟨⟨wf_of_reachable hs.cache, fun h i hi => absurd hi (hnone h i),
    fun h i hi => ?_, fun i => ?_, by simp⟩, ?_, ?_, by simp, nodup_nil, ?_,
    fun _ => ⟨hs.lh.symm, hs.rest, ?_⟩, fun hc => ?_⟩
  · rw [hs.outside h] at hi
    cases hi
  · rw [hs.pins i]
    simp
  · rw [hs.lh]
    exact nodup_nil
  · rw [hs.lh, hs.written]
    exact fun _ => Iff.rfl
  · rw [hs.lh]
    simp
  · funext r
    unfold regs
    rw [hs.outside]
    rfl
  · rw [hs.committing] at hc
    cases hc

/-- A process uses a buffer. -/
theorem Inv.use {p : Fin Process.NPROC} {k : Fin (NBUF + 1)} (hs : Inv s P)
    (hstep : s.use (.process p k) u = some t) : Inv t P ∧ Moves s t := by
  obtain ⟨d, latest', e, hm, hcaller, rfl, hpinned⟩ := State.use_move hs.pinned hstep
  have hregs : regs d = regs s.bio := by
    funext r
    refine regs_of_ne hs.pinned hm ?_
    rw [hcaller]
    simp
  refine ⟨⟨hpinned, hs.nodup, hs.written, hs.sub, hs.distinct, hs.home,
    fun hc => ?_, fun hc => ?_⟩, Or.inr ⟨e, hm⟩⟩
  · obtain ⟨hP, hrest, hno⟩ := hs.idle hc
    exact ⟨hP, hrest, hregs.trans hno⟩
  · obtain ⟨hout, hclear, hsound⟩ := hs.busy hc
    refine ⟨hout, hclear, ?_⟩
    change Sound s.installed P (regs d) s.rest
    rwa [hregs]

theorem Inv.logWrite {L : LogArea} {i : Fin NBUF} (hs : Inv s P)
    (hi : s.bio.phase h = .holding i) (hstep : s.logWrite L i = some t) :
    ∃ P', Inv t P' ∧ Moves s t := by
  unfold State.logWrite at hstep
  obtain ⟨-, hstep⟩ := Option.ite_none_left_eq_some.mp hstep
  obtain ⟨hout, hstep⟩ := Option.ite_none_left_eq_some.mp hstep
  have hidle : s.committing = false := by
    by_contra hc
    have := (hs.busy (by simpa using hc)).1
    omega
  obtain ⟨rfl, hrest, hno⟩ := hs.idle hidle
  dsimp only at hstep
  split at hstep
  next hmem =>
    cases hstep
    have hlatest := hs.pinned.latest_eq hi hmem
    refine ⟨s.lh, ⟨?_, hs.nodup, fun b => ?_, fun _ hb => hb, hs.nodup,
      fun _ hb => Or.inl hb, fun _ => ⟨rfl, hrest, hno⟩, fun hc => ?_⟩, Or.inl rfl⟩
    · change Pinned s.bio (update s.latest _ _) s.lh
      rw [← hlatest, update_eq_self]
      exact hs.pinned
    · change b ∈ s.lh ↔ b ∈ s.written ++ [_]
      rw [mem_append, mem_singleton, ← hs.written b]
      constructor
      · exact Or.inl
      · rintro (hb | rfl)
        · exact hb
        · exact hmem
    · exact absurd (hidle.symm.trans hc) (by simp)
  next hmem =>
    obtain ⟨d, hm, rfl⟩ := State.cacheStep_move hstep hs.pinned
    have hnodup : (s.lh ++ [(s.bio.cache.buf i).blockno]).Nodup := by
      rw [nodup_append]
      refine ⟨hs.nodup, nodup_singleton _, fun a ha b hb hab => hmem ?_⟩
      rwa [← mem_singleton.mp hb, ← hab]
    have hregs : regs d = noRegs := by
      rw [← hno]
      exact funext fun r => regs_of_ne hs.pinned hm (by simp [Event.caller])
    refine ⟨_, ⟨hs.pinned.bpin hi hmem hm, hnodup, fun b => ?_, fun _ hb => hb, hnodup,
      fun _ hb => Or.inl hb, fun _ => ⟨rfl, hrest, hregs⟩, fun hc => ?_⟩, Or.inr ⟨_, hm⟩⟩
    · change b ∈ s.lh ++ [_] ↔ b ∈ s.written ++ [_]
      rw [mem_append, mem_append, ← hs.written b]
    · exact absurd (hidle.symm.trans hc) (by simp)

section

variable {rest : List Instr} (hs : Inv s P) (hrest : s.rest = ins :: rest)

include hs hrest

theorem Inv.committing : s.committing = true := by
  by_contra hc
  have hnil := (hs.idle (by simpa using hc)).2.1
  rw [hrest] at hnil
  cases hnil

/-- `commit()` goes on; of its pins, those of the blocks `P'` are left. -/
theorem Inv.advance {d : Bio.State Handle} {I : List Uint}
    (hclear : ins ≠ .clear) (hpinned : Pinned d latest' P') (hsub : P'.Sublist P)
    (hhome : ∀ b, b ∈ P ∨ b ∈ s.installed → b ∈ P' ∨ b ∈ I)
    (hsound : Sound I P' (regs d) rest) :
    Inv { s with bio := d, latest := latest', installed := I, rest := rest }
      P' := by
  refine ⟨hpinned, hs.nodup, hs.written, fun b hb => hs.sub b (hsub.subset hb),
    hs.distinct.sublist hsub, fun b hb => hhome b (hs.home b hb),
    fun hc => absurd ((hs.committing hrest).symm.trans hc) (by simp), fun hc => ?_⟩
  obtain ⟨hout, hleft, -⟩ := hs.busy hc
  refine ⟨hout, hleft.imp id fun hmem => ?_, hsound⟩
  rw [hrest] at hmem
  exact (mem_cons.mp hmem).resolve_left hclear.symm

theorem Inv.sound : Sound s.installed P (regs s.bio) (ins :: rest) := by
  have hsound := (hs.busy (hs.committing hrest)).2.2
  rwa [hrest] at hsound

theorem Inv.exec (hexec : s.exec ins = some t) :
    ∃ P', Inv { t with rest := rest } P' ∧ Moves s t := by
  have hsound := hs.sound hrest
  have hquiet : ∀ {e : Bio.Event Handle} {ph : Phase Uint} {r : Reg},
      s.cacheStep e = some t → e.caller = some (.commit r) →
      (∀ d, Move s.bio e d → regs d r = ph) → Pinned.Quiet e → ins ≠ .clear →
      Sound s.installed P (update (regs s.bio) r ph) rest →
      ∃ P', Inv { t with rest := rest } P' ∧ Moves s t := by
    intro e ph r hstep hcaller hph he hclear hnext
    obtain ⟨d, hm, rfl⟩ := State.cacheStep_move hstep hs.pinned
    refine ⟨P, hs.advance hrest hclear (hs.pinned.quiet hm he) (.refl P) (fun _ hb => hb) ?_,
      Or.inr ⟨e, hm⟩⟩
    rwa [regs_eq_update hs.pinned hm hcaller (hph d hm)]
  have hstored : ∀ {h : Handle} {data : Block}, ins ≠ .clear →
      Sound s.installed P (regs s.bio) rest → s.store h data = some t →
      ∃ P', Inv { t with rest := rest } P' ∧ Moves s t := by
    intro h data hclear hnext hstore
    obtain ⟨d, i, hi, hm, rfl⟩ := State.store_move hs.pinned hstore
    refine ⟨P, hs.advance hrest hclear (hs.pinned.store hi hm) (.refl P) (fun _ hb => hb) ?_,
      Or.inr ⟨_, hm⟩⟩
    rwa [regs_eq_of_phase hs.pinned hm (by cases hm; rfl)]
  cases ins with
  | bget r b => exact hquiet hexec rfl (fun _ hm => regs_bget hm) rfl (by simp) hsound.2
  | acquiresleep r =>
    obtain ⟨b, hr, hnext⟩ := hsound
    exact hquiet hexec rfl (fun _ hm => regs_acquiresleep hm hr) trivial (by simp) hnext
  | fill r =>
    obtain ⟨b, hr, hnext⟩ := hsound
    exact hquiet hexec rfl (fun _ hm => regs_fill hm hr) trivial (by simp) hnext
  | releasesleep r =>
    obtain ⟨b, hr, hnext⟩ := hsound
    exact hquiet hexec rfl (fun _ hm => regs_releasesleep hm hr) trivial (by simp) hnext
  | brelse r =>
    obtain ⟨b, hr, hnext⟩ := hsound
    exact hquiet hexec rfl (fun _ hm => regs_brelse hm) trivial (by simp) hnext
  | memmove dst src =>
    unfold State.exec at hexec
    dsimp only at hexec
    split at hexec
    next => exact hstored (by simp) hsound.2.2 hexec
    next => cases hexec
  | fillHead r =>
    unfold State.exec at hexec
    dsimp only at hexec
    split at hexec
    next => exact hstored (by simp) hsound.2 hexec
    next => cases hexec
  | bwrite r =>
    obtain ⟨b, hr, hnext⟩ := hsound
    obtain ⟨i, hi, rfl⟩ := exists_of_regs_holding hr
    unfold State.exec at hexec
    dsimp only at hexec
    rw [hi] at hexec
    obtain ⟨d, hm, rfl⟩ := State.cacheStep_move hexec hs.pinned
    refine ⟨P, hs.advance hrest (by simp) (hs.pinned.quiet hm trivial) (.refl P)
      (fun b hb => ?_) ?_, Or.inr ⟨_, hm⟩⟩
    · refine hb.imp id fun hmem => ?_
      change b ∈ if r = Reg.dbuf then _ else _
      split
      next => exact mem_cons_of_mem _ hmem
      next => exact hmem
    · rwa [regs_eq_of_phase hs.pinned hm (by cases hm; rfl)]
  | bunpin r =>
    obtain ⟨b, P', hr, rfl, hb, hnext⟩ := hsound
    obtain ⟨i, hi, hbi⟩ := exists_of_regs_holding hr
    obtain ⟨d, hm, rfl⟩ := State.cacheStep_move hexec hs.pinned
    have hnot := (nodup_cons.mp hs.distinct).1
    refine ⟨P', hs.advance hrest (by simp) (hs.pinned.bunpin hnot hi hbi hm)
      (sublist_cons_self b P') (fun x hx => ?_) ?_, Or.inr ⟨_, hm⟩⟩
    · rcases hx with hx | hx
      · exact (mem_cons.mp hx).symm.imp_right fun (heq : x = b) => heq ▸ hb
      · exact Or.inr hx
    · rwa [regs_eq_of_phase hs.pinned hm (hm.repins_bunpin hi).phase]
  | clear =>
    obtain ⟨rfl, hnext⟩ := hsound
    cases hexec
    exact ⟨[], ⟨hs.pinned, nodup_nil, fun _ => Iff.rfl, by simp, nodup_nil, by simp,
      fun hc => absurd ((hs.committing hrest).symm.trans hc) (by simp),
      fun hc => ⟨(hs.busy hc).1, Or.inl rfl, hnext⟩⟩, Or.inl rfl⟩

end

theorem Inv.step {L : LogArea} {e : Event} (hs : Inv s P)
    (hstep : step L s e = some t) : ∃ P', Inv t P' ∧ Moves s t := by
  cases e
  all_goals
    unfold Pins.step at hstep
    dsimp only at hstep
  case beginOp =>
    obtain ⟨hc, hstep⟩ := Option.ite_none_left_eq_some.mp hstep
    obtain ⟨-, ⟨⟩⟩ := Option.ite_none_left_eq_some.mp hstep
    exact ⟨P, ⟨hs.pinned, hs.nodup, hs.written, hs.sub, hs.distinct, hs.home,
      hs.idle, fun hc' => absurd hc' hc⟩, Or.inl rfl⟩
  case use p k u => exact ⟨P, hs.use hstep⟩
  case logWrite p k =>
    split at hstep
    next i hi => exact hs.logWrite hi hstep
    next => cases hstep
  case endOp =>
    obtain ⟨hc, hstep⟩ := Option.ite_none_left_eq_some.mp hstep
    have hidle : s.committing = false := by simpa using fun hx => hc (Or.inr hx)
    obtain ⟨rfl, hrest, hno⟩ := hs.idle hidle
    split at hstep
    next =>
      cases hstep
      refine ⟨s.lh, ⟨hs.pinned, hs.nodup, hs.written, fun _ hb => hb, hs.nodup,
        fun _ hb => Or.inl hb, fun hx => absurd hx (by simp), fun _ => ⟨rfl, ?_, ?_⟩⟩,
        Or.inl rfl⟩
      · change s.lh = [] ∨ Instr.clear ∈ commit L s.lh
        unfold commit
        split
        next => exact Or.inr (by simp)
        next hempty => exact Or.inl (by simpa using hempty)
      · change Sound [] s.lh (regs s.bio) (commit L s.lh)
        rw [hno]
        exact sound_commit L s.lh
    next =>
      cases hstep
      exact ⟨s.lh, ⟨hs.pinned, hs.nodup, hs.written, hs.sub, hs.distinct, hs.home, hs.idle,
        fun hx => absurd (hidle.symm.trans hx) (by simp)⟩, Or.inl rfl⟩
  case commit =>
    split at hstep
    next => cases hstep
    next ins rest hrest =>
      obtain ⟨u, hu, rfl⟩ := Option.map_eq_some_iff.mp hstep
      exact hs.exec hrest hu
  case finish =>
    obtain ⟨hc, ⟨⟩⟩ := Option.ite_none_right_eq_some.mp hstep
    obtain ⟨-, hleft, hsound⟩ := hs.busy hc.1
    rw [hc.2] at hleft hsound
    obtain ⟨rfl, hno⟩ := hsound
    have hlh : s.lh = [] := hleft.resolve_right (by simp)
    exact ⟨[], ⟨hs.pinned, hs.nodup, hs.written, hs.sub, hs.distinct, hs.home,
      fun _ => ⟨hlh.symm, hc.2, funext hno⟩, fun hx => absurd hx (by simp)⟩, Or.inl rfl⟩

theorem inv_of_reachable {L : LogArea} (h : (system L).Reachable s) : ∃ P, Inv s P := by
  refine h.invariant (P := fun s => ∃ P, Inv s P) (fun s hs => ⟨[], inv_start hs⟩) ?_
  rintro s e t ⟨P, hs⟩ hstep
  obtain ⟨P', ht, -⟩ := hs.step hstep
  exact ⟨P', ht⟩

/-! ## Pins and the log -/

/-- The buffer of a pinned block is not recycled. -/
theorem Inv.holds_step {L : LogArea} {e : Event} {i : Fin NBUF} {b : Uint}
    (hs : Inv s P) (hi : s.bio.cache.Holds i ROOTDEV b) (hb : b ∈ P)
    (hstep : Pins.step L s e = some t) : t.bio.cache.Holds i ROOTDEV b := by
  obtain ⟨-, -, heq | ⟨e', hm⟩⟩ := hs.step hstep
  · rw [heq]
    exact hi
  · obtain ⟨hdev, hblock, -⟩ := Pinned.holds hm (hs.pinned.refcnt_of_mem hi hb)
    exact ⟨hdev.trans hi.1, hblock.trans hi.2⟩

/-- `write_log` copies the latest contents of a logged block. -/
theorem Inv.writeLog_copies {rest : List Instr} (hs : Inv s P)
    (hrest : s.rest = .memmove .lbuf .dbuf :: rest)
    (hexec : s.exec (.memmove .lbuf .dbuf) = some t) :
    ∃ i j, s.bio.phase (.commit .lbuf) = .holding i ∧ s.bio.phase (.commit .dbuf) = .holding j ∧
      (s.bio.cache.buf j).blockno ∈ s.lh ∧
      (t.bio.cache.buf i).data = s.latest (s.bio.cache.buf j).blockno := by
  obtain ⟨-, ⟨b, hr, hb⟩, -⟩ := hs.sound hrest
  obtain ⟨j, hj, rfl⟩ := exists_of_regs_holding hr
  have hmem := hb rfl
  unfold State.exec at hexec
  dsimp only at hexec
  rw [hj] at hexec
  obtain ⟨d, i, hi, hm, rfl⟩ := State.store_move hs.pinned hexec
  refine ⟨i, j, hi, hj, hs.sub _ hmem, ?_⟩
  rw [hs.pinned.latest_eq hj hmem]
  cases hm with
  | @store _ i' _ hi' =>
    obtain rfl : i' = i := Phase.holding.inj (hi'.symm.trans hi)
    rw [State.modify_cache, Bcache.modify_self]

/-- `install_trans` takes back a pin that is there. -/
theorem Inv.bunpin_isSome {r : Reg} {rest : List Instr} (hs : Inv s P)
    (L : LogArea) (hrest : s.rest = .bunpin r :: rest) :
    (Pins.step L s .commit).isSome = true := by
  obtain ⟨b, P', hr, rfl, -, -⟩ := hs.sound hrest
  obtain ⟨i, hi, rfl⟩ := exists_of_regs_holding hr
  have hpins := hs.pinned.pins i
  rw [hs.pinned.dev (.commit r) i (by rw [hi]; rfl), if_pos ⟨rfl, mem_cons_self⟩] at hpins
  simp [Pins.step, hrest, State.exec, State.cacheStep, Bio.step, hi, hpins]

/-- The header lists the blocks logged since the last commit, without
repetition.  Each of them has one pin, so that its buffer is not recycled, until
`install_trans` has written it home, and there are no other pins.  `write_log`
copies the latest contents, and when the header is empty the count of a buffer is
the number of its callers. -/
theorem pins_match_log {L : LogArea} (h : (system L).Reachable s) :
    (s.lh.Nodup ∧ ∀ b, b ∈ s.lh ↔ b ∈ s.written) ∧
    (∀ b ∈ s.lh, (s.committing = true ∧ b ∈ s.installed) ∨
      ∃ i, s.bio.cache.Holds i ROOTDEV b ∧ s.bio.pins i = 1 ∧
        ∀ e t, (system L).step s e = some t → t.bio.cache.Holds i ROOTDEV b) ∧
    (∀ i, 0 < s.bio.pins i → s.bio.pins i = 1 ∧ (s.bio.cache.buf i).blockno ∈ s.lh) ∧
    (∀ rest t, s.rest = .memmove .lbuf .dbuf :: rest → (system L).step s .commit = some t →
      ∃ i j, s.bio.phase (.commit .lbuf) = .holding i ∧ s.bio.phase (.commit .dbuf) = .holding j ∧
        (s.bio.cache.buf j).blockno ∈ s.lh ∧
        (t.bio.cache.buf i).data = s.latest (s.bio.cache.buf j).blockno) ∧
    (∀ r rest, s.rest = .bunpin r :: rest → ((system L).step s .commit).isSome = true) ∧
    (s.lh = [] → ∀ i, (s.bio.cache.buf i).refcnt = BitVec.ofNat 32 (s.bio.users i)) := by
  obtain ⟨P, hs⟩ := inv_of_reachable h
  refine ⟨⟨hs.nodup, hs.written⟩, fun b hb => ?_, fun i hi => ?_,
    fun rest t hrest hstep => ?_, fun r rest hrest => hs.bunpin_isSome L hrest,
    fun hempty i => ?_⟩
  · have hpin : b ∈ P → ∃ i, s.bio.cache.Holds i ROOTDEV b ∧ s.bio.pins i = 1 ∧
        ∀ e t, (system L).step s e = some t → t.bio.cache.Holds i ROOTDEV b := by
      intro hP
      obtain ⟨i, hi, -⟩ := hs.pinned.cached b hP
      refine ⟨i, hi, ?_, fun e t hstep => hs.holds_step hi hP hstep⟩
      rw [hs.pinned.pins i, if_pos ⟨hi.1, by rwa [hi.2]⟩]
    cases hc : s.committing with
    | false => exact Or.inr (hpin ((hs.idle hc).1 ▸ hb))
    | true => exact (hs.home b hb).symm.imp (fun hx => ⟨rfl, hx⟩) hpin
  · have hpins := hs.pinned.pins i
    split at hpins
    next hx => exact ⟨hpins, hs.sub _ hx.2⟩
    next => omega
  · obtain ⟨u, hu, rfl⟩ : ∃ u, s.exec (.memmove .lbuf .dbuf) = some u ∧
        { u with rest := rest } = t := by
      change step L s .commit = some t at hstep
      unfold step at hstep
      dsimp only at hstep
      rw [hrest] at hstep
      exact Option.map_eq_some_iff.mp hstep
    have hcopies := hs.writeLog_copies hrest hu
    exact hcopies
  · have hP : P = [] := eq_nil_iff_forall_not_mem.mpr fun b hb => by
      have := hs.sub b hb
      rw [hempty] at this
      cases this
    have hpins : s.bio.pins i = 0 := by
      rw [hs.pinned.pins i, hP]
      simp
    rw [hs.pinned.wf.refcnt i, Bio.State.refs, hpins, Nat.add_zero]

end Steps

/-- A process logs block 40. -/
def logOnce : List Event := let use := Event.use Process.initproc ⟨0, Nat.succ_pos NBUF⟩
  [.beginOp, use (.bget 40), use .acquiresleep, use .fill,
    .logWrite Process.initproc ⟨0, Nat.succ_pos NBUF⟩]

/-- The kernel after recovery. -/
def bootState (disk : Disk) : State where
  bio := Bio.start Handle disk
  lh := []
  outstanding := 0
  committing := false
  rest := []
  written := []
  latest _ _ := 0
  installed := []

theorem start_bootState (disk : Disk) : Start (bootState disk) :=
  ⟨⟨_, [], ⟨disk, rfl⟩, rfl⟩, fun _ => rfl, fun _ => rfl, rfl, rfl, rfl, rfl, rfl⟩

theorem pins_match_log_logOnce :
    ∃ s, (system mkfsLog).run (bootState fun _ _ => 0) logOnce = some s ∧
      s.committing = false ∧ s.lh = [40] ∧
      ∃ i, s.bio.cache.Holds i ROOTDEV 40 ∧ s.bio.pins i = 1 := by
  have hrun : ∃ s, (system mkfsLog).run (bootState fun _ _ => 0) logOnce =
      some s ∧ s.committing = false ∧ s.lh = [40] :=
    EventSystem.exists_of_any_run (by decide +kernel)
  obtain ⟨s, hs, hidle, hlh⟩ := hrun
  have hreach : (system mkfsLog).Reachable s := ⟨_, logOnce, start_bootState _, hs⟩
  rcases (pins_match_log hreach).2.1 40 (by rw [hlh]; simp) with
    ⟨hc, -⟩ | ⟨i, hi, hpins, -⟩
  · exact absurd (hidle.symm.trans hc) (by simp)
  · exact ⟨s, hs, hidle, hlh, i, hi, hpins⟩

end OsCa.Pins
