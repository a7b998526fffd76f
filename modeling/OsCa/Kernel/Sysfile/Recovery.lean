import OsCa.Kernel.Log.Crash
import OsCa.Kernel.Sysfile.Storage

/-!
# Inodes after a crash

The inode of a file that is removed while it is open stays allocated, without
links, until the last `close`.  A crash before that loses all references, and
recovery replays the log without looking at inodes, so the inode stays allocated
for good.

If no call takes the last link of an inode that is in use, every commit leaves
a disk on which each allocated inode has a name, and so does recovery after a
crash at any point.
-/

namespace OsCa.Sysfile

open Bytes Fs OsCa.Action List

variable {sb : Superblock} {s t : State} {v w : View} {L : List ℕ} {c : Call}
  {cwd i : ℕ}

variable {held : ℕ → Prop} {b : ℕ}

/-! ## Inodes keep their links -/

/-- The allocated inodes among `held` have links. -/
def Named (held : ℕ → Prop) (v : View) : Prop :=
  ∀ i, held i → (v.node i).type ≠ 0 → (v.node i).nlink ≠ 0

/-- The policy of calls that are careful with links, and leave a link to the
inodes among `held`. -/
def keepPolicy (held : ℕ → Prop) : Policy where
  entry v dp := (v.node dp).nlink ≠ 0
  link v i := (v.node i).nlink ≠ 32767
  unlink v i := (v.node i).nlink = 1 → ¬ held i

theorem careful_keepPolicy (held : ℕ → Prop) : Careful (keepPolicy held) :=
  ⟨fun _ _ h => h, fun _ _ h => h⟩

/-- The changed inodes that are still allocated have links. -/
theorem Named.of_nodes (h : Named held v) (hnode : ∀ i, held i → (w.node i).type ≠ 0 →
      w.node i = v.node i ∨ (w.node i).nlink ≠ 0) : Named held w := by
  intro i hi htype
  rcases hnode i hi htype with heq | hne
  · rw [heq] at htype ⊢
    exact h i hi htype
  · exact hne

theorem Named.move {m m' : List ℕ × View} (hsb : sb.ninodes ≤ 2 ^ 16)
    (hb : Base sb m.1 m.2) (hexact : Exact sb m.2) (h : Named held m.2)
    (hm : Move sb (keepPolicy held) m m') : Named held m'.2 := by
  have hb' := hb.move hsb hm
  cases hm with
  | perm | lock | file | opened | close | fds | chdir | exit => exact h
  | look hl =>
    refine h.of_nodes fun i _ htype => (hl.node i).imp_right fun hx => ?_
    rw [hx.2.2.2] at htype
    exact absurd rfl htype
  | @release L v i _ =>
    refine h.of_nodes fun j _ htype => ?_
    dsimp only at htype ⊢
    rw [View.node_release] at htype ⊢
    split at htype
    next => exact absurd rfl htype
    next hd =>
      rw [if_neg hd]
      exact Or.inl rfl
  | @create L v dp ip name type major minor _ hdir _ hpos hlt hfree htype hentry hlink =>
    have hlinked := (hexact.created hb hb' hdir (ofNat_inum hsb hpos hlt)
      (hb.inum_of_dir hsb hdir) hfree htype hentry hlink).2
    refine h.of_nodes fun j _ _ => ?_
    by_cases hdp : j = dp
    · rw [hdp]
      exact Or.inr hlinked.nlink_ne
    · dsimp only
      rw [View.node_created, if_neg hdp]
      split
      next => exact Or.inr (by simp)
      next => exact Or.inl rfl
  | @link L v dp ip name _ _ hdir _ _ _ hused hfile hentry hlink =>
    have hpos : 0 < ((v.node ip).nlink + 1).toInt := by
      have := hexact.nlink_nonneg hused
      rw [toInt_add_one hlink]
      dsimp only at this
      omega
    refine h.of_nodes fun j _ _ => ?_
    dsimp only
    rw [View.node_linked]
    split
    next => exact Or.inr hentry
    next =>
      split
      next =>
        refine Or.inr fun hzero => ?_
        rw [show (v.node ip).nlink + 1 = 0 from hzero] at hpos
        exact absurd hpos (by decide)
      next => exact Or.inl rfl
  | @unlink L v dp ip k _ hip hdir hk hused hinum hvalid _ hnlink hempty hperm =>
    have hlinked := (hexact.unlinked hb hb' hip hdir hk hused hinum hvalid hnlink hempty).2.1
    refine h.of_nodes fun j hj _ => ?_
    by_cases hdp : j = dp
    · rw [hdp]
      exact Or.inr hlinked.nlink_ne
    · dsimp only
      rw [View.node_unlinked]
      split
      next heq =>
        -- The last link may go only if the inode is not to be kept.
        refine Or.inr fun hzero => hperm ?_ (heq ▸ hj)
        have hzero : (v.node ip).nlink - 1 = 0 := hzero
        bv_omega
      next => exact Or.inl rfl
  | @data L v ip data hused _ =>
    intro j hj htype
    dsimp only at htype ⊢
    rw [View.node_setNode] at htype ⊢
    split at htype
    next heq =>
      rw [if_pos heq]
      exact h ip (heq ▸ hj) hused
    next hne =>
      rw [if_neg hne]
      exact h j hj htype

theorem Named.moves {m m' : List ℕ × View} (hsb : sb.ninodes ≤ 2 ^ 16)
    (hb : Base sb m.1 m.2) (hexact : Exact sb m.2) (h : Named held m.2)
    (hm : Moves sb (keepPolicy held) m m') : Named held m'.2 := by
  induction hm with
  | refl => exact h
  | tail hmoves hmove ih =>
    exact ih.move hsb (hb.moves hsb hmoves)
      (hexact.moves hsb (careful_keepPolicy held) hb hmoves) hmove

/-! ## Calls -/

/-- Between calls, the tree is in order and every allocated inode has links. -/
structure Tidy (sb : Superblock) (s : State) : Prop where
  mounted : Mounted sb s
  exact : Exact sb (s.view sb)
  named : ∀ i, ((s.view sb).node i).type ≠ 0 → ((s.view sb).node i).nlink ≠ 0

/-- No link count overflows, and the call does not take the last link of an
inode that a process has open or as its current directory. -/
def Call.KeepsNames (c : Call) (v : View) (cwd : ℕ) : Prop :=
  (∀ i, c.Counts v cwd i → (v.node i).nlink ≠ 32767) ∧
    ∀ i, c.Removes v cwd i → (v.node i).nlink = 1 → v.holders i = 0

namespace Tidy

/-- An inode has a name, and a path. -/
theorem found (h : Tidy sb s) (hi : ((s.view sb).node i).type ≠ 0) :
    (∃ d k, (d, k, i) ∈ (s.view sb).edges sb) ∧
      ∃ ns, (s.view sb).walk false ROOTINO ns = some (i, none) := by
  have hpos := h.exact.nlink_pos hi (h.named i hi)
  refine ⟨?_, h.exact.exists_path h.mounted.base hi hpos⟩
  rwa [h.exact.exact i hi, Int.natCast_pos, View.links, Hierarchy.indegree_pos_iff] at hpos

theorem setLogged (h : Tidy sb s) (logged : List ℕ) :
    Tidy sb { s with fs := { s.fs with logged := logged } } :=
  ⟨⟨h.mounted.ninodes_le, h.mounted.root_lt,
    ⟨h.mounted.consistent.own, h.mounted.consistent.coherent,
      h.mounted.consistent.type⟩, h.mounted.noHoles, h.mounted.base⟩, h.exact,
    h.named⟩

/-- What a call does that keeps names.  In `unlink`, the inodes in use keep a
link, in other calls all of them do. -/
theorem permitted (h : Tidy sb s) (hkeeps : c.KeepsNames (s.view sb) cwd) :
    c.Permitted (keepPolicy fun i => c.Unlinks → 0 < (s.view sb).holders i) (s.view sb) cwd where
  entry w dp _ hnode hdp := by
    change (w.node dp).nlink ≠ 0
    have hnew : ∃ path, NewEntry (s.view sb) cwd path dp := by
      cases c with
      | «open» path omode => exact ⟨path, hdp.2⟩
      | mkdir path => exact ⟨path, hdp⟩
      | mknod path major minor => exact ⟨path, hdp⟩
      | link old new => exact ⟨new, hdp⟩
      | _ => exact hdp.elim
    obtain ⟨-, q, n, -, hwalk, -⟩ := hnew
    rw [hnode]
    refine h.named dp ?_
    rw [View.walk_type hwalk]
    exact T_DIR_ne_zero
  link w i _ hnode hi := by
    change (w.node i).nlink ≠ 32767
    rw [hnode]
    exact hkeeps.1 i hi
  unlink w i _ hnode hi hone hheld := by
    rw [hnode] at hone
    have hzero := hkeeps.2 i hi hone
    have hunlinks : c.Unlinks := by
      cases c with
      | unlink path => trivial
      | _ => exact hi.elim
    have hpos := hheld hunlinks
    omega

theorem step {p : Fin NPROC} (h : Tidy sb s)
    (hkeeps : ∀ cwd, (s.proc p).cwd = some cwd → c.KeepsNames (s.view sb) cwd)
    (hstep : step sb s (p, c) = some t) : Tidy sb t := by
  obtain ⟨cwd, hcwd⟩ := Mounted.cwd_of_step hstep
  obtain ⟨hm, ht⟩ := h.mounted.step_moves hcwd (h.permitted (hkeeps cwd hcwd)) hstep
  have hexact := h.exact.moves h.mounted.ninodes_le (careful_keepPolicy _) h.mounted.base hm
  have hnamed := Named.moves h.mounted.ninodes_le h.mounted.base h.exact (fun i _ => h.named i) hm
  refine ⟨ht, hexact, fun i htype hzero => hnamed i ?_ htype hzero⟩
  intro hunlinks
  -- An inode without links is in use, and was so before `unlink`.
  have hquiet : Quiet s t := by
    cases c with
    | unlink path =>
      unfold Sysfile.step at hstep
      rw [hcwd] at hstep
      dsimp only at hstep
      split at hstep
      next r u hok =>
        cases hstep
        exact (sysUnlink_keeps ..).of_ok s r t hok
      next => cases hstep
    | _ => exact hunlinks.elim
  have hholders : (t.view sb).holders i = (s.view sb).holders i := by
    unfold View.holders State.view
    rw [hquiet.file, hquiet.proc]
  have href := hexact.kept i htype hzero
  rw [ht.base.refs, count_nil, hholders] at href
  omega

end Tidy

/-! ## A reboot -/

/-- The kernel after a reboot: nothing is cached, no file is open and no process
runs. -/
def reboot (d : Disk) : State where
  fs :=
    { disk := d
      icache := fun _ => { newDinode 0 with valid := false }
      logged := [] }
  ref _ := 0
  entries := 0
  file _ := ⟨.none, 0, false, false, 0, 0, 0⟩
  proc _ := ⟨fun _ => none, none⟩

/-- The disks have the same blocks from the inodes on. -/
def SameFiles (sb : Superblock) (d e : Disk) : Prop :=
  ∀ b, sb.inodestart ≤ b → b < sb.size → d b = e b

section Reboot

variable {d : Disk}

theorem SameFiles.bitmap (h : SameFiles sb d s.fs.disk) (hlo : sb.bmapstart ≤ b)
    (hhi : b < sb.size) : d b = s.fs.disk b := by
  have hle : sb.inodestart ≤ sb.bmapstart :=
    (Nat.le_add_right _ _).trans ((Nat.le_succ _).trans sb.inodes_fit)
  exact h b (hle.trans hlo) hhi

section

variable (h : Consistent sb s.fs) (hd : SameFiles sb d s.fs.disk)

include h hd

theorem inode_reboot (hi : i < sb.ninodes) : (reboot d).fs.inode sb i = s.fs.inode sb i := by
  have hblock : d (sb.IBLOCK i) = s.fs.disk (sb.IBLOCK i) :=
    hd _ (Nat.le_add_left _ _) ((sb.IBLOCK_lt_nmeta hi).trans_le sb.nmeta_le)
  rw [h.inode_eq hi, readDinode, ← hblock]
  rfl

/-- The blocks of a file are data blocks. -/
theorem blocks_reboot {q : ℕ × Slot} (hb : ref sb s.fs q = some b) : d b = s.fs.disk b := by
  obtain ⟨hlo, hhi⟩ := h.own.range hb
  have hle : sb.bmapstart ≤ sb.nmeta :=
    (Nat.le_add_right _ _).trans ((Nat.le_succ _).trans sb.bitmap_le_nmeta)
  exact hd.bitmap (hle.trans hlo) hhi

theorem kept_reboot (hi : i < sb.ninodes) : Kept sb i s.fs (reboot d).fs :=
  Kept.of_blocks (inode_reboot h hd hi) fun _ _ hb => blocks_reboot h hd hb

theorem consistent_reboot : Consistent sb (reboot d).fs := by
  refine ⟨own_of_views h.own (fun b hb => ?_) fun q => ?_, fun _ _ hv => ?_, fun _ _ hv => ?_⟩
  · have hblock : d (sb.BBLOCK b) = s.fs.disk (sb.BBLOCK b) :=
      hd.bitmap (sb.le_BBLOCK b) ((sb.BBLOCK_lt hb).trans_le sb.nmeta_le)
    rw [bit, bit, ← hblock]
    rfl
  · exact ref_congr (fun hq => inode_reboot h hd hq) fun _ hb => blocks_reboot h hd hb
  · cases hv
  · cases hv

theorem node_reboot : ((reboot d).view sb).node = (s.view sb).node := by
  funext i
  unfold State.view
  dsimp only
  split
  next hi =>
    have hkept := kept_reboot h hd hi
    unfold nodeOf
    rw [hkept.inode, hkept.content]
  next => rfl

end

theorem holders_reboot (d : Disk) (i : ℕ) : ((reboot d).view sb).holders i = 0 := by
  by_contra hne
  rcases exists_of_holders (Nat.pos_of_ne_zero hne) with ⟨p, hp⟩ | ⟨f, hf⟩
  · cases hp
  · rcases hf.1 with htype | htype <;> cases htype

/-- A disk with the files of a tidy state is one to boot from. -/
theorem Tidy.reboot (h : Tidy sb s) (hd : SameFiles sb d s.fs.disk) :
    Tidy sb (Sysfile.reboot d) := by
  have hm := h.mounted
  have hnode := node_reboot hm.consistent hd
  have hedges : ((Sysfile.reboot d).view sb).edges sb = (s.view sb).edges sb :=
    edges_congr fun i _ => by simp only [hnode, and_self]
  have hnamed : ∀ i, (((Sysfile.reboot d).view sb).node i).type ≠ 0 →
      (((Sysfile.reboot d).view sb).node i).nlink ≠ 0 := by
    rw [hnode]
    exact h.named
  refine ⟨⟨hm.ninodes_le, hm.root_lt, consistent_reboot hm.consistent hd, ?_, ?_⟩, ?_, hnamed⟩
  · intro i hi htype o ho
    have hkept := kept_reboot hm.consistent hd hi
    rw [hkept.inode] at htype ho
    obtain ⟨hlt, hmapped⟩ := hm.noHoles i hi htype o ho
    exact ⟨hlt, hkept.mapped hmapped⟩
  · refine ⟨fun i => ?_, fun f i hf => ?_, fun _ _ => rfl, fun p i hp => ?_,
      fun i => ?_, fun i k => ?_⟩
    · rw [holders_reboot]
      rfl
    · exact absurd (holders_pos_of_file hf) (by rw [holders_reboot]; decide)
    · exact absurd (holders_pos_of_cwd hp) (by rw [holders_reboot]; decide)
    · rw [hnode]
      exact hm.base.dirs i
    · rw [View.inumAt, hnode]
      exact hm.base.range i k
  · refine ⟨?_, fun i => ?_, fun e k i => ?_, fun i => ?_,
      fun i hi hzero => absurd hzero (hnamed i hi),
      fun i hi hzero => absurd hzero (hnamed i hi)⟩
    · rw [hedges]
      exact h.exact.tree
    · rw [View.links, hedges, hnode]
      exact h.exact.exact i
    · rw [hedges, hnode]
      exact h.exact.used e k i
    · rw [hnode]
      exact h.exact.empty i

end Reboot

/-! ## Commits and crashes -/

namespace Machine

/-- The logged blocks.  `log_write` absorbs a block that is listed already. -/
def absorbed (m : Machine) : List ℕ := m.sys.fs.logged.reverse.dedup.reverse

theorem mem_absorbed {m : Machine} : b ∈ m.absorbed ↔ b ∈ m.sys.fs.logged := by
  rw [absorbed, mem_reverse, mem_dedup, mem_reverse]

/-- The transaction of a commit. -/
def tx (m : Machine) : Log.Tx where
  lh := m.absorbed.map (BitVec.ofNat 32)
  data := m.sys.fs.disk

/-- The transactions that a run commits. -/
def txs (sb : Superblock) : Machine → List Event → List Log.Tx
  | _, [] => []
  | m, e :: es =>
    let rest := (m.step sb e).elim [] fun m' => txs sb m' es
    match e with
    | .commit => m.tx :: rest
    | _ => rest

/-- The transaction is one that `log_write` can collect: blocks outside the log,
and no more of them than fit. -/
structure Fits (area : Log.LogArea) (m : Machine) : Prop where
  fitsHeader : m.absorbed.length ≤ LOGSIZE
  fitsLog : m.absorbed.length < area.size
  home : ∀ b ∈ m.sys.fs.logged, area.Home b ∧ b < 2 ^ 32

/-- A call that keeps names and does not run out of mapped pages inside a block,
or a commit that fits the log. -/
def TidyStep (sb : Superblock) (area : Log.LogArea) (m : Machine) : Event → Prop
  | .call p c => c.Aligned m.sys p ∧
      ∀ cwd, (m.sys.proc p).cwd = some cwd → c.KeepsNames (m.sys.view sb) cwd
  | .commit => m.Fits area
  | .evict _ => True

variable {area : Log.LogArea} {m m' : Machine} {e : Event} {es : List Event}

theorem Fits.nos_eq (h : m.Fits area) : Log.nos m.tx.lh = m.absorbed := by
  have hid : ∀ b ∈ m.absorbed, (BitVec.toNat ∘ BitVec.ofNat 32) b = id b :=
    fun b hb => Nat.mod_eq_of_lt (h.home b (mem_absorbed.mp hb)).2
  unfold tx Log.nos
  rw [map_map, map_congr_left hid, map_id]

theorem Fits.validHeader (h : m.Fits area) : Log.ValidHeader area m.tx.lh where
  nodup := by
    rw [h.nos_eq]
    exact nodup_reverse.mpr (nodup_dedup _)
  fitsHeader := by
    rw [← Log.nos_length, h.nos_eq]
    exact h.fitsHeader
  fitsLog := by
    rw [← Log.nos_length, h.nos_eq]
    exact h.fitsLog
  home b hb := by
    rw [h.nos_eq, mem_absorbed] at hb
    exact (h.home b hb).1

/-- Calls keep the kernel's view of the file system tidy, and commits bring it
to the disk. -/
structure Sound (sb : Superblock) (m : Machine) : Prop where
  tidy : Tidy sb m.sys
  agrees : m.Agrees
  stored : ∃ s, Tidy sb s ∧ s.fs.disk = m.disk

theorem Sound.of_init (hinit : (system sb).init m) (h : Tidy sb m.sys) : Sound sb m :=
  ⟨h, fun b _ => congrFun hinit.1.symm b, m.sys, h, hinit.1.symm⟩

theorem Sound.step (h : Sound sb m) (hok : m.TidyStep sb area e)
    (hstep : m.step sb e = some m') : Sound sb m' := by
  have haligned : m.AlignedStep e := by
    cases e with
    | call p c => exact hok.1
    | commit => trivial
    | evict b => trivial
  have hagrees := h.agrees.step haligned hstep
  cases e with
  | call p c =>
    obtain ⟨t, ht, rfl⟩ := Option.map_eq_some_iff.mp hstep
    exact ⟨h.tidy.step hok.2 ht, hagrees, h.stored⟩
  | commit =>
    cases hstep
    have htidy : Tidy sb (m.setBlocks m.sys.fs.disk []) := h.tidy.setLogged []
    refine ⟨htidy, hagrees, m.sys, h.tidy, funext fun b => ?_⟩
    dsimp only
    split
    next => rfl
    next hb => exact h.agrees b hb
  | evict b => exact h.agrees.evict_eq hstep ▸ h

theorem Fits.apply_tx (h : m.Fits area) (hstep : m.step sb .commit = some m') :
    m.tx.apply m.disk = m'.disk := by
  cases hstep
  funext b
  unfold Log.Tx.apply
  rw [h.nos_eq]
  simp only [mem_absorbed]
  rfl

/-- The disk after any number of the commits has the files of a tidy state. -/
theorem Sound.applyTxs (h : Sound sb m) (hok : (system sb).Meets (TidyStep sb area) m es)
    (hrun : (system sb).run m es = some m') (j : ℕ) :
    ∃ s, Tidy sb s ∧ s.fs.disk = Log.applyTxs ((txs sb m es).take j) m.disk := by
  induction es generalizing m j with
  | nil =>
    rw [txs, take_nil]
    exact h.stored
  | cons e es ih =>
    obtain ⟨m₁, hstep, hrest⟩ := Option.bind_eq_some_iff.mp hrun
    have hstep : m.step sb e = some m₁ := hstep
    have hnext := ih (h.step hok.1 hstep) (hok.2 m₁ hstep) hrest
    unfold txs
    rw [hstep]
    cases e with
    | call p c =>
      obtain ⟨t, -, rfl⟩ := Option.map_eq_some_iff.mp hstep
      exact hnext j
    | commit =>
      cases j with
      | zero => exact h.stored
      | succ j =>
        dsimp only [Option.elim]
        rw [take_succ_cons, Log.applyTxs, foldl_cons, hok.1.apply_tx hstep]
        exact hnext j
    | evict b =>
      obtain rfl := h.agrees.evict_eq hstep
      exact hnext j

theorem txs_fit (hok : (system sb).Meets (TidyStep sb area) m es)
    {tx : Log.Tx} (htx : tx ∈ txs sb m es) : Log.ValidHeader area tx.lh := by
  induction es generalizing m with
  | nil => cases htx
  | cons e es ih =>
    have hrest : tx ∈ (m.step sb e).elim [] (fun m' => txs sb m' es) →
        Log.ValidHeader area tx.lh := by
      intro hmem
      cases hstep : m.step sb e with
      | none =>
        rw [hstep] at hmem
        cases hmem
      | some m₁ =>
        rw [hstep] at hmem
        exact ih (hok.2 m₁ hstep) hmem
    cases e with
    | call p c => exact hrest htx
    | commit =>
      rcases mem_cons.mp htx with rfl | hmem
      · exact hok.1.validHeader
      · exact hrest hmem
    | evict b => exact hrest htx

/-- If no call takes the last link of an inode that is in use, no link count
overflows and no `write` runs out of mapped pages inside a block, then on the
disk that recovery leaves after a crash, every allocated inode has a link and an
entry, and a path leads to it. -/
theorem no_inode_lost_in_crash {boot : Log.Machine}
    (harea : ∀ b, sb.inodestart ≤ b → b < sb.size → area.Home b)
    (hinit : (system sb).init m) (htidy : Tidy sb m.sys)
    (hready : Log.Ready area boot) (hdisk : boot.disk = m.disk)
    (hok : (system sb).Meets (TidyStep sb area) m es)
    (hrun : (system sb).run m es = some m') (crash : ℕ) (recoveries : List ℕ) :
    let d := (Log.Epoch.run area boot ⟨txs sb m es, crash, recoveries⟩).disk
    ∀ i, (((reboot d).view sb).node i).type ≠ 0 → (((reboot d).view sb).node i).nlink ≠ 0 ∧
      (∃ dp k, (dp, k, i) ∈ ((reboot d).view sb).edges sb) ∧
      ∃ ns, ((reboot d).view sb).walk false ROOTINO ns = some (i, none) := by
  intro d i hi
  have hhome := (Log.Epoch.run_spec (e := ⟨txs sb m es, crash, recoveries⟩) hready
    fun tx htx => txs_fit hok htx).2
  obtain ⟨s, hs, heq⟩ := (Sound.of_init hinit htidy).applyTxs hok hrun
    (Log.committed (txs sb m es) crash)
  have hboot : Tidy sb (reboot d) := by
    refine hs.reboot fun b hlo hhi => ?_
    rw [heq, ← hdisk]
    exact hhome b (harea b hlo hhi)
  exact ⟨hboot.named i hi, hboot.found hi⟩

/-! The first process opens the new file `x`.  The log comes after the blocks of
the small file system. -/

def smallLog : Log.LogArea := ⟨12, LOGSIZE, Log.mkfsLog.hasHeader⟩

theorem smallTree_tidy : Tidy smallSuperblock smallTree :=
  ⟨smallTree_mounted, smallTree_exact, fun _ hi => (nlink_smallTree hi).2⟩

theorem ready_smallLog : Log.Ready smallLog (Log.boot smallMachine.disk) :=
  ⟨by decide +kernel, fun _ _ => rfl⟩

/-- The disk that recovery leaves after `crash` disk writes of the commits. -/
def recovered (es : List Event) (crash : ℕ) : Disk :=
  (Log.Epoch.run smallLog (Log.boot smallMachine.disk)
    ⟨txs smallSuperblock smallMachine es, crash, []⟩).disk

theorem fits_openX {m : Machine}
    (h : smallMachine.step smallSuperblock openX = some m) : m.Fits smallLog := by
  have hall : ((smallMachine.step smallSuperblock openX).all fun m =>
      decide (m.absorbed.length ≤ 2 ∧ ∀ b ∈ m.sys.fs.logged, b < 12)) = true := by
    decide +kernel
  rw [h] at hall
  obtain ⟨hlen, hlt⟩ := of_decide_eq_true hall
  exact ⟨hlen.trans (by decide), hlen.trans_lt (by decide), fun b hb =>
    ⟨Or.inl (hlt b hb), (hlt b hb).trans (by decide)⟩⟩

/-- The crash comes right after the header is written. -/
theorem no_inode_lost_in_crash_openX :
    (((reboot (recovered [openX, .commit] 3)).view smallSuperblock).node 2).type = T_FILE ∧
    ∃ ns, ((reboot (recovered [openX, .commit] 3)).view smallSuperblock).walk
      false ROOTINO ns = some (2, none) := by
  have htype : (((reboot (recovered [openX, .commit] 3)).view
      smallSuperblock).node 2).type = T_FILE := by
    decide +kernel
  have hrun : ((system smallSuperblock).run smallMachine [openX, .commit]).isSome = true := by
    decide +kernel
  obtain ⟨m, hm⟩ := Option.isSome_iff_exists.mp hrun
  have hok : (system smallSuperblock).Meets (TidyStep smallSuperblock smallLog)
      smallMachine [openX, .commit] :=
    ⟨⟨trivial, fun _ _ => ⟨fun _ h => h.elim, fun _ h => h.elim⟩⟩,
      fun _ ht => ⟨fits_openX ht, fun _ _ => trivial⟩⟩
  exact ⟨htype, (no_inode_lost_in_crash (fun _ _ h => Or.inl h) ⟨rfl, rfl⟩
    smallTree_tidy ready_smallLog rfl hok hm 3 [] 2
    fun hzero => absurd (htype.symm.trans hzero) (by decide)).2.2⟩

/-- The first process removes the file, which it has open. -/
def removeX : Event := .call proc (.unlink pathX)

/-- After a crash, the inode is allocated, has no links, and no entry names
it. -/
theorem open_file_lost_in_crash :
    (system smallSuperblock).init smallMachine ∧ Tidy smallSuperblock smallMachine.sys ∧
      Log.Ready smallLog (Log.boot smallMachine.disk) ∧
      ((system smallSuperblock).run smallMachine [openX, .commit, removeX, .commit]).isSome = true ∧
      let v := (reboot (recovered [openX, .commit, removeX, .commit] 100)).view
        smallSuperblock
      (v.node 2).type = T_FILE ∧ (v.node 2).nlink = 0 ∧
        ∀ d < smallSuperblock.ninodes, (v.node d).type = T_DIR →
          ∀ k < slots (v.node d).data, (entry (v.node d).data k).inum ≠ 0 → v.inumAt d k ≠ 2 := by
  refine ⟨⟨rfl, rfl⟩, smallTree_tidy, ready_smallLog, ?_, ?_, ?_, ?_⟩ <;> decide +kernel

end Machine

end OsCa.Sysfile
