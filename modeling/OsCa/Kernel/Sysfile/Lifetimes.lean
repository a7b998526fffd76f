import OsCa.Kernel.Sysfile.Links

/-!
# Link counts and dangling entries

A directory that is removed while it is the current directory of a process stays
allocated, and the process can go on using it.  Two things then go wrong.  The
process can make entries in the removed directory; these count as links, but
nothing leads to them.  And the entry `..` of the removed directory does not
count as a link, so its parent can be removed and freed as well, after which
`..` leads to a free inode.

Apart from that, and from link counts that overflow, link counts are exact, and
entries lead to allocated inodes.
-/

namespace OsCa.Sysfile

open Bytes Fs OsCa.Action Relation Hierarchy

variable {sb : Superblock} {P : Policy} {L : List ℕ} {s t : State} {v w : View}
  {c : Call} {cwd d i : ℕ}

/-! ## Finding an inode by name -/

theorem View.walk_snoc {n : Name} {ns : List Name} {r k : ℕ}
    (h : v.walk false r ns = some (d, none)) (hdir : (v.node d).type = T_DIR)
    (hfind : find (v.node d).data n = some k) :
    v.walk false r (ns ++ [n]) = some (v.inumAt d k, none) := by
  induction ns generalizing r with
  | nil =>
    cases h
    simp only [List.nil_append, View.walk, hdir, if_true, hfind,
      Bool.false_eq_true, false_and, if_false]
  | cons m ns ih =>
    rw [List.cons_append]
    unfold View.walk at h ⊢
    obtain ⟨htype, h⟩ := Option.ite_none_right_eq_some.mp h
    rw [if_pos htype]
    simp only [Bool.false_eq_true, false_and, if_false] at h ⊢
    split at h
    next => cases h
    next l hl => exact ih h

/-- The path to an inode follows the way down the tree. -/
theorem Exact.exists_path (h : Exact sb v) (hb : Base sb L v)
    (hi : (v.node i).type ≠ 0) (hpos : 0 < (v.node i).nlink.toInt) :
    ∃ ns, v.walk false ROOTINO ns = some (i, none) := by
  rw [h.exact i hi, Int.natCast_pos, View.links, indegree_pos_iff] at hpos
  obtain ⟨d, k, hmem⟩ := hpos
  have hreach := h.tree.reach hmem
  clear hmem hi
  induction hreach with
  | refl => exact ⟨[], rfl⟩
  | tail _ hstep ih =>
    obtain ⟨ns, hns⟩ := ih
    obtain ⟨l, -, hl⟩ := hstep
    obtain ⟨hlinked, -, hused, rfl⟩ := hb.mem_edges_iff.mp hl
    have hd := hb.dirs _ hlinked.1
    refine ⟨_, View.walk_snoc hns hlinked.1 (find_eq_some_iff.mpr ⟨hused, rfl, fun j hj hx => ?_⟩)⟩
    exact hj.ne (hd.unique j l hx.1 hused hx.2)

/-! ## Exact link counts -/

/-- The call makes no entry in a directory without links, and no link count
overflows. -/
def Call.Careful (c : Call) (v : View) (cwd : ℕ) : Prop :=
  (∀ dp, c.Enters v cwd dp → (v.node dp).nlink ≠ 0) ∧
    ∀ i, c.Counts v cwd i → (v.node i).nlink ≠ 32767

/-- The policy of careful calls. -/
def linkPolicy : Policy where
  entry v dp := (v.node dp).nlink ≠ 0
  link v i := (v.node i).nlink ≠ 32767
  unlink _ _ := True

theorem careful_linkPolicy : Careful linkPolicy := ⟨fun _ _ h => h, fun _ _ h => h⟩

theorem Call.Careful.permitted (h : c.Careful v cwd) : c.Permitted linkPolicy v cwd where
  entry w dp _ hnode hdp := by
    change (w.node dp).nlink ≠ 0
    rw [hnode]
    exact h.1 dp hdp
  link w i _ hnode hi := by
    change (w.node i).nlink ≠ 32767
    rw [hnode]
    exact h.2 i hi
  unlink _ _ _ _ _ := trivial

/-- The process makes a careful call. -/
def CarefulStep (sb : Superblock) (s : State) (e : Fin NPROC × Call) : Prop :=
  ∀ cwd, (s.proc e.1).cwd = some cwd → e.2.Careful (s.view sb) cwd

/-- If all calls are careful, every link count is the number of entries that
name the inode, every inode with links has a path, and one without links is
freed as soon as nobody refers to it. -/
theorem link_counts_exact {es : List (Fin NPROC × Call)} (hs : Mounted sb s)
    (hexact : Exact sb (s.view sb))
    (hcareful : (system sb).Meets (CarefulStep sb) s es)
    (hrun : (system sb).run s es = some t) :
    (∀ i, ((t.view sb).node i).type ≠ 0 →
      ((t.view sb).node i).nlink.toInt = (t.view sb).links sb i) ∧
    (∀ i, ((t.view sb).node i).type ≠ 0 → 0 < ((t.view sb).node i).nlink.toInt →
      ∃ ns, (t.view sb).walk false ROOTINO ns = some (i, none)) ∧
    ∀ i, ((t.view sb).node i).type ≠ 0 → ((t.view sb).node i).nlink = 0 → t.ref i ≠ 0 := by
  have ht : Mounted sb t ∧ Exact sb (t.view sb) := by
    refine hcareful.invariant (P := fun s => Mounted sb s ∧ Exact sb (s.view sb))
      ?_ ⟨hs, hexact⟩ hrun
    rintro s ⟨p, c⟩ t ⟨hs, hexact⟩ hok hstep
    obtain ⟨cwd, hcwd⟩ := Mounted.cwd_of_step hstep
    obtain ⟨hm, ht⟩ := hs.step_moves hcwd (hok cwd hcwd).permitted hstep
    exact ⟨ht, hexact.moves hs.ninodes_le careful_linkPolicy hs.base hm⟩
  exact ⟨ht.2.exact, fun i => ht.2.exists_path ht.1.base, ht.2.kept⟩

theorem link_counts_exact_small : ∃ t, (system smallSuperblock).run smallTree [removeB] = some t ∧
      ∀ i, ((t.view smallSuperblock).node i).type ≠ 0 →
        ((t.view smallSuperblock).node i).nlink.toInt =
          (t.view smallSuperblock).links smallSuperblock i := by
  obtain ⟨t, ht⟩ := run_removeB
  have hcareful : (system smallSuperblock).Meets (CarefulStep smallSuperblock)
      smallTree [removeB] :=
    ⟨fun _ _ => ⟨fun _ h => h.elim, fun _ h => h.elim⟩, fun _ _ => trivial⟩
  exact ⟨t, ht, (link_counts_exact smallTree_mounted smallTree_exact hcareful ht).1⟩

/-- The second process, whose current directory is `/a/b`, creates the file
`x`. -/
def createX : Fin NPROC × Call := (⟨1, by decide⟩, .open pathX O_CREATE)

/-- The new file has a link, but no entry of a linked directory names it. -/
theorem entry_in_removed_directory : Mounted smallSuperblock smallTree ∧
      Exact smallSuperblock (smallTree.view smallSuperblock) ∧
      ∃ t, (system smallSuperblock).run smallTree [removeB, createX] = some t ∧
        ((t.view smallSuperblock).node 2).type ≠ 0 ∧
        ((t.view smallSuperblock).node 2).nlink.toInt = 1 ∧
        (t.view smallSuperblock).links smallSuperblock 2 = 0 := by
  exact ⟨smallTree_mounted, smallTree_exact, EventSystem.exists_of_any_run (by decide +kernel)⟩

/-! ## Dangling entries -/

/-- The entry `..` of a directory without links leads to one that has links. -/
def Upward (v : View) : Prop :=
  ∀ d, (v.node d).type = T_DIR → (v.node d).nlink = 0 → v.Linked (v.inumAt d 1)

/-- No directory without links has inode `i` as its entry `..`. -/
def NotParent (v : View) (i : ℕ) : Prop :=
  ∀ d, (v.node d).type = T_DIR → (v.node d).nlink = 0 → v.inumAt d 1 ≠ i

/-- The policy of careful calls that do not remove the parent of a removed
directory. -/
def parentPolicy : Policy where
  entry v dp := (v.node dp).nlink ≠ 0
  link v i := (v.node i).nlink ≠ 32767
  unlink v i := (v.node i).type = T_DIR → NotParent v i

theorem careful_parentPolicy : Careful parentPolicy := ⟨fun _ _ h => h, fun _ _ h => h⟩

/-- Directories without links are old ones, and their parents keep their links. -/
theorem Upward.of_nodes (h : Upward v)
    (hnode : ∀ d, (w.node d).type = T_DIR → (w.node d).nlink = 0 → w.node d = v.node d)
    (hlinked : ∀ d, v.Linked d → w.Linked d) : Upward w := by
  intro d hd hzero
  have heq := hnode d hd hzero
  rw [View.inumAt, heq]
  rw [heq] at hd hzero
  exact hlinked _ (h d hd hzero)

theorem Upward.move {m m' : List ℕ × View} (hsb : sb.ninodes ≤ 2 ^ 16)
    (hb : Base sb m.1 m.2) (hexact : Exact sb m.2) (h : Upward m.2)
    (hm : Move sb parentPolicy m m') : Upward m'.2 := by
  have hb' := hb.move hsb hm
  cases hm with
  | perm | lock | file | opened | close | fds | chdir | exit => exact h
  | look hl =>
    have hnode := fun i => (hl.node i).resolve_right fun hx => hexact.kept i hx.2.1 hx.2.2.1 hx.1
    exact h.of_nodes (fun d _ _ => hnode d) fun d => (View.linked_congr (hnode d)).mpr
  | @release L v i _ =>
    have hnode : ∀ d, ¬ (d = i ∧ v.Dying i) → (v.release i).node d = v.node d :=
      fun d hd => by rw [View.node_release, if_neg hd]
    refine h.of_nodes (fun d hd _ => hnode d ?_) fun d hd => (View.linked_congr (hnode d ?_)).mpr hd
    · rintro hdying
      dsimp only at hd
      rw [View.node_release, if_pos hdying] at hd
      exact T_DIR_ne_zero hd.symm
    · rintro ⟨rfl, hdying⟩
      have hpos := hd.2
      rw [show (v.node d).nlink = 0 from hdying.2.2] at hpos
      exact absurd hpos (by decide)
  | @create L v dp ip name type major minor _ hdir _ hpos hlt hfree htype hentry hlink =>
    have hcreated := (hexact.created hb hb' hdir (ofNat_inum hsb hpos hlt)
      (hb.inum_of_dir hsb hdir) hfree htype hentry hlink).2
    have hnode : ∀ d, d ≠ dp → d ≠ ip → (v.created dp ip name type major minor).node d = v.node d :=
      fun d hd hi => by rw [View.node_created, if_neg hd, if_neg hi]
    refine h.of_nodes (fun d hd hzero => hnode d ?_ ?_) fun d hd => ?_
    · rintro rfl
      have hpos := hcreated.2
      rw [hzero] at hpos
      exact absurd hpos (by decide)
    · rintro rfl
      dsimp only at hd hzero
      rw [View.node_created] at hzero
      split at hzero
      next heq =>
        rw [heq, hdir] at hfree
        exact T_DIR_ne_zero hfree
      next => simp at hzero
    · by_cases hddp : d = dp
      · rw [hddp]
        exact hcreated
      · refine (View.linked_congr (hnode d hddp ?_)).mpr hd
        rintro rfl
        have htype := hd.1
        dsimp only at htype
        rw [hfree] at htype
        exact T_DIR_ne_zero htype.symm
  | @link L v dp ip name _ _ hdir _ _ _ _ hfile hentry _ =>
    have hnode : ∀ d, d ≠ dp → (v.node d).type = T_DIR →
        (v.linked dp ip name).node d = v.node d := by
      intro d hd htype
      rw [View.node_linked, if_neg hd, if_neg]
      rintro rfl
      exact hfile htype
    have htype : ∀ d, ((v.linked dp ip name).node d).type = (v.node d).type := by
      intro d
      rw [View.node_linked]
      split
      next heq => rw [heq]
      next =>
        split
        next heq => rw [heq]
        next => rfl
    have hdp : ((v.linked dp ip name).node dp).nlink = (v.node dp).nlink := by
      rw [View.node_linked, if_pos rfl]
    refine h.of_nodes (fun d hd hzero => hnode d ?_ ?_) fun d hd => ?_
    · rintro rfl
      dsimp only at hzero
      rw [hdp] at hzero
      exact hentry hzero
    · rw [← htype]
      exact hd
    · by_cases hddp : d = dp
      · rw [hddp] at hd ⊢
        refine ⟨(htype dp).trans hd.1, ?_⟩
        rw [hdp]
        exact hd.2
      · exact (View.linked_congr (hnode d hddp hd.1)).mpr hd
  | @unlink L v dp ip k _ hip hdir hk hused hinum hvalid _ hnlink hempty hperm =>
    obtain ⟨-, hdp, hup⟩ := hexact.unlinked hb hb' hip hdir hk hused hinum hvalid hnlink hempty
    have hne : dp ≠ ip := ne_of_unlink hdir hk hused hempty
    have hnode : ∀ d, d ≠ ip → d ≠ dp → (v.unlinked dp ip k).node d = v.node d :=
      fun d hi hd => by rw [View.node_unlinked, if_neg hi, if_neg hd]
    have hself : (v.unlinked dp ip k).node ip =
        { v.node ip with nlink := (v.node ip).nlink - 1 } := by
      rw [View.node_unlinked, if_pos rfl]
    intro d hd hzero
    dsimp only at hd hzero ⊢
    have hddp : d ≠ dp := by
      rintro rfl
      have hpos := hdp.2
      rw [hzero] at hpos
      exact absurd hpos (by decide)
    by_cases hdip : d = ip
    · -- The directory that has just lost its name.
      subst d
      rw [hself] at hd
      rw [View.inumAt, hself]
      exact (hup hd).symm ▸ hdp
    · have heq := hnode d hdip hddp
      rw [View.inumAt, heq]
      rw [heq] at hd hzero
      have hlinked := h d hd hzero
      change (v.unlinked dp ip k).Linked (v.inumAt d 1)
      by_cases hparent : v.inumAt d 1 = dp
      · rw [hparent]
        exact hdp
      · refine (View.linked_congr (hnode _ ?_ hparent)).mpr hlinked
        intro hx
        have htype := hlinked.1
        dsimp only at htype
        rw [hx] at htype
        exact hperm htype d hd hzero hx
  | @data L v ip data _ hfile =>
    have hnode : ∀ d, (v.node d).type = T_DIR →
        (v.setNode ip { v.node ip with data := data }).node d = v.node d := by
      intro d hd
      rw [View.node_setNode, if_neg]
      rintro rfl
      exact hfile hd
    refine h.of_nodes (fun d hd _ => ?_) fun d hd => (View.linked_congr (hnode d hd.1)).mpr hd
    dsimp only at hd ⊢
    rw [View.node_setNode] at hd ⊢
    split at hd
    next => exact absurd hd hfile
    next hne => rw [if_neg hne]

theorem Upward.moves {m m' : List ℕ × View} (hsb : sb.ninodes ≤ 2 ^ 16)
    (hb : Base sb m.1 m.2) (hexact : Exact sb m.2) (h : Upward m.2)
    (hm : Moves sb parentPolicy m m') : Upward m'.2 := by
  induction hm with
  | refl => exact h
  | tail hmoves hmove ih =>
    exact ih.move hsb (hb.moves hsb hmoves) (hexact.moves hsb careful_parentPolicy hb hmoves) hmove

/-- Every entry leads to an allocated inode. -/
theorem Upward.used (h : Upward v) (hb : Base sb L v) (hexact : Exact sb v)
    {k : ℕ} (hd : (v.node d).type = T_DIR)
    (hused : (entry (v.node d).data k).inum ≠ 0) :
    (v.node (v.inumAt d k)).type ≠ 0 ∧ (k = 1 → (v.node (v.inumAt d k)).type = T_DIR) := by
  have hd0 : (v.node d).type ≠ 0 := by
    rw [hd]
    exact T_DIR_ne_zero
  -- The directory `..` of a directory has links, whether that one has or not.
  have hup : (v.node (v.inumAt d 1)).type = T_DIR := by
    by_cases hzero : (v.node d).nlink = 0
    · exact (h d hd hzero).1
    · have hmem := hb.up_mem_edges (hexact.linked_of_dir hd hzero)
      by_cases hroot : d = ROOTINO
      · rw [hroot] at hmem ⊢
        rw [← hexact.tree.functional _ _ _ _ hexact.tree.root_up hmem]
        exact (hb.mem_edges_iff.mp hexact.tree.root_up).1.1
      · obtain ⟨l, -, hl⟩ := hexact.tree.parent d _ hmem hroot
        exact (hb.mem_edges_iff.mp hl).1.1
  obtain rfl | rfl | hk : k = 0 ∨ k = 1 ∨ 2 ≤ k := by omega
  · have hself : v.inumAt d 0 = d := (hb.dirs d hd).dot_self
    rw [hself]
    exact ⟨hd0, fun hx => absurd hx (by decide)⟩
  · rw [hup]
    exact ⟨T_DIR_ne_zero, fun _ => rfl⟩
  · have hlinked := hexact.linked_of_entry hd hk hused
    refine ⟨hexact.used d k _ (hb.mem_edges_iff.mpr ⟨hlinked, by omega, hused, rfl⟩), fun hx => ?_⟩
    omega

theorem Upward.closed (h : Upward v) (hb : Base sb L v) (hexact : Exact sb v) :
    Closed v ∧ (v.node ROOTINO).type ≠ 0 := by
  refine ⟨⟨fun d k hd hused => (h.used hb hexact hd hused).1, hexact.kept⟩, ?_⟩
  rw [(hb.mem_edges_iff.mp hexact.tree.root_up).1.1]
  exact T_DIR_ne_zero

/-- The call is careful, and does not remove the parent of a removed
directory. -/
def Call.KeepsParents (c : Call) (v : View) (cwd : ℕ) : Prop :=
  c.Careful v cwd ∧ ∀ i, c.Removes v cwd i → (v.node i).type = T_DIR → NotParent v i

theorem Call.KeepsParents.permitted (h : c.KeepsParents v cwd) :
    c.Permitted parentPolicy v cwd where
  entry := h.1.permitted.entry
  link := h.1.permitted.link
  unlink w i haged hnode hi hdir d hd hzero := by
    -- A directory that is left was there before.
    have hold : w.node d = v.node d := by
      refine (haged d).resolve_right fun hx => ?_
      rw [hx.2.2.2] at hd
      exact T_DIR_ne_zero hd.symm
    rw [View.inumAt, hold]
    rw [hold] at hd hzero
    rw [hnode] at hdir
    exact h.2 i hi hdir d hd hzero

/-- The process makes such a call. -/
def KeepsParentsStep (sb : Superblock) (s : State) (e : Fin NPROC × Call) :
    Prop :=
  ∀ cwd, (s.proc e.1).cwd = some cwd → e.2.KeepsParents (s.view sb) cwd

/-- If no parent of a removed directory is removed, every entry of a directory
that is linked or referenced leads to an allocated inode, `..` leads to a
directory, and no call finds a free inode. -/
theorem no_dangling_entries {es : List (Fin NPROC × Call)} (hs : Mounted sb s)
    (hexact : Exact sb (s.view sb)) (hup : Upward (s.view sb))
    (hkeeps : (system sb).Meets (KeepsParentsStep sb) s es)
    (hrun : (system sb).run s es = some t) :
    (∀ d k, ((t.view sb).node d).type = T_DIR → 0 < ((t.view sb).node d).nlink.toInt ∨ 0 < t.ref d →
      (entry ((t.view sb).node d).data k).inum ≠ 0 →
      ((t.view sb).node ((t.view sb).inumAt d k)).type ≠ 0 ∧
        ((entry ((t.view sb).node d).data k).label = dotdot →
          ((t.view sb).node ((t.view sb).inumAt d k)).type = T_DIR)) ∧
    ∀ p cwd c, (t.proc p).cwd = some cwd → Call.run sb p cwd c t ≠ .error (.fs .ilockNoType) := by
  have ht : Mounted sb t ∧ Exact sb (t.view sb) ∧ Upward (t.view sb) := by
    refine hkeeps.invariant (P := fun s => Mounted sb s ∧ Exact sb (s.view sb) ∧
      Upward (s.view sb)) ?_ ⟨hs, hexact, hup⟩ hrun
    rintro s ⟨p, c⟩ t ⟨hs, hexact, hup⟩ hok hstep
    obtain ⟨cwd, hcwd⟩ := Mounted.cwd_of_step hstep
    obtain ⟨hm, ht⟩ := hs.step_moves hcwd (hok cwd hcwd).permitted hstep
    exact ⟨ht, hexact.moves hs.ninodes_le careful_parentPolicy hs.base hm,
      hup.moves hs.ninodes_le hs.base hexact hm⟩
  obtain ⟨ht, hexact, hup⟩ := ht
  refine ⟨fun d k hd _ hused => ?_, fun p cwd c hcwd herror => ?_⟩
  · obtain ⟨htype, hdir⟩ := hup.used ht.base hexact hd hused
    refine ⟨htype, fun hlabel => hdir ?_⟩
    have hwf := ht.base.dirs d hd
    exact hwf.unique k 1 hused hwf.dotdot_used (hlabel.trans hwf.dotdot_label.symm)
  · have hrun := Call.run_spec (P := ⟨fun _ _ => True, fun _ _ => True, fun _ _ => True⟩) (c := c)
      (ht.ready hcwd (fun _ he => he) (Or.inr (hup.closed ht.base hexact)))
      ht.rep ht.base hcwd ⟨fun _ _ _ _ _ => trivial, fun _ _ _ _ _ => trivial,
        fun _ _ _ _ _ => trivial⟩
    exact wp_error hrun herror rfl

theorem smallTree_linked {d : ℕ} (hd : ((smallTree.view smallSuperblock).node d).type = T_DIR) :
    ((smallTree.view smallSuperblock).node d).nlink ≠ 0 :=
  (nlink_smallTree (by rw [hd]; exact T_DIR_ne_zero)).2

theorem smallTree_upward : Upward (smallTree.view smallSuperblock) :=
  fun _ hd hzero => absurd hzero (smallTree_linked hd)

theorem no_dangling_entries_small : ∃ t, (system smallSuperblock).run smallTree [removeB] = some t ∧
      ∀ p cwd c, (t.proc p).cwd = some cwd →
        Call.run smallSuperblock p cwd c t ≠ .error (.fs .ilockNoType) := by
  obtain ⟨t, ht⟩ := run_removeB
  have hkeeps : (system smallSuperblock).Meets (KeepsParentsStep smallSuperblock)
      smallTree [removeB] := by
    refine ⟨fun _ _ => ⟨⟨fun _ h => h.elim, fun _ h => h.elim⟩,
      fun _ _ _ d hd hzero => ?_⟩, fun _ _ => trivial⟩
    exact absurd hzero (smallTree_linked hd)
  exact ⟨t, ht, (no_dangling_entries smallTree_mounted smallTree_exact
    smallTree_upward hkeeps ht).2⟩

/-- The first process removes `/a`, which is empty now. -/
def removeA : Fin NPROC × Call := (proc, .unlink (smallPath [97] (by decide)))

/-- The entry `..` of the current directory of the second process leads to a
free inode, and a lookup panics. -/
theorem parent_of_removed_directory : Mounted smallSuperblock smallTree ∧
      Exact smallSuperblock (smallTree.view smallSuperblock) ∧
      Upward (smallTree.view smallSuperblock) ∧
      ∃ t, (system smallSuperblock).run smallTree [removeB, removeA] = some t ∧
        ((t.view smallSuperblock).node 33).type = T_DIR ∧ 0 < t.ref 33 ∧
        (t.view smallSuperblock).inumAt 33 1 = 17 ∧
        ((t.view smallSuperblock).node 17).type = 0 ∧
        Call.run smallSuperblock ⟨1, by decide⟩ 33
          (.open (smallPath dotdot (by decide)) O_RDONLY) t =
            .error (.fs .ilockNoType) := by
  exact ⟨smallTree_mounted, smallTree_exact, smallTree_upward,
    EventSystem.exists_of_any_run (by decide +kernel)⟩

end OsCa.Sysfile
