import OsCa.Kernel.Sysfile.Create

/-!
# Every system call is a sequence of moves

The system calls refine the moves: whatever a call does and wherever it fails,
it is a sequence of moves after which it holds no references.  Which entries it
makes and removes can be told from the view before the call.
-/

namespace OsCa.Sysfile

open Bytes Fs OsCa.Action Relation

variable {sb : Superblock} {P : Policy} {s : State} {v w : View}
  {E : Panic → Prop} {i dp ip : ℕ}

variable {n : Short} {path : Option Path} {fd : BitVec 32} {f : Fin NFILE} {L : List ℕ}
  {mem : Memory} {addr : ℕ} {other : ℤ}

/-! ## Linking and unlinking -/

/-- The link count of an inode that is held is of no importance to a lookup. -/
theorem Looked.of_setNode {n : Node} {held : List ℕ}
    (hl : Looked (v.setNode i n) w held) (href : 0 < v.ref i) :
    w.node i = n ∧ Looked v (w.setNode i (v.node i)) held := by
  have hself : w.node i = n := by rw [hl.node_eq_of_ref href, View.node_setNode, if_pos rfl]
  refine ⟨hself, hl.file, hl.proc, hl.ref, hl.entries, fun j => ?_, hl.valid⟩
  rw [View.node_setNode]
  split
  next heq => exact Or.inl (by rw [heq])
  next hne =>
    have hj := hl.node j
    rw [View.node_setNode, if_neg hne] at hj
    exact hj

/-- The directories are the same, whatever the link count of a file. -/
theorem Ready.of_link {cwd : ℕ} (hr : Ready sb E v cwd) (hl : Looked v w [ip])
    (hsearch : Searchable sb w) (hfile : (w.node ip).type ≠ T_DIR) :
    Ready sb E (w.setNode ip { w.node ip with nlink := n }) cwd := by
  set u := w.setNode ip { w.node ip with nlink := n }
  have htype : ∀ j, (u.node j).type = (w.node j).type := fun j => by
    rw [View.node_setNode]
    split
    next heq => rw [heq]
    next => rfl
  have hdir : ∀ d, (u.node d).type = T_DIR → u.node d = w.node d := by
    intro d hd
    rw [htype] at hd
    rw [View.node_setNode, if_neg]
    rintro rfl
    exact hfile hd
  have hcwd := hl.node_eq_of_ref hr.cwd_ref
  have hinum : ∀ d k, (u.node d).type = T_DIR → u.inumAt d k = w.inumAt d k := fun d k hd => by
    unfold View.inumAt
    rw [hdir d hd]
  refine ⟨hr.ninodes_le, hr.root_lt, ⟨fun d hd => ?_, fun d k hd hk => ?_⟩,
    hr.cwd_pos, ?_, ?_, hr.tolerant, ?_⟩
  · rw [hdir d hd]
    rw [htype] at hd
    exact hsearch.aligned d hd
  · rw [hinum d k hd]
    rw [hdir d hd] at hk
    rw [htype] at hd
    exact hsearch.range d k hd hk
  · change 0 < w.ref cwd
    have := hr.cwd_ref
    rw [hl.ref]
    omega
  · rw [htype, hcwd, hr.cwd_dir]
  · rcases hr.safe with hsafe | ⟨hclosed, hroot⟩
    · exact Or.inl hsafe
    · have hnode := hl.node_eq_of_closed hclosed
      refine Or.inr ⟨⟨fun d k hd hk => ?_, fun j hj hnlink => ?_⟩, ?_⟩
      · rw [htype, hinum d k hd, View.inumAt, hnode]
        rw [hdir d hd, hnode] at hk
        rw [htype, hnode] at hd
        exact hclosed.used d k hd hk
      · change w.ref j ≠ 0
        have href := hl.ref j
        by_cases hji : j = ip
        · rw [hji, List.count_singleton_self] at href
          rw [hji]
          omega
        · rw [View.node_setNode, if_neg hji, hnode] at hj hnlink
          have := hclosed.kept j hj hnlink
          omega
      · rw [htype, hnode]
        exact hroot

theorem linkBad_spec {cwd : ℕ} (hr : Ready sb E v cwd)
    (h : Rep sb s (w.setNode ip { w.node ip with nlink := n + 1 }))
    (hl : Looked v w [ip]) (hlt : ip < sb.ninodes) (hused : (w.node ip).type ≠ 0)
    (hn : (w.node ip).nlink = n) :
    wp (linkBad sb ip) s (fun _ t => Done sb P v t) E := by
  refine wp_bind (ilock_spec h hlt (fun _ => hr.tolerant _ (by simp)) fun hzero => ?_) ?_
  · rw [View.node_setNode, if_pos rfl] at hzero
    exact absurd hzero hused
  rintro - t ⟨ht, -⟩
  refine wp_bind (assign_nlink_spec (· - 1) ht (i := ip) ?_) fun _ t₁ ht₁ => ?_
  · rw [View.valid_lock, if_pos rfl]
  rw [View.lock_setNode, View.node_setNode, if_pos rfl, View.setNode_self] at ht₁
  have hback : (w.lock ip).setNode ip { w.node ip with nlink := n + 1 - 1 } = w.lock ip := by
    rw [BitVec.add_sub_cancel, ← hn]
    unfold View.setNode
    exact View.ext (Function.update_eq_self _ _) rfl rfl rfl rfl rfl
  rw [hback] at ht₁
  exact iput_done ht₁ (Moves.of_looked (hl.lock ip)) hlt (-1)

theorem linkNew_spec {cwd : ℕ} {path : List Byte} (hr : Ready sb E v cwd)
    (hsearch : Searchable sb w)
    (h : Rep sb s (w.setNode ip
      { w.node ip with nlink := (w.node ip).nlink + 1 }))
    (hl : Looked v w [ip]) (hlt : ip < sb.ninodes) (hpos : 0 < ip)
    (hnode : w.node ip = v.node ip) (hused : (w.node ip).type ≠ 0)
    (hfile : (w.node ip).type ≠ T_DIR) (hpath : ∀ b ∈ path, b ≠ 0)
    (hperm : ∀ dp n, v.nameiparent cwd path = some (dp, some n) → find (v.node dp).data n = none →
      ∀ w, Aged v w → w.node dp = v.node dp → w.node ip = v.node ip → P.entry w dp ∧ P.link w ip) :
    wp (linkNew sb cwd ip path) s (fun _ t => Done sb P v t) E := by
  set u := w.setNode ip { w.node ip with nlink := (w.node ip).nlink + 1 }
  have hru : Ready sb E u cwd := hr.of_link hl hsearch hfile
  have hwref : 0 < w.ref ip := by
    rw [hl.ref, List.count_cons_self]
    omega
  -- Without the additional link, the view is one that lookups can leave.
  have hback : ∀ {x held}, Looked u x held → Looked v (x.setNode ip (w.node ip)) (held ++ [ip]) ∧
      x = (x.setNode ip (w.node ip)).setNode ip
        { (x.setNode ip (w.node ip)).node ip with
          nlink := (w.node ip).nlink + 1 } := by
    intro x held hx
    obtain ⟨hself, hx'⟩ := hx.of_setNode hwref
    refine ⟨hl.trans hx', ?_⟩
    rw [View.setNode_self, View.node_setNode, if_pos rfl, ← hself]
    exact View.ext (Function.update_eq_self _ _).symm rfl rfl rfl rfl rfl
  have hbad : ∀ {x t}, Rep sb t x → Looked u x [] →
      wp (linkBad sb ip) t (fun _ t => Done sb P v t) E := by
    intro x t ht hx
    obtain ⟨hx', heq⟩ := hback hx
    rw [heq] at ht
    refine linkBad_spec hr ht hx' hlt ?_ ?_ <;> rw [View.node_setNode, if_pos rfl]
    exact hused
  refine wp_bind (nameiparent_spec hru h (Looked.refl u) hpath) ?_
  rintro r t ⟨x, ht, ⟨rfl, hx⟩ | ⟨dp, name, rfl, hfound, hdplt, hdir, hx⟩⟩
  · exact hbad ht hx
  have hne : dp ≠ ip := by
    rintro rfl
    rw [View.node_setNode, if_pos rfl] at hdir
    exact hfile hdir
  have hudp : u.node dp = w.node dp := by rw [View.node_setNode, if_neg hne]
  refine wp_bind (ilock_found hru ht hx hdplt fun _ _ => ?_) ?_
  · rw [hdir]
    exact T_DIR_ne_zero
  rintro - t₁ ⟨ht₁, hx₁, hv₁, hnode₁, -⟩
  set y := x.lock dp
  refine wp_bind (dirlink_spec ht₁ hv₁ (by rw [hnode₁, hdir])
    (by rw [hnode₁]; exact hru.searchable.aligned dp hdir) (fun k hk => ?_)
    (fun _ => hr.tolerant _ (by simp)) (hr.tolerant _ (by simp))
    (hr.tolerant _ (by simp))) fun r t₂ ht₂ => ?_
  · rw [hnode₁] at hk
    rw [View.inumAt, hnode₁]
    exact hru.searchable.range dp k hdir (find_eq_some_iff.mp hk).1
  cases hfind : find (y.node dp).data (nameOf (peek name)) with
  | some k =>
    rw [hfind] at ht₂
    obtain ⟨rfl, ht₂⟩ := ht₂
    rw [if_pos (by decide)]
    have hx₂ := (hx₁.hold (y.inumAt dp k)).release fun hv => by
      rw [View.valid_hold] at hv
      split at hv
      · cases hv
      · rw [View.node_hold]
        exact ht₁.type_ne_zero hv
    refine wp_bind (iput_spec ht₂ hdplt) fun _ t₃ ht₃ => ?_
    exact hbad ht₃ (hx₂.release ht₂.type_ne_zero)
  | none =>
    rw [hfind] at ht₂
    obtain ⟨rfl, ht₂⟩ := ht₂
    rw [if_neg (by decide)]
    obtain ⟨hl', heq⟩ := hback hx₁
    set z := y.setNode ip (w.node ip)
    have hzip : z.node ip = w.node ip := by rw [View.node_setNode, if_pos rfl]
    have hzdp : z.node dp = y.node dp := by rw [View.node_setNode, if_neg hne]
    have hvdp : z.node dp = v.node dp := by
      refine hl'.node_eq ?_
      rw [hzdp, hnode₁, hdir]
      exact T_DIR_ne_zero
    have hparent : v.nameiparent cwd path =
        some (dp, some (nameOf (peek name))) := by
      refine View.walk_of_dirs (fun d hd => ?_) hfound
      have hdip : d ≠ ip := by
        rintro rfl
        rw [View.node_setNode, if_pos rfl] at hd
        exact hfile hd
      rw [View.node_setNode, if_neg hdip] at hd ⊢
      exact hl.node_eq (by rw [hd]; exact T_DIR_ne_zero)
    obtain ⟨hentry, hlink⟩ := hperm dp _ hparent
      (by rw [← hvdp, hzdp, hfind]) z hl'.node hvdp (hzip.trans hnode)
    have hlinked : Move sb P ([dp, ip], z) ([dp, ip], z.linked dp ip (peek name)) := by
      refine .link (by simp) (by simp) ?_ ?_ hpos hlt ?_ ?_ hentry hlink
      · rw [hzdp, hnode₁, hdir]
      · rw [hzdp, hfind]
      · rw [hzip]
        exact hused
      · rw [hzip]
        exact hfile
    have hview : y.setNode dp { y.node dp with
        data := addEntry (y.node dp).data (peek name) ip } = z.linked dp ip (peek name) := by
      rw [View.linked, hzip, ← hzdp, heq, hzip]
    rw [hview] at ht₂
    refine wp_bind (iput_spec ht₂ hdplt) fun _ t₃ ht₃ => ?_
    refine iput_done ht₃ ?_ hlt 0
    exact ((Moves.of_looked hl').tail hlinked).tail (.release ht₂.type_ne_zero)

theorem sysLink_spec {cwd : ℕ} {old new : Option Path}
    (hr : Ready sb E v cwd) (h : Rep sb s v) (hbase : Base sb [] v)
    (hperm : ∀ q q', old = some q → new = some q' → ∀ ip dp n,
      v.namei cwd q.bytes = some ip → (v.node ip).type ≠ T_DIR →
      v.nameiparent cwd q'.bytes = some (dp, some n) →
      find (v.node dp).data n = none →
      ∀ w, Aged v w → w.node dp = v.node dp → w.node ip = v.node ip → P.entry w dp ∧ P.link w ip) :
    wp (sysLink sb cwd old new) s (fun _ t => Done sb P v t) E := by
  rcases old with - | old
  · exact wp_pure (Done.refl h)
  rcases new with - | new
  · exact wp_pure (Done.refl h)
  refine namei_ilock_spec hr h old.nonzero (fun w t ht hl => wp_pure (Done.of_looked ht hl)) ?_
  intro ip w t hname hlt ht hl hv hnode hused
  refine wp_read_bind ?_
  rw [(ht.icache_eq hv).1]
  refine wp_ite (fun _ => iput_done ht (Moves.of_looked hl) hlt (-1)) fun hfile => ?_
  refine wp_bind (assign_nlink_spec (· + 1) ht hv) fun _ t₁ ht₁ => ?_
  refine linkNew_spec hr ?_ ht₁ hl hlt (hr.namei_pos hname) hnode
    (by rw [hnode]; exact hused) hfile new.nonzero fun dp n =>
      hperm old new rfl rfl ip dp n hname (by rw [← hnode]; exact hfile)
  exact (hbase.moves hr.ninodes_le (P := P) (Moves.of_looked hl)).searchable

theorem bytes_freshMemory : freshMemory.bytes 0 direntSize = freeDirent.bytes := by
  decide

theorem unlinkEntry_spec {isdir : Bool} {k : ℕ} (hE : Tolerant E)
    (h : Rep sb s w) (hm : Moves sb P ([], v) ([ip, dp], w))
    (hdp : w.valid dp = true) (hip : w.valid ip = true)
    (hdir : (w.node dp).type = T_DIR) (hk : 2 ≤ k)
    (hused : (entry (w.node dp).data k).inum ≠ 0) (hinum : w.inumAt dp k = ip)
    (hnlink : 1 ≤ (w.node ip).nlink.toInt)
    (hisdir : isdir = true ↔ (w.node ip).type = T_DIR)
    (hempty : (w.node ip).type = T_DIR → EmptyDir (w.node ip).data)
    (hperm : P.unlink w ip) :
    wp (unlinkEntry sb dp ip (direntSize * k) isdir) s (fun _ t => Done sb P v t) E := by
  have hne : dp ≠ ip := ne_of_unlink hdir hk hused hempty
  refine wp_bind (write_entry_spec h hdp bytes_freshMemory
    (lt_slots_iff.mp (lt_slots_of_used hused)).le (hE _ (by simp)))
    fun r t ht => ?_
  refine wp_ite (fun _ => wp_fail (hE _ (by simp))) fun hr => ?_
  replace ht := ht (not_not.mp hr)
  set parent : Node := { w.node dp with
    nlink := if (w.node ip).type = T_DIR then (w.node dp).nlink - 1 else (w.node dp).nlink
    data := setEntry (w.node dp).data k freeDirent }
  refine wp_bind (R := fun _ t => Rep sb t (w.setNode dp parent)) ?_ fun _ t₁ ht₁ => ?_
  · refine wp_ite (fun hd => ?_) fun hd => wp_pure ?_
    · refine wp_mono (assign_nlink_spec (· - 1) ht hdp) fun _ t₁ ht₁ => ?_
      rw [View.setNode_self, View.node_setNode, if_pos rfl] at ht₁
      rw [show parent = _ from congrArg (fun n => { w.node dp with
        nlink := n, data := setEntry (w.node dp).data k freeDirent })
        (if_pos (hisdir.mp hd))]
      exact ht₁
    · rw [show parent = _ from congrArg (fun n => { w.node dp with
        nlink := n, data := setEntry (w.node dp).data k freeDirent })
        (if_neg fun hx => hd (hisdir.mpr hx))]
      exact ht
  refine wp_bind (iput_spec ht₁ (h.lt_of_valid hdp)) fun _ t₂ ht₂ => ?_
  refine wp_bind (assign_nlink_spec (· - 1) ht₂ (i := ip) ?_) fun _ t₃ ht₃ => ?_
  · rw [View.valid_release, if_neg fun hx => hne hx.1.symm]
    exact hip
  have hview : ((w.setNode dp parent).release dp).setNode ip
      { w.node ip with nlink := (w.node ip).nlink - 1 } =
        (w.unlinked dp ip k).release dp := by
    rw [View.unlinked, View.release_setNode _ hne]
  rw [View.node_release, if_neg fun hx => hne hx.1.symm, View.node_setNode,
    if_neg hne.symm, hview] at ht₃
  have hunlink : Move sb P ([ip, dp], w) ([ip, dp], w.unlinked dp ip k) :=
    .unlink (by simp) (by simp) hdir hk hused hinum hip (h.type_ne_zero hip) hnlink hempty hperm
  refine iput_done ht₃ ?_ (h.lt_of_valid hip) 0
  refine ((hm.tail hunlink).tail (.perm (List.Perm.swap _ _ _))).tail (.release fun _ => ?_)
  rw [View.node_unlinked, if_neg hne, if_pos rfl]
  exact fun hzero => T_DIR_ne_zero (hdir.symm.trans hzero)

theorem sysUnlink_spec {cwd : ℕ} (hr : Ready sb E v cwd) (h : Rep sb s v) (hbase : Base sb [] v)
    (hperm : ∀ q, path = some q → ∀ dp n k, v.nameiparent cwd q.bytes = some (dp,
      some n) → 2 ≤ k → find (v.node dp).data n = some k →
      ((v.node (v.inumAt dp k)).type = T_DIR →
      EmptyDir (v.node (v.inumAt dp k)).data) → ∀ w, Aged v w →
      w.node (v.inumAt dp k) = v.node (v.inumAt dp k) → P.unlink w (v.inumAt dp k)) :
    wp (sysUnlink sb cwd path) s (fun _ t => Done sb P v t) E := by
  rcases path with - | q
  · exact wp_pure (Done.refl h)
  refine wp_bind (nameiparent_spec hr h (Looked.refl v) q.nonzero) ?_
  rintro r t ⟨w, ht, ⟨rfl, hl⟩ | ⟨dp, name, rfl, hfound, hdplt, hdir, hl⟩⟩
  · exact wp_pure (Done.of_looked ht hl)
  refine wp_bind (ilock_found hr ht hl hdplt fun _ _ => ?_) ?_
  · rw [hdir]
    exact T_DIR_ne_zero
  rintro - t₁ ⟨ht₁, hl₁, hv₁, hnode₁, -⟩
  refine wp_ite (fun _ => iput_done ht₁ (Moves.of_looked hl₁) hdplt (-1)) fun hdots => ?_
  rw [namecmp_eq_zero_iff, namecmp_eq_zero_iff] at hdots
  refine wp_bind (dirlookup_found hr ht₁ hl₁ hv₁ hnode₁ hdir) fun r t₂ ht₂ => ?_
  cases hfind : find (v.node dp).data (nameOf (peek name)) with
  | none =>
    rw [hfind] at ht₂
    obtain ⟨rfl, ht₂⟩ := ht₂
    exact iput_done ht₂ (Moves.of_looked hl₁) hdplt (-1)
  | some k =>
    rw [hfind] at ht₂
    obtain ⟨rfl, ht₂, hl₂, hlt⟩ := ht₂
    obtain ⟨hused, hlabel, -⟩ := find_eq_some_iff.mp hfind
    -- The first two entries are `.` and `..`.
    have hd := hbase.dirs dp hdir
    have hk : 2 ≤ k := by
      by_contra hge
      obtain rfl | rfl : k = 0 ∨ k = 1 := by omega
      · exact hdots (Or.inl (hlabel.symm.trans (hd.dot_label.trans (by decide))))
      · exact hdots (Or.inr (hlabel.symm.trans (hd.dotdot_label.trans (by decide))))
    set ip := v.inumAt dp k
    refine wp_bind (ilock_found hr ht₂ hl₂ hlt fun hclosed _ => hclosed.used dp k hdir hused) ?_
    rintro - t₃ ⟨ht₃, hl₃, hv₃, hnode₃, -⟩
    set y := ((w.lock dp).hold ip).lock ip
    have hydp : y.node dp = v.node dp := by
      change (((w.lock dp).hold ip)).node dp = _
      rw [View.node_hold, hnode₁]
    have hyvalid : y.valid dp = true := by
      rw [View.valid_lock, View.valid_hold, hv₁]
      split
      next => rfl
      next hne => rw [if_neg fun hx => hne hx.1]
    refine wp_read_bind ?_
    rw [(ht₃.icache_eq hv₃).2.2.1, (ht₃.icache_eq hv₃).1]
    refine wp_ite (fun _ => wp_fail (hr.tolerant _ (by simp))) fun hnlink => ?_
    rw [not_lt] at hnlink
    have hinum : y.inumAt dp k = ip := by
      rw [View.inumAt, hydp]
      rfl
    have hentry : ∀ isdir, (isdir = true ↔ (y.node ip).type = T_DIR) →
        ((y.node ip).type = T_DIR → EmptyDir (y.node ip).data) →
        wp (unlinkEntry sb dp ip (direntSize * k) isdir) t₃ (fun _ t => Done sb P v t) E := by
      intro isdir hisdir hempty
      exact unlinkEntry_spec hr.tolerant ht₃ (Moves.of_looked hl₃) hyvalid hv₃
        (by rw [hydp, hdir]) hk (by rw [hydp]; exact hused) hinum hnlink
        hisdir hempty (hperm q rfl dp _ k hfound hk hfind
          (by rw [← hnode₃]; exact hempty) y hl₃.node hnode₃)
    refine wp_ite (fun htype => ?_) fun htype =>
      hentry false (by simp [htype]) fun hx => absurd hx htype
    refine wp_bind (isdirempty_spec ht₃ hv₃ ?_) ?_
    · rw [hnode₃]
      rw [hnode₃] at htype
      exact hr.searchable.aligned ip htype
    rintro empty t₄ ⟨rfl, hempty⟩
    refine wp_ite (fun hx => hentry true (by simp [htype]) fun _ => hempty.mp hx) fun _ => ?_
    refine wp_bind (iput_spec ht₃ hlt) fun _ t₅ ht₅ => ?_
    exact iput_done ht₅ (Moves.of_looked (hl₃.release ht₃.type_ne_zero)) hdplt (-1)

/-! ## The other calls -/

theorem sysChdir_spec {p : Fin NPROC} {cwd : ℕ} (hr : Ready sb E v cwd) (h : Rep sb s v)
    (hcwd : (v.proc p).cwd = some cwd) :
    wp (sysChdir sb p cwd path) s (fun _ t => Done sb P v t) E := by
  rcases path with - | q
  · exact wp_pure (Done.refl h)
  refine namei_ilock_spec hr h q.nonzero (fun w t ht hl => wp_pure (Done.of_looked ht hl)) ?_
  intro ip w t _ hlt ht hl hv _ _
  refine wp_read_bind ?_
  rw [(ht.icache_eq hv).1]
  refine wp_ite (fun _ => iput_done ht (Moves.of_looked hl) hlt (-1)) fun hdir => ?_
  refine wp_bind (iput_spec ht (hr.cwd_lt ht hl)) fun _ t₁ ht₁ => ?_
  refine wp_update_bind (wp_pure ⟨_, ht₁.setProc p _, ?_⟩)
  have hchdir : Move sb P ([ip], w) ([cwd], w.setProc p fun proc => { proc with cwd := some ip }) :=
    .chdir (by rw [hl.proc, hcwd]) (not_not.mp hdir)
  exact ((Moves.of_looked hl).tail hchdir).tail (.release ht.type_ne_zero)

theorem sysClose_spec {p : Fin NPROC} (hE : Tolerant E) (h : Rep sb s v)
    (hbase : Base sb [] v) (hsb : sb.ninodes ≤ 2 ^ 16) :
    wp (sysClose sb p fd) s (fun _ t => Done sb P v t) E := by
  refine wp_bind (argfd_spec h) ?_
  rintro (- | ⟨fd, f⟩) t ht
  · exact wp_pure (Done.refl ht)
  · have hfds : Move sb P ([], v) ([], v.setProc p _) := .fds p
      (fun proc => { proc with ofile := Function.update proc.ofile fd none }) rfl
    refine wp_update_bind ?_
    refine wp_bind (fileclose_spec (P := P) hE (ht.setProc p _) (hbase.move hsb hfds)) ?_
    rintro - t₁ ⟨w, ht₁, -, hm⟩
    exact wp_pure ⟨w, ht₁, (ReflTransGen.single hfds).trans hm⟩

/-- The offset of an open file changes. -/
theorem advance_spec {r : ℤ} (h : Rep sb s w) (hbase : Base sb L w) :
    wp (advance f r) s (fun _ t => ∃ w', Rep sb t w' ∧ Move sb P (L, w) (L, w') ∧
        SameFile (w.file f) (w'.file f)) E := by
  have hsame : ∀ off, SameFile (w.file f) { w.file f with off := off } :=
    fun _ => ⟨rfl, rfl, rfl, hbase.closed f⟩
  refine wp_update ⟨_, h.setFile f _, .file f (hsame _), ?_⟩
  unfold View.setFile
  dsimp only
  rw [Function.update_self]
  exact hsame _

/-- Locking the inode of an open file. -/
theorem ilock_open (hE : Tolerant E) (h : Rep sb s w) (hbase : Base sb L w)
    (htype : (w.file f).type = .inode) :
    wp (ilock sb (w.file f).ip) s (fun _ t => Rep sb t (w.lock (w.file f).ip) ∧
        (w.lock (w.file f).ip).valid (w.file f).ip = true) E := by
  have hused := (hbase.files f _ ⟨Or.inl htype, rfl⟩).1
  refine wp_mono (ilock_spec h (h.lt_of_type hused) (fun _ => hE _ (by simp))
    fun hzero => absurd hzero hused) ?_
  rintro - t ⟨ht, -⟩
  exact ⟨ht, by rw [View.valid_lock, if_pos rfl]⟩

theorem sysRead_spec {p : Fin NPROC} {n : BitVec 32} (hE : Tolerant E) (h : Rep sb s v)
    (hbase : Base sb [] v) (hsb : sb.ninodes ≤ 2 ^ 16) :
    wp (sysRead sb p fd mem addr n other) s (fun _ t => Done sb P v t) E := by
  refine wp_bind (argfd_spec h) ?_
  rintro (- | ⟨fd, f⟩) t ht
  · exact wp_pure (Done.refl ht)
  refine wp_bind (R := fun _ t => Done sb P v t) ?_ fun _ _ hd => wp_pure hd
  refine wp_read_bind (wp_ite (fun _ => wp_pure (Done.refl ht)) fun _ => ?_)
  split
  · exact wp_pure (Done.refl ht)
  · exact wp_pure (Done.refl ht)
  next htype =>
    rw [ht.file_eq] at htype ⊢
    refine wp_bind (ilock_open hE ht hbase htype) ?_
    rintro - t₁ ⟨ht₁, hv₁⟩
    have hlock : Move sb P ([], v) ([], v.lock (v.file f).ip) := .lock _
    refine wp_bind (readi_spec ht₁ hv₁ n.isLt) ?_
    rintro r t₂ rfl
    refine wp_bind (advance_spec (P := P) ht₁ (hbase.move hsb hlock)) ?_
    rintro - t₃ ⟨w, ht₃, hmove, -⟩
    exact wp_pure ⟨w, ht₃, (ReflTransGen.single hlock).tail hmove⟩
  · exact wp_fail (hE _ (by simp))

theorem filewriteLoop_spec {n : ℕ} (hE : Tolerant E) (h : Rep sb s w)
    (hbase : Base sb [] w) (hsb : sb.ninodes ≤ 2 ^ 16) (hm : Moves sb P ([], v) ([], w))
    (htype : (w.file f).type = .inode) (hwrite : (w.file f).writable = true) :
    wp (filewriteLoop sb f mem addr n i) s (fun _ t => Done sb P v t) E := by
  induction hfuel : n - i using Nat.strong_induction_on generalizing i s w with
  | _ fuel ih =>
    have hmax : 0 < maxWrite := by decide
    unfold filewriteLoop
    refine wp_ite (fun hi => wp_read_bind ?_) fun _ => wp_pure ⟨w, h, hm⟩
    rw [h.file_eq]
    set ip := (w.file f).ip
    obtain ⟨hused, hdir⟩ := hbase.files f ip ⟨Or.inl htype, rfl⟩
    refine wp_bind (ilock_open hE h hbase htype) ?_
    rintro - t₁ ⟨ht₁, hv₁⟩
    have hlock : Move sb P ([], w) ([], w.lock ip) := .lock _
    refine wp_bind (writei_spec ht₁ hv₁ ?_ (hE _ (by simp))) ?_
    · exact lt_of_le_of_lt (min_le_right _ _) (by decide)
    rintro r t₂ ⟨data, ht₂⟩
    have hdata : Move sb P ([], w.lock ip) ([], (w.lock ip).setNode ip
        { (w.lock ip).node ip with data := data }) :=
      .data data hused (hdir hwrite)
    have hbase₂ := (hbase.move hsb hlock).move hsb hdata
    refine wp_bind (advance_spec (P := P) ht₂ hbase₂) ?_
    rintro - t₃ ⟨w', ht₃, hmove, hsame⟩
    have hm' := ((hm.tail hlock).tail hdata).tail hmove
    refine wp_ite (fun _ => wp_pure ⟨w', ht₃, hm'⟩) fun _ =>
      wp_ite (fun _ => wp_fail (hE _ (by simp))) fun _ => ?_
    exact ih (n - (i + min (n - i) maxWrite)) (by omega) ht₃
      (hbase₂.move hsb hmove) hm' (hsame.type.trans htype)
      (hsame.writable.trans hwrite) rfl

theorem sysWrite_spec {p : Fin NPROC} {n : BitVec 32} (hE : Tolerant E) (h : Rep sb s v)
    (hbase : Base sb [] v) (hsb : sb.ninodes ≤ 2 ^ 16) :
    wp (sysWrite sb p fd mem addr n other) s (fun _ t => Done sb P v t) E := by
  refine wp_bind (argfd_spec h) ?_
  rintro (- | ⟨fd, f⟩) t ht
  · exact wp_pure (Done.refl ht)
  refine wp_read_bind (wp_ite (fun _ => wp_pure (Done.refl ht)) fun hwrite => ?_)
  rw [ht.file_eq] at hwrite ⊢
  split
  · exact wp_pure (Done.refl ht)
  · exact wp_pure (Done.refl ht)
  next htype =>
    refine wp_bind (filewriteLoop_spec hE ht hbase hsb .refl htype
      (by simpa using hwrite)) fun _ _ hd => wp_pure hd
  · exact wp_fail (hE _ (by simp))

theorem exitClose_spec {p : Fin NPROC} {fd : Fin NOFILE} (hE : Tolerant E)
    (h : Rep sb s w) (hbase : Base sb [] w) :
    wp (exitClose sb p fd) s (fun _ t => ∃ w', Rep sb t w' ∧ (w'.proc p).cwd = (w.proc p).cwd ∧
        Moves sb P ([], w) ([], w')) E := by
  refine wp_read_bind ?_
  split
  · exact wp_pure ⟨w, h, rfl, .refl⟩
  · refine wp_bind (fileclose_spec (P := P) hE h hbase) ?_
    rintro - t ⟨w', ht, hproc, hm⟩
    refine wp_update ⟨_, ht.setProc p _, ?_, hm.tail (.fds p _ rfl)⟩
    unfold View.setProc
    dsimp only
    rw [Function.update_self, hproc]

theorem exit_spec {p : Fin NPROC} {cwd : ℕ} (hE : Tolerant E)
    (h : Rep sb s v) (hbase : Base sb [] v) (hsb : sb.ninodes ≤ 2 ^ 16)
    (hcwd : (v.proc p).cwd = some cwd) :
    wp (exit sb p cwd) s (fun _ t => Done sb P v t) E := by
  -- While files are closed, the process keeps its current directory.
  have hfiles : wp ((List.finRange NOFILE).forM (exitClose sb p)) s
      (fun _ t => ∃ w, Rep sb t w ∧ (w.proc p).cwd = some cwd ∧ Moves sb P ([], v) ([], w)) E := by
    refine wp_forM ?_ ⟨v, h, hcwd, .refl⟩
    rintro fd - t ⟨w, ht, hcwd', hm⟩
    refine wp_mono (exitClose_spec (P := P) hE ht (hbase.moves hsb hm)) ?_
    rintro - t' ⟨w', ht', heq, hm'⟩
    exact ⟨w', ht', heq.trans hcwd', hm.trans hm'⟩
  refine wp_bind hfiles ?_
  rintro - t ⟨w, ht, hcwd', hm⟩
  have hdir := (hbase.moves hsb hm).cwds p cwd hcwd'
  have hlt : cwd < sb.ninodes := by
    refine ht.lt_of_type ?_
    rw [hdir]
    exact T_DIR_ne_zero
  refine wp_bind (iput_spec ht hlt) fun _ t₁ ht₁ => ?_
  refine wp_update ⟨_, ht₁.setProc p _, ?_⟩
  exact (hm.tail (.exit hcwd')).tail (.release ht.type_ne_zero)

/-! ## All calls -/

/-- An entry for this path would be made in directory `dp`. -/
def NewEntry (v : View) (cwd : ℕ) (path : Option Path) (dp : ℕ) : Prop :=
  ∃ q n, path = some q ∧ v.nameiparent cwd q.bytes = some (dp, some n) ∧
    find (v.node dp).data n = none

namespace Call

/-- The call tries to make an entry in directory `dp`. -/
def Enters (v : View) (cwd : ℕ) (dp : ℕ) : Call → Prop
  | .open path omode => omode &&& O_CREATE ≠ 0 ∧ NewEntry v cwd path dp
  | .mkdir path => NewEntry v cwd path dp
  | .mknod path _ _ => NewEntry v cwd path dp
  | .link _ new => NewEntry v cwd new dp
  | _ => False

/-- The call counts one more link to inode `i`. -/
def Counts (v : View) (cwd : ℕ) (i : ℕ) : Call → Prop
  | .mkdir path => NewEntry v cwd path i
  | .link old new => (∃ q, old = some q ∧ v.namei cwd q.bytes = some i) ∧
      (v.node i).type ≠ T_DIR ∧ ∃ dp, NewEntry v cwd new dp
  | _ => False

/-- The call tries to remove an entry of inode `i`. -/
def Removes (v : View) (cwd : ℕ) (i : ℕ) : Call → Prop
  | .unlink path => ∃ q dp n k, path = some q ∧
      v.nameiparent cwd q.bytes = some (dp, some n) ∧ 2 ≤ k ∧
      find (v.node dp).data n = some k ∧ v.inumAt dp k = i ∧
      ((v.node i).type = T_DIR → EmptyDir (v.node i).data)
  | _ => False

/-- What the call does is allowed, even if lookups free some inodes first. -/
structure Permitted (P : Policy) (v : View) (cwd : ℕ) (c : Call) : Prop where
  entry : ∀ w dp, Aged v w → w.node dp = v.node dp → c.Enters v cwd dp → P.entry w dp
  link : ∀ w i, Aged v w → w.node i = v.node i → c.Counts v cwd i → P.link w i
  unlink : ∀ w i, Aged v w → w.node i = v.node i → c.Removes v cwd i → P.unlink w i

/-- A call that is allowed what it does is a sequence of moves. -/
theorem run_spec {c : Call} {p : Fin NPROC} {cwd : ℕ}
    (hr : Ready sb E v cwd) (h : Rep sb s v) (hbase : Base sb [] v)
    (hcwd : (v.proc p).cwd = some cwd) (hperm : c.Permitted P v cwd) :
    wp (c.run sb p cwd) s (fun _ t => Done sb P v t) E := by
  cases c with
  | «open» path omode =>
    refine sysOpen_spec hr h hbase fun q hq hcreate dp n hdp hfind w hw hnode =>
      hperm.entry w dp hw hnode ⟨hcreate, q, n, hq, hdp, hfind⟩
  | mkdir path =>
    refine sysCreate_spec 0 0 hr h (by decide) fun q hq dp n hdp hfind w hw hnode => ?_
    have hnew : NewEntry v cwd path dp := ⟨q, n, hq, hdp, hfind⟩
    exact ⟨hperm.entry w dp hw hnode hnew, fun _ => hperm.link w dp hw hnode hnew⟩
  | mknod path major minor =>
    refine sysCreate_spec _ _ hr h (by decide) fun q hq dp n hdp hfind w hw hnode => ?_
    exact ⟨hperm.entry w dp hw hnode ⟨q, n, hq, hdp, hfind⟩, fun hdir => absurd hdir (by decide)⟩
  | link old new =>
    refine sysLink_spec hr h hbase fun q q' hq hq' ip dp n hip hfile hdp hfind
      w hw hnode hnode' => ?_
    have hnew : NewEntry v cwd new dp := ⟨q', n, hq', hdp, hfind⟩
    exact ⟨hperm.entry w dp hw hnode hnew,
      hperm.link w ip hw hnode' ⟨⟨q, hq, hip⟩, hfile, dp, hnew⟩⟩
  | unlink path =>
    refine sysUnlink_spec hr h hbase fun q hq dp n k hdp hk hfind hempty w hw hnode => ?_
    exact hperm.unlink w _ hw hnode ⟨q, dp, n, k, hq, hdp, hk, hfind, rfl, hempty⟩
  | chdir path => exact sysChdir_spec hr h hcwd
  | close fd => exact sysClose_spec hr.tolerant h hbase hr.ninodes_le
  | read fd mem addr n other => exact sysRead_spec hr.tolerant h hbase hr.ninodes_le
  | write fd mem addr n other => exact sysWrite_spec hr.tolerant h hbase hr.ninodes_le
  | exit =>
    exact wp_bind (exit_spec hr.tolerant h hbase hr.ninodes_le hcwd) fun _ _ hd => wp_pure hd

end Call

/-! ## Runs of calls -/

/-- A state between calls.  Blocks and the bitmap are consistent and files have
no holes, directories are well formed and name existing inodes, and every
reference to an inode is that of an open file or a current directory. -/
structure Mounted (sb : Superblock) (s : State) : Prop where
  ninodes_le : sb.ninodes ≤ 2 ^ 16
  root_lt : ROOTINO < sb.ninodes
  consistent : Consistent sb s.fs
  noHoles : NoHoles sb s.fs
  base : Base sb [] (s.view sb)

namespace Mounted

variable {t : State} {p : Fin NPROC} {c : Call} {cwd : ℕ}

theorem rep (h : Mounted sb s) : Rep sb s (s.view sb) := ⟨h.consistent, h.noHoles, rfl⟩

theorem ready (h : Mounted sb s) (hcwd : (s.proc p).cwd = some cwd)
    (hE : Tolerant E) (hsafe : E (.fs .ilockNoType) ∨
      Closed (s.view sb) ∧ ((s.view sb).node ROOTINO).type ≠ 0) :
    Ready sb E (s.view sb) cwd := by
  have hdir := h.base.cwds p cwd hcwd
  refine ⟨h.ninodes_le, h.root_lt, h.base.searchable, ?_, ?_, hdir, hE, hsafe⟩
  · refine Nat.pos_of_ne_zero ?_
    rintro rfl
    exact (h.base.inum_of_dir h.ninodes_le hdir).1 rfl
  · rw [h.base.refs]
    exact Nat.add_pos_left (holders_pos_of_cwd hcwd) _

/-- What a completed call does to the view. -/
theorem step_moves (h : Mounted sb s) (hcwd : (s.proc p).cwd = some cwd)
    (hperm : c.Permitted P (s.view sb) cwd)
    (hstep : step sb s (p, c) = some t) :
    Moves sb P ([], s.view sb) ([], t.view sb) ∧ Mounted sb t := by
  have hrun := Call.run_spec (P := P) (c := c) (E := fun _ => True)
    (h.ready hcwd (fun _ _ => trivial) (Or.inl trivial)) h.rep h.base hcwd hperm
  unfold step at hstep
  rw [hcwd] at hstep
  dsimp only at hstep
  split at hstep
  next r u hok =>
    cases hstep
    obtain ⟨w, ht, hm⟩ := wp_ok hrun hok
    obtain rfl := ht.eq
    exact ⟨hm, h.ninodes_le, h.root_lt, ht.consistent, ht.noHoles, h.base.moves h.ninodes_le hm⟩
  next => cases hstep

theorem cwd_of_step (hstep : step sb s (p, c) = some t) : ∃ cwd, (s.proc p).cwd = some cwd := by
  unfold step at hstep
  dsimp only at hstep
  split at hstep
  next => cases hstep
  next cwd hcwd => exact ⟨cwd, hcwd⟩

end Mounted

end OsCa.Sysfile
