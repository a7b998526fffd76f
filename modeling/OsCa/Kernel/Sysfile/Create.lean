import OsCa.Kernel.Sysfile.Moves

/-!
# Creating and opening files

`create` and `sys_open` as sequences of moves, whatever they do and wherever
they fail.  The only panic that needs care is that of `ilock` on a free inode;
it cannot happen if lookups find allocated inodes only.
-/

namespace OsCa.Sysfile

open Bytes Fs OsCa.Action Relation

variable {sb : Superblock} {P : Policy} {s : State} {v w : View}
  {E : Panic → Prop} {i dp ip : ℕ}

variable {j d : ℕ} {type : Short} {ns : List Name} {n : Option Name} {parent : Bool}
  {p : Fin NPROC} {f : Fin NFILE} {omode : BitVec 32}

/-! ## Views of inodes that are changed one after another -/

namespace View

theorem setNode_self (v : View) (i : ℕ) (n n' : Node) :
    (v.setNode i n).setNode i n' = v.setNode i n' := by
  unfold setNode
  simp only [Function.update_idem]

theorem setNode_comm (v : View) (hij : i ≠ j) (n n' : Node) :
    (v.setNode i n).setNode j n' = (v.setNode j n').setNode i n := by
  unfold setNode
  simp only [Function.update_comm hij]

theorem hold_setNode (v : View) (i j : ℕ) (n : Node) :
    (v.setNode j n).hold i = (v.hold i).setNode j n := by
  unfold hold
  change (if 0 < v.ref i then _ else _) = _
  split <;> rfl

theorem lock_setNode (v : View) (i j : ℕ) (n : Node) :
    (v.setNode j n).lock i = (v.lock i).setNode j n := rfl

/-- Dropping a reference does not depend on other inodes. -/
theorem release_setNode (v : View) (hij : i ≠ j) (n : Node) :
    (v.setNode j n).release i = (v.release i).setNode j n := by
  have hnode : (v.setNode j n).node i = v.node i := by rw [node_setNode, if_neg hij]
  have hdying : (v.setNode j n).Dying i ↔ v.Dying i := by
    unfold Dying
    rw [hnode]
    rfl
  refine View.ext ?_ ?_ rfl rfl rfl rfl
  · funext l
    rw [node_release, hnode, node_setNode, node_setNode, node_release]
    simp only [hdying]
    by_cases hl : l = i
    · simp [hl, hij]
    · simp [hl]
  · funext l
    change _ = (v.release i).valid l
    rw [valid_release, valid_release]
    simp only [hdying]
    rfl

end View

/-! ## Making a new inode -/

/-- The entries `.` and `..` of a new directory. -/
theorem createDots_spec (hsb : sb.ninodes ≤ 2 ^ 16) (hE : Tolerant E)
    (h : Rep sb s w) (hdp : w.valid dp = true) (hip : w.valid ip = true)
    (hne : dp ≠ ip) (hpos : 0 < ip) (htype : (w.node ip).type = T_DIR)
    (hdata : (w.node ip).data = []) :
    wp (createDots sb dp ip) s (fun _ t => Rep sb t
        ((w.setNode dp { w.node dp with nlink := (w.node dp).nlink + 1 }).setNode
          ip { w.node ip with data := dots ip dp })) E := by
  have hinum := (ofNat_inum hsb hpos (h.lt_of_valid hip)).1
  refine wp_bind (assign_nlink_spec (· + 1) h hdp) fun _ t ht => ?_
  set u := w.setNode dp { w.node dp with nlink := (w.node dp).nlink + 1 }
  have hu : u.node ip = w.node ip := by rw [View.node_setNode, if_neg hne.symm]
  have hfirst : find (u.node ip).data (nameOf (literal dot)) = none := by
    rw [hu, hdata]
    rfl
  refine wp_bind (dirlink_new_spec ht hip (by rw [hu, htype])
    (by rw [hu, hdata]; exact dvd_zero _) hfirst (hE _ (by simp)) (hE _ (by simp))) ?_
  rintro r t₁ ⟨rfl, ht₁⟩
  rw [if_neg (by decide)]
  set x := u.setNode ip
    { u.node ip with data := addEntry (u.node ip).data (literal dot) ip }
  have hx : x.node ip = { w.node ip with
      data := addEntry [] (literal dot) ip } := by
    rw [View.node_setNode, if_pos rfl, hu, hdata]
  have hsecond : find (x.node ip).data (nameOf (literal dotdot)) = none := by
    rw [hx]
    exact find_dots_first
  refine wp_bind (dirlink_new_spec ht₁ hip (by rw [hx]; exact htype)
    (by rw [hx]; exact aligned_dots_first) hsecond (hE _ (by simp)) (hE _ (by simp))) ?_
  rintro r t₂ ⟨rfl, ht₂⟩
  rw [if_neg (by decide)]
  refine wp_pure ?_
  rw [View.setNode_self, hx] at ht₂
  exact ht₂

theorem createNew_spec {name : NameBuffer} {major minor : Short}
    (hsb : sb.ninodes ≤ 2 ^ 16) (hE : Tolerant E) (h : Rep sb s w)
    (hdp : w.valid dp = true) (hdir : (w.node dp).type = T_DIR)
    (halign : direntSize ∣ (w.node dp).data.length)
    (hnew : find (w.node dp).data (nameOf (peek name)) = none) (htype : type ≠ 0) :
    wp (createNew sb dp name type major minor) s
      (fun ip t => 0 < ip ∧ ip < sb.ninodes ∧ (w.node ip).type = 0 ∧
        Rep sb t ((w.created dp ip (peek name) type major minor).release dp))
      E := by
  refine wp_bind (ialloc_spec h (hE _ (by simp)) fun _ => hE _ (by simp)) ?_
  rintro ip t ⟨hpos, hlt, hfree, ht⟩
  have hne : dp ≠ ip := by
    rintro rfl
    rw [hdir] at hfree
    exact T_DIR_ne_zero hfree
  rw [View.hold_setNode] at ht
  set x := w.hold ip
  refine wp_bind (ilock_spec ht hlt (fun hzero => hE _ (by simp)) fun hzero => ?_) ?_
  · rw [View.node_setNode, if_pos rfl] at hzero
    exact absurd hzero htype
  rintro - t₁ ⟨ht₁, -⟩
  rw [View.lock_setNode] at ht₁
  set y := x.lock ip
  have hyip : y.valid ip = true := by rw [View.valid_lock, if_pos rfl]
  have hydp : y.valid dp = true := by
    rw [View.valid_lock, if_neg hne, View.valid_hold, if_neg fun hx => hne hx.1]
    exact hdp
  have hynode : y.node = w.node := View.node_hold w ip
  refine wp_bind (assign_spec ht₁ hyip rfl) fun _ t₂ ht₂ => ?_
  rw [View.node_setNode, if_pos rfl, View.setNode_self] at ht₂
  -- The links and entries that only a directory gets.
  refine wp_bind (R := fun _ t => Rep sb t ((y.setNode ip ⟨type, major, minor,
      1, if type = T_DIR then dots ip dp else []⟩).setNode dp
        { w.node dp with
          nlink := if type = T_DIR then (w.node dp).nlink + 1
            else (w.node dp).nlink })) ?_ fun _ t₃ ht₃ => ?_
  · refine wp_ite (fun htd => ?_) fun htd => wp_pure ?_
    · refine wp_mono (createDots_spec hsb hE ht₂ hydp hyip hne hpos ?_ ?_) fun _ t₃ ht₃ => ?_
      · rw [View.node_setNode, if_pos rfl]
        exact htd
      · rw [View.node_setNode, if_pos rfl]
        rfl
      · rw [View.node_setNode, if_neg hne, View.node_setNode, if_pos rfl,
          View.setNode_comm _ hne.symm, View.setNode_self, hynode] at ht₃
        rw [if_pos htd, if_pos htd, View.setNode_comm _ hne.symm]
        exact ht₃
    · have hself : ({ w.node dp with nlink := (w.node dp).nlink } : Node) =
          (y.setNode ip ⟨type, major, minor, 1, []⟩).node dp := by
        rw [View.node_setNode, if_neg hne, hynode]
      rw [if_neg htd, if_neg htd, hself]
      refine (congrArg (Rep sb t₂) ?_).mpr ht₂
      refine View.ext ?_ rfl rfl rfl rfl rfl
      simp [View.setNode]
      rfl
  set parent : Node := { w.node dp with
    nlink := if type = T_DIR then (w.node dp).nlink + 1 else (w.node dp).nlink }
  set z := (y.setNode ip ⟨type, major, minor, 1,
    if type = T_DIR then dots ip dp else []⟩).setNode dp parent
  have hz : z.node dp = parent := by rw [View.node_setNode, if_pos rfl]
  have hfind : find (z.node dp).data (nameOf (peek name)) = none := by
    rw [hz]
    exact hnew
  refine wp_bind (dirlink_new_spec ht₃ hydp (by rw [hz]; exact hdir)
    (by rw [hz]; exact halign) hfind (hE _ (by simp)) (hE _ (by simp))) ?_
  rintro r t₄ ⟨rfl, ht₄⟩
  rw [if_neg (by decide)]
  refine wp_bind (iput_spec ht₄ (h.lt_of_valid hdp)) fun _ t₅ ht₅ => ?_
  refine wp_pure ⟨hpos, hlt, hfree, ?_⟩
  rw [View.setNode_self, hz] at ht₅
  rw [View.created, View.hold_setNode, View.hold_setNode]
  exact ht₅

/-! ## Lookups -/

theorem View.walk_parent_name (h : v.walk true i ns = some (d, n)) : ∃ m, n = some m := by
  induction ns generalizing i with
  | nil => cases h
  | cons m ns ih =>
    unfold View.walk at h
    obtain ⟨-, h⟩ := Option.ite_none_right_eq_some.mp h
    split at h
    next =>
      cases h
      exact ⟨m, rfl⟩
    next =>
      split at h
      · cases h
      · exact ih h

/-- Some time after `v`, inodes without links and references may have been
freed. -/
def Aged (v w : View) : Prop := ∀ i, w.node i = v.node i ∨ v.ref i = 0 ∧ (v.node i).type ≠ 0 ∧
    (v.node i).nlink = 0 ∧ w.node i = (v.node i).freed

/-- What a call of process `p` in directory `cwd` relies on.  Either `ilock` may
find a free inode, or lookups do not lead to one. -/
structure Ready (sb : Superblock) (E : Panic → Prop) (v : View) (cwd : ℕ) :
    Prop where
  ninodes_le : sb.ninodes ≤ 2 ^ 16
  root_lt : ROOTINO < sb.ninodes
  searchable : Searchable sb v
  cwd_pos : 0 < cwd
  cwd_ref : 0 < v.ref cwd
  cwd_dir : (v.node cwd).type = T_DIR
  tolerant : Tolerant E
  safe : E (.fs .ilockNoType) ∨ Closed v ∧ (v.node ROOTINO).type ≠ 0

section Lookups

variable {cwd : ℕ} {held : List ℕ} {path : List Byte}

theorem Ready.start (hr : Ready sb E v cwd) (path : List Byte) :
    E (.fs .ilockNoType) ∨ Closed v ∧ (v.node (startOf cwd path)).type ≠ 0 := by
  rcases hr.safe with hsafe | ⟨hclosed, hroot⟩
  · exact Or.inl hsafe
  · refine Or.inr ⟨hclosed, ?_⟩
    unfold startOf
    split
    · exact hroot
    · rw [hr.cwd_dir]
      exact T_DIR_ne_zero

/-- A lookup that succeeds in `w` does so in every view with the same
directories. -/
theorem View.walk_of_dirs (hdirs : ∀ d, (w.node d).type = T_DIR → w.node d = v.node d)
    {r : ℕ × Option Name} (h : w.walk parent i ns = some r) :
    v.walk parent i ns = some r := by
  induction ns generalizing i with
  | nil => exact h
  | cons m ns ih =>
    unfold View.walk at h ⊢
    obtain ⟨hdir, h⟩ := Option.ite_none_right_eq_some.mp h
    have hnode := hdirs i hdir
    rw [hnode] at hdir
    rw [if_pos hdir]
    split at h
    next hlast => rw [if_pos hlast, h]
    next hlast =>
      rw [if_neg hlast]
      rw [hnode] at h
      split at h
      next => cases h
      next k hk =>
        rw [View.inumAt, hnode] at h
        exact ih h

/-- What holds of the first inode of a lookup, and of what is found in a directory, holds
of the last one. -/
theorem View.walk_last {P : ℕ → Prop}
    (hstep : ∀ i k, (v.node i).type = T_DIR → (entry (v.node i).data k).inum ≠ 0 →
      P (v.inumAt i k)) (hstart : P i) (h : v.walk parent i ns = some (d, n)) : P d := by
  induction ns generalizing i with
  | nil =>
    unfold View.walk at h
    split at h
    · cases h
    · cases h
      exact hstart
  | cons m ns ih =>
    unfold View.walk at h
    obtain ⟨hdir, h⟩ := Option.ite_none_right_eq_some.mp h
    split at h
    next =>
      cases h
      exact hstart
    next =>
      split at h
      next => cases h
      next k hk => exact ih (hstep i k hdir (find_eq_some_iff.mp hk).1) h

theorem Ready.namei_used (hr : Ready sb E v cwd) (hclosed : Closed v)
    (hroot : (v.node ROOTINO).type ≠ 0) (h : v.namei cwd path = some ip) :
    (v.node ip).type ≠ 0 := by
  unfold View.namei at h
  obtain ⟨⟨d, n⟩, hwalk, rfl⟩ := Option.map_eq_some_iff.mp h
  refine View.walk_last (P := fun i => (v.node i).type ≠ 0) hclosed.used ?_ hwalk
  unfold startOf
  split
  · exact hroot
  · rw [hr.cwd_dir]
    exact T_DIR_ne_zero

section

variable (hr : Ready sb E v cwd)

include hr

theorem Ready.namei_pos (h : v.namei cwd path = some ip) : 0 < ip := by
  unfold View.namei at h
  obtain ⟨⟨d, n⟩, hwalk, rfl⟩ := Option.map_eq_some_iff.mp h
  refine View.walk_last (P := (0 < ·)) (fun i k _ hused => ?_) ?_ hwalk
  · exact Nat.pos_of_ne_zero fun hzero => hused (BitVec.eq_of_toNat_eq hzero)
  unfold startOf
  split
  · decide
  · exact hr.cwd_pos

theorem Ready.cwd_lt (h : Rep sb s w) (hl : Looked v w held) : cwd < sb.ninodes := by
  refine h.lt_of_type (i := cwd) ?_
  rw [hl.node_eq_of_ref hr.cwd_ref, hr.cwd_dir]
  exact T_DIR_ne_zero

theorem namei_spec (h : Rep sb s w) (hl : Looked v w held) (hpath : ∀ b ∈ path, b ≠ 0) :
    wp (namei sb cwd path) s (fun r t => ∃ w, Rep sb t w ∧ match v.namei cwd path with
        | none => r = none ∧ Looked v w held
        | some ip => r = some ip ∧ ip < sb.ninodes ∧ Looked v w (ip :: held)) E := by
  refine wp_bind (namex_spec hr.searchable (fun _ => hr.tolerant _ (by simp)) h hl hr.root_lt
    (hr.cwd_lt h hl) hr.cwd_ref hpath (hr.start path)) ?_
  rintro r t ⟨w', ht, hfound⟩
  refine wp_pure ⟨w', ht, ?_⟩
  unfold View.namei
  cases hwalk : v.walk false (startOf cwd path) (elements path) with
  | none =>
    rw [hwalk] at hfound
    obtain ⟨rfl, hl'⟩ := hfound
    exact ⟨rfl, hl'⟩
  | some found =>
    rw [hwalk] at hfound
    obtain ⟨buf, rfl, -, hlt, hl'⟩ := hfound
    exact ⟨rfl, hlt, hl'⟩

theorem nameiparent_spec (h : Rep sb s w) (hl : Looked v w held) (hpath : ∀ b ∈ path, b ≠ 0) :
    wp (nameiparent sb cwd path) s (fun r t => ∃ w, Rep sb t w ∧
        (r = none ∧ Looked v w held ∨ ∃ dp buf, r = some (dp, buf) ∧
            v.nameiparent cwd path = some (dp, some (nameOf (peek buf))) ∧
            dp < sb.ninodes ∧ (v.node dp).type = T_DIR ∧
            Looked v w (dp :: held))) E := by
  refine wp_mono (namex_spec hr.searchable (fun _ => hr.tolerant _ (by simp)) h hl hr.root_lt
    (hr.cwd_lt h hl) hr.cwd_ref hpath (hr.start path)) ?_
  rintro r t ⟨w', ht, hfound⟩
  refine ⟨w', ht, ?_⟩
  cases hwalk : v.walk true (startOf cwd path) (elements path) with
  | none =>
    rw [hwalk] at hfound
    exact Or.inl hfound
  | some found =>
    obtain ⟨dp, n⟩ := found
    rw [hwalk] at hfound
    obtain ⟨m, rfl⟩ := View.walk_parent_name hwalk
    obtain ⟨buf, rfl, hname, hlt, hl'⟩ := hfound
    refine Or.inr ⟨dp, buf, rfl, ?_, hlt, View.walk_type hwalk, hl'⟩
    rw [hname m rfl]
    exact hwalk

/-- Locking an inode that a lookup has found. -/
theorem ilock_found (h : Rep sb s w) (hl : Looked v w held) (hlt : i < sb.ninodes)
    (htype : Closed v → (v.node ROOTINO).type ≠ 0 → (v.node i).type ≠ 0) :
    wp (ilock sb i) s (fun _ t => Rep sb t (w.lock i) ∧ Looked v (w.lock i) held ∧
        (w.lock i).valid i = true ∧ (w.lock i).node i = v.node i ∧
        (v.node i).type ≠ 0) E := by
  refine wp_mono (ilock_spec h hlt (fun _ => hr.tolerant _ (by simp)) fun hzero => ?_) ?_
  · rcases hr.safe with hsafe | ⟨hclosed, hroot⟩
    · exact hsafe
    · rw [hl.node_eq_of_closed hclosed] at hzero
      exact absurd hzero (htype hclosed hroot)
  · rintro - t ⟨ht, hused⟩
    have hnode := hl.node_eq hused
    rw [hnode] at hused
    exact ⟨ht, hl.lock i, by rw [View.valid_lock, if_pos rfl], hnode, hused⟩

/-- `namei` and then, if it has found an inode, `ilock`. -/
theorem namei_ilock_spec {α : Type} {Q : α → State → Prop} {x : M α} {k : ℕ → M α}
    (h : Rep sb s v) (hpath : ∀ b ∈ path, b ≠ 0)
    (hnone : ∀ w t, Rep sb t w → Looked v w [] → wp x t Q E)
    (hsome : ∀ ip w t, v.namei cwd path = some ip → ip < sb.ninodes → Rep sb t w →
      Looked v w [ip] → w.valid ip = true → w.node ip = v.node ip →
      (v.node ip).type ≠ 0 → wp (k ip) t Q E) :
    wp (namei sb cwd path >>= fun r =>
      match r with
      | none => x
      | some ip => ilock sb ip >>= fun _ => k ip) s Q E := by
  refine wp_bind (namei_spec hr h (Looked.refl v) hpath) ?_
  rintro r t ⟨w, ht, hfound⟩
  cases hname : v.namei cwd path with
  | none =>
    rw [hname] at hfound
    obtain ⟨rfl, hl⟩ := hfound
    exact hnone w t ht hl
  | some ip =>
    rw [hname] at hfound
    obtain ⟨rfl, hlt, hl⟩ := hfound
    refine wp_bind (ilock_found hr ht hl hlt fun hclosed hroot =>
      hr.namei_used hclosed hroot hname) ?_
    rintro - t₁ ⟨ht₁, hl₁, hv₁, hnode₁, hused⟩
    exact hsome ip _ t₁ hname hlt ht₁ hl₁ hv₁ hnode₁ hused

/-- Searching a locked directory. -/
theorem dirlookup_found {name : ℕ → Byte} (h : Rep sb s w) (hl : Looked v w held)
    (hv : w.valid dp = true) (hnode : w.node dp = v.node dp)
    (hdir : (v.node dp).type = T_DIR) :
    wp (dirlookup sb dp name) s (fun r t => match find (v.node dp).data (nameOf name) with
        | none => r = none ∧ Rep sb t w
        | some k => r = some (v.inumAt dp k, direntSize * k) ∧ Rep sb t (w.hold (v.inumAt dp k)) ∧
            Looked v (w.hold (v.inumAt dp k)) (v.inumAt dp k :: held) ∧
            v.inumAt dp k < sb.ninodes) E := by
  have hinum : ∀ k, w.inumAt dp k = v.inumAt dp k := fun k => by
    unfold View.inumAt
    rw [hnode]
  have hlt : ∀ k, find (v.node dp).data (nameOf name) = some k →
      v.inumAt dp k < sb.ninodes := fun k hk =>
    hr.searchable.range dp k hdir (find_eq_some_iff.mp hk).1
  refine wp_mono (dirlookup_spec h hv (by rw [hnode, hdir])
    (by rw [hnode]; exact hr.searchable.aligned dp hdir)
    (fun k hk => ?_) fun _ => hr.tolerant _ (by simp)) fun r t ht => ?_
  · rw [hnode] at hk
    rw [hinum]
    exact hlt k hk
  · rw [hnode] at ht
    cases hfind : find (v.node dp).data (nameOf name) with
    | none =>
      rw [hfind] at ht
      exact ht
    | some k =>
      rw [hfind] at ht
      simp only [hinum] at ht
      exact ⟨ht.1, ht.2, hl.hold _, hlt k hfind⟩

end

theorem Moves.of_looked (hl : Looked v w held) : Moves sb P ([], v) (held, w) := by
  have hm : Move sb P ([], v) (held ++ [], w) := .look hl
  rw [List.append_nil] at hm
  exact .single hm

end Lookups

/-! ## `create` -/

theorem create_spec {cwd : ℕ} {path : List Byte} (major minor : Short)
    (hr : Ready sb E v cwd) (h : Rep sb s v) (hpath : ∀ b ∈ path, b ≠ 0)
    (htype : type ≠ 0)
    (hperm : ∀ dp n, v.nameiparent cwd path = some (dp, some n) →
      find (v.node dp).data n = none → ∀ w, Aged v w → w.node dp = v.node dp →
      P.entry w dp ∧ (type = T_DIR → P.link w dp)) :
    wp (create sb cwd path type major minor) s (fun r t => ∃ w, Rep sb t w ∧ match r with
        | none => Moves sb P ([], v) ([], w)
        | some ip => Moves sb P ([], v) ([ip], w) ∧ w.valid ip = true ∧
            (type = T_FILE → (w.node ip).type ≠ T_DIR)) E := by
  refine wp_bind (nameiparent_spec hr h (Looked.refl v) hpath) ?_
  rintro r t ⟨w, ht, ⟨rfl, hl⟩ | ⟨dp, name, rfl, hfound, hdplt, hdir, hl⟩⟩
  · exact wp_pure ⟨w, ht, Moves.of_looked hl⟩
  refine wp_bind (ilock_found hr ht hl hdplt fun _ _ => ?_) ?_
  · rw [hdir]
    exact T_DIR_ne_zero
  rintro - t₁ ⟨ht₁, hl₁, hv₁, hnode₁, -⟩
  refine wp_bind (dirlookup_found hr ht₁ hl₁ hv₁ hnode₁ hdir) fun r t₂ ht₂ => ?_
  cases hfind : find (v.node dp).data (nameOf (peek name)) with
  | some k =>
    rw [hfind] at ht₂
    obtain ⟨rfl, ht₂, hl₂, hlt⟩ := ht₂
    refine wp_bind (iput_spec ht₂ hdplt) fun _ t₃ ht₃ => ?_
    have hl₃ := (hl₂.perm (List.Perm.swap _ _ _)).release ht₂.type_ne_zero
    refine wp_bind (ilock_found hr ht₃ hl₃ hlt fun hclosed _ =>
      hclosed.used dp k hdir (find_eq_some_iff.mp hfind).1) ?_
    rintro - t₄ ⟨ht₄, hl₄, hv₄, hnode₄, -⟩
    refine wp_read_bind ?_
    rw [(ht₄.icache_eq hv₄).1]
    refine wp_ite (fun hok => wp_pure ⟨_, ht₄, Moves.of_looked hl₄, hv₄, ?_⟩) fun _ => ?_
    · intro _ hd
      rw [hd] at hok
      exact absurd hok.2 (by decide)
    · refine wp_bind (iput_spec ht₄ hlt) fun _ t₅ ht₅ => ?_
      exact wp_pure ⟨_, ht₅, Moves.of_looked (hl₄.release ht₄.type_ne_zero)⟩
  | none =>
    rw [hfind] at ht₂
    obtain ⟨rfl, ht₂⟩ := ht₂
    have hdata := congrArg Node.data hnode₁
    refine wp_bind (createNew_spec hr.ninodes_le hr.tolerant ht₂ hv₁ (by rw [hnode₁, hdir])
      (by rw [hnode₁]; exact hr.searchable.aligned dp hdir)
      (by rw [hnode₁]; exact hfind) htype) ?_
    rintro ip t₃ ⟨hpos, hlt, hfree, ht₃⟩
    have hne : ip ≠ dp := by
      rintro rfl
      rw [hnode₁, hdir] at hfree
      exact T_DIR_ne_zero hfree
    obtain ⟨hentry, hlink⟩ := hperm dp _ hfound hfind _ hl₁.node hnode₁
    have hcreate : Move sb P ([dp], w.lock dp)
        ([ip, dp], (w.lock dp).created dp ip (peek name) type major minor) :=
      .create major minor List.mem_cons_self (by rw [hnode₁, hdir])
        (by rw [hnode₁]; exact hfind) hpos hlt hfree htype hentry hlink
    refine wp_pure ⟨_, ht₃, ?_, ?_, fun hfile => ?_⟩
    · refine ((Moves.of_looked hl₁).tail hcreate).tail
        (.perm (List.Perm.swap _ _ _)) |>.tail (.release fun _ => ?_)
      rw [View.node_created, if_pos rfl, hnode₁, hdir]
      exact T_DIR_ne_zero
    · rw [View.valid_release, if_neg fun hx => hne hx.1, View.created, View.valid_lock, if_pos rfl]
    · rw [View.node_release, if_neg fun hx => hne hx.1, View.node_created, if_neg hne, if_pos rfl]
      rw [hfile]
      exact (by decide : T_FILE ≠ T_DIR)

/-- The call is over: it has made some moves, and holds no references. -/
def Done (sb : Superblock) (P : Policy) (v : View) (t : State) : Prop :=
  ∃ w, Rep sb t w ∧ Moves sb P ([], v) ([], w)

theorem Done.refl (h : Rep sb s v) : Done sb P v s := ⟨v, h, .refl⟩

theorem Done.of_looked (h : Rep sb s w) (hl : Looked v w []) : Done sb P v s :=
  ⟨w, h, Moves.of_looked hl⟩

/-- The last reference is dropped. -/
theorem iput_done (h : Rep sb s w) (hm : Moves sb P ([], v) ([i], w))
    (hlt : i < sb.ninodes) (r : ℤ) :
    wp (do iput sb i; return r) s (fun _ t => Done sb P v t) E :=
  wp_bind (iput_spec h hlt) fun _ _ ht => wp_pure ⟨_, ht, hm.tail (.release h.type_ne_zero)⟩

theorem sysCreate_spec {cwd : ℕ} {path : Option Path} (major minor : Short)
    (hr : Ready sb E v cwd) (h : Rep sb s v) (htype : type ≠ 0)
    (hperm : ∀ q, path = some q → ∀ dp n, v.nameiparent cwd q.bytes = some (dp,
      some n) → find (v.node dp).data n = none → ∀ w, Aged v w →
      w.node dp = v.node dp → P.entry w dp ∧ (type = T_DIR → P.link w dp)) :
    wp (sysCreate sb cwd path type major minor) s (fun _ t => Done sb P v t) E := by
  cases path with
  | none => exact wp_pure (Done.refl h)
  | some q =>
    refine wp_bind (create_spec major minor hr h q.nonzero htype (hperm q rfl)) ?_
    rintro r t ⟨w, ht, hm⟩
    cases r with
    | none => exact wp_pure ⟨w, ht, hm⟩
    | some ip => exact iput_done ht hm.1 (ht.lt_of_valid hm.2.1) 0

/-! ## Opening and closing files -/

theorem filealloc_spec (h : Rep sb s w) :
    wp filealloc s (fun r t => match r with
        | none => Rep sb t w
        | some f => (w.file f).ref = 0 ∧
            Rep sb t (w.setFile f fun file => { file with ref := 1 })) E := by
  refine wp_read_bind ?_
  cases hfind : (List.finRange NFILE).find? fun f => decide ((s.file f).ref = 0) with
  | none => exact wp_pure h
  | some f =>
    have href : (s.file f).ref = 0 := by simpa using List.find?_some hfind
    rw [h.file_eq] at href
    exact wp_update_bind (wp_pure ⟨href, h.setFile f _⟩)

theorem fdalloc_spec (h : Rep sb s w) :
    wp (fdalloc p f) s (fun r t => match r with
        | none => Rep sb t w
        | some fd => Rep sb t (w.setProc p fun proc =>
            { proc with ofile := Function.update proc.ofile fd (some f) }))
      E := by
  refine wp_read_bind ?_
  cases hfind : (List.finRange NOFILE).find? fun fd => decide ((s.proc p).ofile fd = none) with
  | none => exact wp_pure h
  | some fd => exact wp_update_bind (wp_pure (h.setProc p _))

theorem argfd_spec {fd : BitVec 32} (h : Rep sb s w) :
    wp (argfd p fd) s (fun _ t => Rep sb t w) E := by
  refine wp_read_bind ?_
  split
  · exact wp_pure h
  · exact wp_pure h

/-- Closing a file gives its reference back. -/
theorem fileclose_spec {L : List ℕ} (hE : Tolerant E) (h : Rep sb s w) (hbase : Base sb L w) :
    wp (fileclose sb f) s (fun _ t => ∃ w', Rep sb t w' ∧ w'.proc = w.proc ∧
        Moves sb P (L, w) (L, w')) E := by
  refine wp_read_bind (wp_ite (fun _ => wp_fail (hE _ (by simp))) fun hone =>
    wp_ite (fun hmany => wp_update ?_) fun hmany => wp_update_bind ?_)
  · rw [h.file_eq] at hmany
    refine ⟨_, h.setFile f _, rfl, .single (.file f ⟨rfl, rfl, rfl, ?_⟩)⟩
    intro hzero
    dsimp only at hzero
    omega
  · have ht := h.setFile f fun file => { file with ref := 0, type := .none }
    have hclose : Move sb P (L, w) _ := .close f
    rw [h.file_eq]
    refine wp_ite (fun htype => ?_) fun htype => wp_pure ?_
    · rw [if_pos htype] at hclose
      have hused := (hbase.files f _ ⟨htype, rfl⟩).1
      refine wp_mono (iput_spec ht (h.lt_of_type hused)) fun _ t' ht' => ?_
      exact ⟨_, ht', rfl, (ReflTransGen.single hclose).tail (.release ht.type_ne_zero)⟩
    · rw [if_neg htype] at hclose
      exact ⟨_, ht, rfl, .single hclose⟩

theorem openFile_spec (hE : Tolerant E) (h : Rep sb s w) (hbase : Base sb [ip] w)
    (hv : w.valid ip = true) (hm : Moves sb P ([], v) ([ip], w))
    (hdir : (w.node ip).type = T_DIR → omode = O_RDONLY) :
    wp (openFile sb p ip omode) s (fun _ t => Done sb P v t) E := by
  obtain ⟨htype, hmajor, -⟩ := h.icache_eq hv
  have hlt := h.lt_of_valid hv
  refine wp_read_bind ?_
  rw [htype, hmajor]
  refine wp_ite (fun _ => iput_done h hm hlt (-1)) fun _ => ?_
  refine wp_bind (filealloc_spec h) fun f t ht => ?_
  cases f with
  | none => exact iput_done ht hm hlt (-1)
  | some f =>
    obtain ⟨href, ht⟩ := ht
    have hnone := hbase.closed f href
    set x := w.setFile f fun file => { file with ref := 1 }
    have hx : x.file f = { w.file f with ref := 1 } := by simp [x, View.setFile]
    have hmx : Moves sb P ([], v) ([ip], x) :=
      hm.tail (.file f ⟨rfl, rfl, rfl, fun hone => absurd hone one_ne_zero⟩)
    have hbasex : Base sb [ip] x := by
      refine hbase.setFile (fun i => ?_) (fun i hi => hbase.files f i hi)
        fun hone => absurd hone one_ne_zero
      rfl
    refine wp_bind (fdalloc_spec ht) fun fd t₁ ht₁ => ?_
    cases fd with
    | none =>
      refine wp_bind (fileclose_spec (P := P) hE ht₁ hbasex) ?_
      rintro - t₂ ⟨y, ht₂, -, hmy⟩
      exact iput_done ht₂ (hmx.trans hmy) hlt (-1)
    | some fd =>
      refine wp_update_bind ?_
      have hopened : Move sb P ([ip], x.setProc p fun proc =>
          { proc with ofile := Function.update proc.ofile fd (some f) })
          ([], (x.setProc p fun proc =>
            { proc with
              ofile := Function.update proc.ofile fd (some f) }).setFile f
            fun file => file.opened ip (w.node ip).type (w.node ip).major omode) :=
        .opened omode (by change (x.file f).type = _; rw [hx]; exact hnone)
          (by change (x.file f).ref ≠ 0; rw [hx]; exact one_ne_zero)
          (h.type_ne_zero hv) hdir
      have hmz := (hmx.tail (.fds p _ rfl)).tail hopened
      have htz := ht₁.setFile f fun file => file.opened ip (w.node ip).type (w.node ip).major omode
      refine wp_ite (fun htrunc => ?_) fun _ => wp_pure ⟨_, htz, hmz⟩
      refine wp_bind (itrunc_spec htz hv) fun _ t₂ ht₂ => ?_
      refine wp_pure ⟨_, ht₂, hmz.tail (.data [] (h.type_ne_zero hv) ?_)⟩
      intro hd
      exact absurd (hd.symm.trans htrunc.2) (by decide)

theorem sysOpen_spec {cwd : ℕ} {path : Option Path} (hr : Ready sb E v cwd)
    (h : Rep sb s v) (hbase : Base sb [] v)
    (hperm : ∀ q, path = some q → omode &&& O_CREATE ≠ 0 →
      ∀ dp n, v.nameiparent cwd q.bytes = some (dp, some n) →
      find (v.node dp).data n = none → ∀ w, Aged v w → w.node dp = v.node dp →
      P.entry w dp) :
    wp (sysOpen sb p cwd path omode) s (fun _ t => Done sb P v t) E := by
  cases path with
  | none => exact wp_pure (Done.refl h)
  | some q =>
    refine wp_bind (R := fun r t => ∃ w, Rep sb t w ∧ match r with
      | none => Moves sb P ([], v) ([], w)
      | some ip => Moves sb P ([], v) ([ip], w) ∧ w.valid ip = true ∧
          ((w.node ip).type = T_DIR → omode = O_RDONLY)) ?_ ?_
    · refine wp_ite (fun hcreate => ?_) fun _ => ?_
      · refine wp_mono (create_spec 0 0 hr h q.nonzero (by decide) fun dp n hn hfind w hw hnode =>
            ⟨hperm q rfl hcreate dp n hn hfind w hw hnode, fun hx => absurd hx (by decide)⟩) ?_
        rintro r t ⟨w, ht, hm⟩
        refine ⟨w, ht, ?_⟩
        cases r with
        | none => exact hm
        | some ip => exact ⟨hm.1, hm.2.1, fun hd => absurd hd (hm.2.2 rfl)⟩
      · refine namei_ilock_spec hr h q.nonzero
          (fun w t ht hl => wp_pure ⟨w, ht, Moves.of_looked hl⟩) ?_
        intro ip w t _ hlt ht hl hv _ _
        refine wp_read_bind ?_
        rw [(ht.icache_eq hv).1]
        refine wp_ite (fun _ => ?_) fun hok => wp_pure ⟨w, ht, Moves.of_looked hl, hv, fun hd => ?_⟩
        · refine wp_bind (iput_spec ht hlt) fun _ t₁ ht₁ => ?_
          exact wp_pure ⟨_, ht₁, Moves.of_looked (hl.release ht.type_ne_zero)⟩
        · by_contra hne
          exact hok ⟨hd, hne⟩
    · rintro r t ⟨w, ht, hm⟩
      cases r with
      | none => exact wp_pure ⟨w, ht, hm⟩
      | some ip =>
        exact openFile_spec hr.tolerant ht (hbase.moves hr.ninodes_le hm.1) hm.2.1 hm.1 hm.2.2

end OsCa.Sysfile
