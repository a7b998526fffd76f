import OsCa.Kernel.Sysfile.Names

/-!
# What the system calls see of the file system

The view of a state keeps what directories and system calls depend on: of each
inode its type, its link count and its contents, and the reference counts.
Blocks, the bitmap and the copies in the inode cache are gone.  Every function
below the system calls has one lemma here that says which view it leaves, when
it returns what, and when it may panic; the system calls are then a matter of
views only.
-/

namespace OsCa.Sysfile

open Bytes Fs OsCa.Action List

variable {t : Fs.State} {α β : Type} {e : Fs.Panic} {mem : Memory}
  {off n src k inum : ℕ} {userSrc : Bool} {ks : List ℕ}

/-! ## Views -/

@[ext]
structure Node where
  type : Short
  major : Short
  minor : Short
  nlink : Short
  data : File

/-- The node after `iput` has freed it. -/
def Node.freed (n : Node) : Node := { n with type := 0, data := [] }

/-- The node after `ialloc`. -/
def newNode (type : Short) : Node := ⟨type, 0, 0, 0, []⟩

@[ext]
structure View where
  node : ℕ → Node
  valid : ℕ → Bool
  ref : ℕ → ℕ
  entries : ℕ
  file : Fin NFILE → OpenFile
  proc : Fin NPROC → Proc

def nodeOf (sb : Superblock) (t : Fs.State) (i : ℕ) : Node where
  type := (t.inode sb i).type
  major := (t.inode sb i).major
  minor := (t.inode sb i).minor
  nlink := (t.inode sb i).nlink
  data := content sb t i

/-- The view of a state.  There is nothing to see past the last inode. -/
def State.view (sb : Superblock) (s : State) : View where
  node i := if i < sb.ninodes then nodeOf sb s.fs i else newNode 0
  valid i := decide (i < sb.ninodes) && (s.fs.icache i).valid
  ref := s.ref
  entries := s.entries
  file := s.file
  proc := s.proc

namespace View

def setNode (v : View) (i : ℕ) (n : Node) : View :=
  { v with node := Function.update v.node i n }

def setFile (v : View) (f : Fin NFILE) (g : OpenFile → OpenFile) : View :=
  { v with file := Function.update v.file f (g (v.file f)) }

def setProc (v : View) (p : Fin NPROC) (g : Proc → Proc) : View :=
  { v with proc := Function.update v.proc p (g (v.proc p)) }

/-- One more reference, taken by `iget`. -/
def hold (v : View) (i : ℕ) : View := if 0 < v.ref i then
    { v with ref := Function.update v.ref i (v.ref i + 1) }
  else
    { v with
      ref := Function.update v.ref i 1
      entries := v.entries + 1
      valid := Function.update v.valid i false }

/-- The inode is locked, so its copy in the cache is valid. -/
def lock (v : View) (i : ℕ) : View :=
  { v with valid := Function.update v.valid i true }

/-- `iput` is going to free the inode. -/
def Dying (v : View) (i : ℕ) : Prop := v.ref i = 1 ∧ v.valid i = true ∧ (v.node i).nlink = 0

instance (v : View) (i : ℕ) : Decidable (v.Dying i) := inferInstanceAs (Decidable (_ ∧ _ ∧ _))

/-- One reference less, dropped by `iput`. -/
def release (v : View) (i : ℕ) : View where
  node := if v.Dying i then Function.update v.node i (v.node i).freed else v.node
  valid := if v.Dying i then Function.update v.valid i false else v.valid
  ref := Function.update v.ref i (v.ref i - 1)
  entries := if v.ref i = 1 then v.entries - 1 else v.entries
  file := v.file
  proc := v.proc

variable (v : View) (i : ℕ)

@[simp]
theorem node_hold : (v.hold i).node = v.node := by
  unfold hold
  split <;> rfl

@[simp]
theorem file_hold : (v.hold i).file = v.file := by
  unfold hold
  split <;> rfl

@[simp]
theorem proc_hold : (v.hold i).proc = v.proc := by
  unfold hold
  split <;> rfl

theorem ref_hold (j : ℕ) : (v.hold i).ref j = if j = i then v.ref i + 1 else v.ref j := by
  unfold hold
  split
  next => simp only [Function.update_apply]
  next hzero =>
    rw [Nat.eq_zero_of_not_pos hzero]
    simp only [Function.update_apply, Nat.zero_add]

theorem valid_hold (j : ℕ) :
    (v.hold i).valid j = if j = i ∧ v.ref i = 0 then false else v.valid j := by
  unfold hold
  split
  next hpos => rw [if_neg (by omega)]
  next hzero => simp only [Function.update_apply, Nat.eq_zero_of_not_pos hzero, and_true]

theorem entries_hold : (v.hold i).entries = v.entries + if v.ref i = 0 then 1 else 0 := by
  unfold hold
  split
  next hpos =>
    rw [if_neg hpos.ne']
    rfl
  next hzero => rw [if_pos (Nat.eq_zero_of_not_pos hzero)]

theorem node_setNode (n : Node) (j : ℕ) :
    (v.setNode i n).node j = if j = i then n else v.node j := by
  simp only [setNode, Function.update_apply]

theorem valid_lock (j : ℕ) : (v.lock i).valid j = if j = i then true else v.valid j := by
  simp only [lock, Function.update_apply]

theorem node_release (j : ℕ) :
    (v.release i).node j = if j = i ∧ v.Dying i then (v.node i).freed else v.node j := by
  unfold release
  dsimp only
  split
  next hd => simp only [Function.update_apply, hd, and_true]
  next hd => rw [if_neg fun h => hd h.2]

theorem valid_release (j : ℕ) :
    (v.release i).valid j = if j = i ∧ v.Dying i then false else v.valid j := by
  unfold release
  dsimp only
  split
  next hd => simp only [Function.update_apply, hd, and_true]
  next hd => rw [if_neg fun h => hd h.2]

theorem ref_release (j : ℕ) : (v.release i).ref j = if j = i then v.ref i - 1 else v.ref j := by
  simp only [release, Function.update_apply]

end View

/-- The state is consistent, and this is its view. -/
structure Rep (sb : Superblock) (s : State) (v : View) : Prop where
  consistent : Consistent sb s.fs
  noHoles : NoHoles sb s.fs
  eq : s.view sb = v

variable {sb : Superblock} {s : State} {v : View} {i : ℕ} {E : Panic → Prop}

namespace Rep

section

variable (h : Rep sb s v)

include h

theorem node_eq (hi : i < sb.ninodes) : v.node i = nodeOf sb s.fs i := by
  rw [← h.eq]
  exact if_pos hi

theorem lt_of_valid (hv : v.valid i = true) : i < sb.ninodes := by
  rw [← h.eq] at hv
  simp only [State.view, Bool.and_eq_true, decide_eq_true_eq] at hv
  exact hv.1

theorem lt_of_type (ht : (v.node i).type ≠ 0) : i < sb.ninodes := by
  by_contra hge
  rw [← h.eq] at ht
  exact ht (by simp [State.view, hge, newNode])

theorem valid_eq (hi : i < sb.ninodes) : v.valid i = (s.fs.icache i).valid := by
  rw [← h.eq]
  simp [State.view, hi]

theorem ref_eq : s.ref = v.ref := by rw [← h.eq]; rfl

theorem entries_eq : s.entries = v.entries := by
  rw [← h.eq]
  rfl

theorem file_eq : s.file = v.file := by rw [← h.eq]; rfl

theorem proc_eq : s.proc = v.proc := by rw [← h.eq]; rfl

theorem locked (hv : v.valid i = true) : Locked sb s.fs i := by
  have hlt := h.lt_of_valid hv
  rw [h.valid_eq hlt] at hv
  exact ⟨hlt, hv, h.consistent.type i hlt hv⟩

/-- What code reads from a locked inode. -/
theorem icache_eq (hv : v.valid i = true) :
    (s.fs.icache i).type = (v.node i).type ∧ (s.fs.icache i).major = (v.node i).major ∧
      (s.fs.icache i).nlink = (v.node i).nlink ∧
      (s.fs.icache i).size.toNat = (v.node i).data.length := by
  have hl := h.locked hv
  rw [h.node_eq hl.lt]
  simp only [nodeOf, length_content, hl.inode, and_self]

theorem type_ne_zero (hv : v.valid i = true) : (v.node i).type ≠ 0 := by
  rw [← (h.icache_eq hv).1]
  exact (h.locked hv).type

theorem data_eq (hi : i < sb.ninodes) : content sb s.fs i = (v.node i).data := by
  rw [h.node_eq hi]
  rfl

theorem length_le (hv : v.valid i = true) : (v.node i).data.length ≤ MAXFILE * BSIZE := by
  have hl := h.locked hv
  rw [← h.data_eq hl.lt, length_content]
  exact h.noHoles.size_le hl.lt (by rw [hl.inode]; exact hl.type)

/-- The inodes have changed, but only inode `i` has changed as far as the view
is concerned. -/
theorem change (hi : i < sb.ninodes) (hconsistent : Consistent sb t)
    (hholes : NoHoles sb t) (hkept : ∀ j < sb.ninodes, j ≠ i → Kept sb j s.fs t)
    (hvalid : ∀ j, j ≠ i → (t.icache j).valid = (s.fs.icache j).valid) :
    Rep sb { s with fs := t }
      { v with
        node := Function.update v.node i (nodeOf sb t i)
        valid := Function.update v.valid i (t.icache i).valid } := by
  refine ⟨hconsistent, hholes, ?_⟩
  rw [← h.eq]
  refine View.ext (funext fun j => ?_) (funext fun j => ?_) rfl rfl rfl rfl
  all_goals dsimp only
  · by_cases hj : j = i
    · subst j
      rw [Function.update_self]
      exact if_pos hi
    · rw [Function.update_of_ne hj]
      by_cases hlt : j < sb.ninodes
      · have hk := hkept j hlt hj
        simp only [State.view, if_pos hlt, nodeOf, hk.inode, hk.content]
      · simp only [State.view, if_neg hlt]
  · by_cases hj : j = i
    · subst j
      rw [Function.update_self]
      simp [State.view, hi]
    · rw [Function.update_of_ne hj]
      simp only [State.view, hvalid j hj]

/-- The same, when the copy in the cache stays valid or invalid. -/
theorem change_node (hi : i < sb.ninodes) (hconsistent : Consistent sb t)
    (hholes : NoHoles sb t) (hkept : ∀ j < sb.ninodes, j ≠ i → Kept sb j s.fs t)
    (hvalid : ∀ j, (t.icache j).valid = (s.fs.icache j).valid) :
    Rep sb { s with fs := t } (v.setNode i (nodeOf sb t i)) := by
  have hc := h.change hi hconsistent hholes hkept fun j _ => hvalid j
  rw [hvalid i, ← h.valid_eq hi, Function.update_eq_self] at hc
  exact hc

/-- Changes outside the inodes. -/
theorem outer {t : State} {w : View} (hfs : t.fs = s.fs) (hnode : w.node = v.node)
    (hvalid : w.valid = v.valid) (href : t.ref = w.ref)
    (hentries : t.entries = w.entries) (hfile : t.file = w.file)
    (hproc : t.proc = w.proc) : Rep sb t w := by
  refine ⟨hfs ▸ h.consistent, hfs ▸ h.noHoles, ?_⟩
  refine View.ext ?_ ?_ href hentries hfile hproc
  · rw [hnode, ← h.eq]
    simp only [State.view, hfs]
  · rw [hvalid, ← h.eq]
    simp only [State.view, hfs]

theorem setFile (f : Fin NFILE) (g : OpenFile → OpenFile) :
    Rep sb (s.setFile f g) (v.setFile f g) :=
  h.outer rfl rfl rfl h.ref_eq h.entries_eq
    (by simp [State.setFile, View.setFile, h.file_eq]) h.proc_eq

theorem setProc (p : Fin NPROC) (g : Proc → Proc) : Rep sb (s.setProc p g) (v.setProc p g) :=
  h.outer rfl rfl rfl h.ref_eq h.entries_eq h.file_eq
    (by simp [State.setProc, View.setProc, h.proc_eq])

end

end Rep

/-! ## The inode cache -/

theorem wp_inodes {f : Fs.State → Except Fs.Panic (α × Fs.State)} {Q : α → State → Prop}
    (hok : ∀ a t, f s.fs = .ok (a, t) → Q a { s with fs := t })
    (herr : ∀ e, f s.fs = .error e → E (.fs e)) : wp (inodes f) s Q E :=
  wp_zoom hok herr

theorem wp_inodes_of_ok {f : Fs.State → Except Fs.Panic β} {g : β → α × Fs.State} {b : β}
    {Q : α → State → Prop} (hrun : f s.fs = .ok b)
    (hQ : Q (g b).1 { s with fs := (g b).2 }) :
    wp (inodes fun t => (f t).map g) s Q E := by
  refine wp_inodes (fun a u hok => ?_) fun e herr => ?_
  · rw [hrun] at hok
    rwa [Except.ok.inj hok] at hQ
  · rw [hrun] at herr
    cases herr

theorem map_eq_ok {x : Except Fs.Panic α} {g : α → β} {b : β} (h : x.map g = .ok b) :
    ∃ a, x = .ok a ∧ g a = b := by
  cases x with
  | error e => cases h
  | ok a => exact ⟨a, rfl, Except.ok.inj h⟩

theorem map_eq_error {x : Except Fs.Panic α} {g : α → β} (h : x.map g = .error e) :
    x = .error e := by
  cases x with
  | error e' => exact congrArg Except.error (Except.error.inj h)
  | ok a => cases h

theorem iget_spec (h : Rep sb s v) (hi : i < sb.ninodes)
    (hE : v.ref i = 0 → NINODE ≤ v.entries → E .igetNoInodes) :
    wp (iget i) s (fun _ t => Rep sb t (v.hold i)) E := by
  refine wp_read_bind ?_
  refine wp_ite (fun hpos => wp_update ?_) fun hpos => ?_
  · rw [h.ref_eq] at hpos
    rw [View.hold, if_pos hpos]
    exact h.outer rfl rfl rfl (by simp [h.ref_eq]) h.entries_eq h.file_eq h.proc_eq
  · rw [h.ref_eq] at hpos
    refine wp_ite (fun hfull => wp_fail (hE (by omega) ?_)) fun _ => wp_update ?_
    · rwa [← h.entries_eq]
    · rw [View.hold, if_neg hpos]
      -- The entry of an inode that is not referenced forgets its copy.
      have hk := recycle_kept h.consistent hi
      have hc := h.change hi (consistent_recycle h.consistent hi)
        (noHoles_of_inode_eq h.noHoles rfl fun j => (hk j).inode)
        (fun j _ _ => hk j) fun j hj => by simp [Fs.State.setInode, hj]
      refine ⟨hc.consistent, hc.noHoles, ?_⟩
      have hnode : nodeOf sb (s.fs.setInode i fun ip =>
          { ip with valid := false }) i = v.node i := by
        rw [h.node_eq hi]
        simp only [nodeOf, (hk i).inode, (hk i).content]
      refine View.ext ?_ ?_ ?_ ?_ h.file_eq h.proc_eq
      · have hn := congrArg View.node hc.eq
        rw [hnode, Function.update_eq_self] at hn
        exact hn
      · refine (congrArg View.valid hc.eq).trans ?_
        simp [Fs.State.setInode]
      · simp [State.view, h.ref_eq]
      · simp [State.view, h.entries_eq]

theorem idup_spec (h : Rep sb s v) (hpos : 0 < v.ref i) :
    wp (idup i) s (fun _ t => Rep sb t (v.hold i)) E := by
  refine wp_update ?_
  rw [View.hold, if_pos hpos]
  exact h.outer rfl rfl rfl (by simp [h.ref_eq]) h.entries_eq h.file_eq h.proc_eq

theorem ilock_spec (h : Rep sb s v) (hi : i < sb.ninodes) (href : v.ref i = 0 → E .ilock)
    (htype : (v.node i).type = 0 → E (.fs .ilockNoType)) :
    wp (ilock sb i) s (fun _ t => Rep sb t (v.lock i) ∧ (v.node i).type ≠ 0) E := by
  refine wp_read_bind ?_
  refine wp_ite (fun hzero => wp_fail (href ?_)) fun _ =>
    wp_inodes (fun _ t hok => ?_) fun e herr => ?_
  · rw [h.ref_eq] at hzero
    omega
  · obtain ⟨t', hlock, heq⟩ := map_eq_ok hok
    cases heq
    obtain ⟨hconsistent, hl, hdisk, hinode⟩ := ilock_ok h.consistent hi hlock
    have hkept := ilock_kept h.consistent hi hlock
    have hc := h.change hi hconsistent
      (noHoles_of_inode_eq h.noHoles hdisk hinode) (fun j _ _ => hkept j)
      fun j hj => by rw [ilock_icache hlock hj]
    have hnode : nodeOf sb t i = v.node i := by
      rw [h.node_eq hi]
      simp only [nodeOf, (hkept i).inode, (hkept i).content]
    rw [hnode, Function.update_eq_self, hl.valid] at hc
    refine ⟨hc, ?_⟩
    rw [h.node_eq hi, nodeOf, ← hinode, hl.inode]
    exact hl.type
  · obtain ⟨rfl, hfree⟩ := ilock_free hi h.consistent (map_eq_error herr)
    exact htype (by rw [h.node_eq hi]; exact hfree)

theorem iput_spec (h : Rep sb s v) (hi : i < sb.ninodes) :
    wp (iput sb i) s (fun _ t => Rep sb t (v.release i)) E := by
  refine wp_read_bind ?_
  obtain ⟨t, hrun, hcases⟩ := iput_cases h.consistent hi (decide (s.ref i = 1))
  refine wp_bind (R := fun _ t' => t' = { s with fs := t }) (wp_inodes_of_ok hrun rfl) ?_
  rintro - - rfl
  refine wp_update ?_
  -- The test of `iput` is the one of the view.
  have hdying : (decide (s.ref i = 1) = true ∧
      (s.fs.icache i).valid = true ∧ (s.fs.icache i).nlink = 0) ↔ v.Dying i := by
    rw [decide_eq_true_iff, h.ref_eq, ← h.valid_eq hi]
    refine and_congr_right fun _ => and_congr_right fun hv => ?_
    rw [(h.icache_eq hv).2.2.1]
  split at hcases
  next hfree =>
    have hd := hdying.mp hfree
    have hl := h.locked hd.2.1
    have hkept := fun j hj hne => hcases.kept h.consistent.own (i := j) hj hne
    have hc := h.change hi hcases.consistent
      (h.noHoles.of_kept hkept (Or.inl (by rw [hcases.inode hi]))) hkept
      fun j hj => by rw [hcases.icache j hj]
    have hnode : nodeOf sb t i = (v.node i).freed := by
      rw [h.node_eq hi]
      have hzero : content sb t i = [] := content_of_size_zero (by rw [hcases.inode hi])
      simp only [nodeOf, Node.freed, hzero, hcases.inode hi, hl.inode]
    rw [hnode, hcases.valid] at hc
    refine hc.outer rfl ?_ ?_ ?_ ?_ h.file_eq h.proc_eq
    · simp [View.release, hd]
    · simp [View.release, hd]
    · simp [View.release, h.ref_eq]
    · simp [View.release, h.ref_eq, h.entries_eq]
  next hfree =>
    have hd : ¬ v.Dying i := fun hd => hfree (hdying.mpr hd)
    subst hcases
    refine h.outer rfl ?_ ?_ ?_ ?_ h.file_eq h.proc_eq
    · simp [View.release, hd]
    · simp [View.release, hd]
    · simp [View.release, h.ref_eq]
    · simp [View.release, h.ref_eq, h.entries_eq]

theorem ialloc_spec {type : Short} (h : Rep sb s v) (hE : E (.fs .iallocNoInodes))
    (hget : NINODE ≤ v.entries → E .igetNoInodes) :
    wp (ialloc sb type) s (fun i t => 0 < i ∧ i < sb.ninodes ∧ (v.node i).type = 0 ∧
        Rep sb t ((v.setNode i (newNode type)).hold i)) E := by
  refine wp_bind (R := fun i t => 0 < i ∧ i < sb.ninodes ∧
      (v.node i).type = 0 ∧ Rep sb t (v.setNode i (newNode type)))
    (wp_inodes (fun i t hok => ?_) fun e herr => ?_) ?_
  · obtain ⟨hpos, hi, htype, ht⟩ := ialloc_found hok
    have hnew := ialloc_new h.consistent hok
    have hkept : ∀ j < sb.ninodes, j ≠ i → Kept sb j s.fs t :=
      fun j _ hne => ialloc_kept h.consistent hok hne
    have hc := h.change_node hi (ialloc_ok h.consistent hok)
      (h.noHoles.of_kept hkept (Or.inr (by rw [hnew]; rfl))) hkept
      fun j => by rw [ht]; rfl
    have hnode : nodeOf sb t i = newNode type := by
      have hzero : content sb t i = [] := content_of_size_zero (by rw [hnew]; rfl)
      simp only [nodeOf, hzero, hnew]
      rfl
    rw [hnode] at hc
    refine ⟨hpos, hi, ?_, hc⟩
    rw [h.node_eq hi, nodeOf, h.consistent.inode_eq hi]
    exact htype
  · rw [ialloc_error herr]
    exact hE
  · rintro i t ⟨hpos, hi, htype, ht⟩
    refine wp_bind (iget_spec ht hi fun _ hfull => hget hfull) ?_
    rintro - u hu
    exact wp_pure ⟨hpos, hi, htype, hu⟩

/-- Assignments to fields of a locked inode. -/
theorem assign_spec {g : Inode → Inode} {major minor nlink : Short}
    (h : Rep sb s v) (hv : v.valid i = true)
    (hg : g (s.fs.icache i) = { s.fs.icache i with
      major := major, minor := minor, nlink := nlink }) :
    wp (assign sb i g) s (fun _ t => Rep sb t (v.setNode i
        { v.node i with major := major, minor := minor, nlink := nlink }))
      E := by
  have hl := h.locked hv
  have hset : s.fs.setInode i g = s.fs.setInode i fun ip =>
      { ip with major := major, minor := minor, nlink := nlink } := by
    unfold Fs.State.setInode
    rw [hg]
  refine wp_inodes (fun _ t hok => ?_) fun e herr => nomatch herr
  cases hok
  rw [hset]
  have hu := updated_iupdate h.consistent hl major minor nlink
  have hc := h.change_node hl.lt hu.consistent (hu.noHoles h.noHoles hl) hu.kept fun j => by
      by_cases hj : j = i
      · rw [hj, hu.self]
      · rw [hu.icache j hj]
  rw [h.node_eq hl.lt]
  simp only [nodeOf, hu.content, hu.locked.inode, hu.self] at hc
  simpa only [nodeOf, hl.inode] using hc

theorem assign_nlink_spec (φ : Short → Short) (h : Rep sb s v) (hv : v.valid i = true) :
    wp (assign sb i fun ip => { ip with nlink := φ ip.nlink }) s (fun _ t => Rep sb t (v.setNode i
        { v.node i with nlink := φ (v.node i).nlink })) E := by
  have hl := h.locked hv
  refine wp_mono (assign_spec h hv rfl) fun _ t ht => ?_
  rw [h.node_eq hl.lt] at ht ⊢
  simpa only [nodeOf, hl.inode] using ht

section

variable (h : Rep sb s v) (hv : v.valid i = true)

include h hv

theorem itrunc_spec : wp (itrunc sb i) s
      (fun _ t => Rep sb t (v.setNode i { v.node i with data := [] })) E := by
  have hl := h.locked hv
  obtain ⟨t, hrun, ht⟩ := itrunc_ok h.consistent.own hl
  refine wp_inodes_of_ok hrun ?_
  have hkept := fun j hj hne => ht.kept h.consistent.own (i := j) hj hne
  have hc := h.change_node hl.lt (ht.consistent h.consistent hl)
    (h.noHoles.of_kept hkept (Or.inr (by rw [ht.inode hl]))) hkept fun j => by
      by_cases hj : j = i
      · rw [hj, ht.self]
      · rw [ht.icache j hj]
  have hzero : content sb t i = [] := content_of_size_zero (by rw [ht.inode hl])
  simp only [nodeOf, hzero, ht.inode hl] at hc
  rw [h.node_eq hl.lt]
  exact hc

/-! ## Reading and writing -/

theorem readi_spec {userDst : Bool} {dst : ℕ} (hn : n < 2 ^ 32) :
    wp (readi sb i userDst mem dst off n) s (fun _ t => t = s) E := by
  obtain ⟨r, mem', hrun⟩ := @readi_unchanged sb s.fs i mem off n dst userDst
    (h.locked hv) h.noHoles hn
  exact wp_inodes_of_ok hrun rfl

theorem writei_error_cases (hn : n < 2 ^ 32)
    (herr : Fs.writei sb s.fs i userSrc mem src off n = .error e) :
    e = .ballocOutOfBlocks := by
  by_cases hacc : Accepted s.fs i off n
  · exact (writei_error h.consistent (h.locked hv) hacc herr).1
  · rw [writei_of_not_accepted hn hacc] at herr
    cases herr

/-- Whatever a write does, it changes the contents of one inode only. -/
theorem writei_spec (hn : n < 2 ^ 32) (hE : E (.fs .ballocOutOfBlocks)) :
    wp (writei sb i userSrc mem src off n) s (fun _ t => ∃ data,
        Rep sb t (v.setNode i { v.node i with data := data })) E := by
  have hl := h.locked hv
  refine wp_inodes (fun r t hok => ?_) fun e herr => ?_
  · have hw := writei_rewritten h.consistent h.noHoles hl hn hok
    have hc := h.change_node hl.lt hw.consistent hw.noHoles hw.kept fun j => by
      by_cases hj : j = i
      · rw [hj, hw.self]
      · rw [hw.icache j hj]
    refine ⟨content sb t i, ?_⟩
    rw [h.node_eq hl.lt]
    simp only [nodeOf, hw.locked.inode, hl.inode] at hc ⊢
    rw [hw.self] at hc
    exact hc
  · rw [writei_error_cases h hv hn herr]
    exact hE

/-- A write of readable bytes inside the maximal size of a file. -/
theorem writei_data_spec (hn : n < 2 ^ 32) (hsrc : userSrc = true → Readable mem src n)
    (hoff : off ≤ (v.node i).data.length) (hE : E (.fs .ballocOutOfBlocks)) :
    wp (writei sb i userSrc mem src off n) s
      (fun r t => (off + n ≤ MAXFILE * BSIZE → r = n) ∧ (r = n → Rep sb t (v.setNode i
        { v.node i with data := (v.node i).data.write off (mem.bytes src n) }))) E := by
  have hl := h.locked hv
  rw [← h.data_eq hl.lt, length_content, hl.inode] at hoff
  refine wp_inodes (fun r t hok => ?_) fun e herr => ?_
  · by_cases hacc : Accepted s.fs i off n
    swap
    · rw [writei_of_not_accepted hn hacc] at hok
      cases hok
      exact ⟨fun hend => absurd ⟨hoff, hend⟩ hacc, fun hr => by omega⟩
    obtain ⟨hr, hw, -⟩ := wrote_of_writei h.consistent hl hacc hsrc hok
    refine ⟨fun _ => hr, fun _ => ?_⟩
    have hrw := writei_rewritten h.consistent h.noHoles hl hn hok
    have hc := h.change_node hl.lt hw.consistent hrw.noHoles hrw.kept fun j => by
        by_cases hj : j = i
        · rw [hj, hrw.self]
        · rw [hrw.icache j hj]
    have hdata : content sb t i = (v.node i).data.write off (mem.bytes src n) := by
      rw [← h.data_eq hl.lt]
      refine content_eq_write ?_ hw.size hw.bytes fun o ho => hw.outside i o (Or.inr ho)
      rwa [hl.inode]
    rw [h.node_eq hl.lt] at hdata ⊢
    simp only [nodeOf, hrw.locked.inode, hl.inode, hdata] at hc ⊢
    rw [hrw.self] at hc
    exact hc
  · rw [writei_error_cases h hv hn herr]
    exact hE

/-- Writing one entry of a directory. -/
theorem write_entry_spec {de : Dirent} (hmem : mem.bytes 0 direntSize = de.bytes)
    (hk : direntSize * k ≤ (v.node i).data.length) (hE : E (.fs .ballocOutOfBlocks)) :
    wp (writei sb i false mem 0 (direntSize * k) direntSize) s
      (fun r t => r = direntSize → Rep sb t (v.setNode i
        { v.node i with data := setEntry (v.node i).data k de })) E := by
  refine wp_mono (writei_data_spec h hv (by decide) (fun hfalse => by cases hfalse) hk hE) ?_
  rintro r t ⟨-, ht⟩ hr
  rw [setEntry, ← hmem]
  exact ht hr

/-- Reading one entry of a directory. -/
theorem readDirent_spec {p : Panic} (halign : direntSize ∣ (v.node i).data.length)
    (hk : k < slots (v.node i).data) :
    wp (readDirent sb i (direntSize * k) p) s
      (fun de t => t = s ∧ de = entry (v.node i).data k) E := by
  have hl := h.locked hv
  have hlen := h.length_le hv
  have hfits : direntSize * k + direntSize ≤ (v.node i).data.length := by
    rw [← slots_of_dvd halign]
    calc direntSize * k + direntSize = direntSize * (k + 1) := by ring
      _ ≤ _ := Nat.mul_le_mul_left _ hk
  have hmax : MAXFILE * BSIZE < 2 ^ 32 := by decide
  have hread : (File.read (content sb s.fs i) (direntSize * k) direntSize).length = direntSize := by
    rw [File.length_read, h.data_eq hl.lt]
    omega
  have hrun := @readi_ok (direntSize * k) direntSize 0 freshMemory false
    sb s.fs i hl h.noHoles (by omega) fun hfalse => nomatch hfalse
  refine wp_bind (R := fun r t => t = s ∧ r.1 = (direntSize : ℤ) ∧
      Dirent.decode r.2.byte = entry (v.node i).data k) (wp_inodes_of_ok hrun ?_) ?_
  · refine ⟨rfl, congrArg Nat.cast hread, Dirent.decode_congr fun j hj => ?_⟩
    simp only [Memory.store, Memory.write]
    rw [hread, h.data_eq hl.lt, if_pos (by omega), Nat.sub_zero,
      getD_eq_getElem?_getD, File.read, getElem?_take_of_lt hj,
      getElem?_drop, ← getD_eq_getElem?_getD]
  · rintro r t ⟨rfl, hr, hde⟩
    rw [if_neg (not_not.mpr hr)]
    exact wp_pure ⟨rfl, hde⟩

end

/-! ## Directories -/

section Directories

variable {dp : ℕ} {name : ℕ → Byte}

section

variable (h : Rep sb s v) (hv : v.valid dp = true)

include h hv

/-- The loop of `dirlookup` over some of the entries. -/
theorem findName_spec (halign : direntSize ∣ (v.node dp).data.length)
    (hks : ∀ k ∈ ks, k < slots (v.node dp).data) :
    wp (findName sb dp name (ks.map (direntSize * ·))) s (fun r t => t = s ∧ r = (ks.find? fun k =>
        decide ((entry (v.node dp).data k).inum ≠ 0 ∧
          (entry (v.node dp).data k).label = nameOf name)).map fun k =>
        (direntSize * k, (entry (v.node dp).data k).inum.toNat)) E := by
  induction ks with
  | nil => exact wp_pure ⟨rfl, rfl⟩
  | cons k ks ih =>
    have ih := ih fun j hj => hks j (mem_cons_of_mem k hj)
    refine wp_bind (readDirent_spec h hv halign (hks k mem_cons_self)) ?_
    rintro de t ⟨rfl, rfl⟩
    rw [find?_cons]
    refine wp_ite (fun hzero => ?_) fun hused => wp_ite (fun heq => ?_) fun hne => ?_
    · rw [decide_eq_false fun hx => hx.1 hzero]
      exact ih
    · have hlabel := ((namecmp_eq_zero_iff _ _).mp heq).symm
      rw [decide_eq_true ⟨hused, hlabel⟩]
      exact wp_pure ⟨rfl, rfl⟩
    · rw [decide_eq_false fun hx => hne ((namecmp_eq_zero_iff _ _).mpr hx.2.symm)]
      exact ih

/-- The inode number in entry `k` of directory `dp`. -/
def View.inumAt (v : View) (dp k : ℕ) : ℕ := (entry (v.node dp).data k).inum.toNat

/-- `dirlookup` searches the directory, and then takes a reference. -/
theorem dirlookup_rule {Q : Option (ℕ × ℕ) → State → Prop}
    (htype : (v.node dp).type = T_DIR) (halign : direntSize ∣ (v.node dp).data.length)
    (hnone : find (v.node dp).data (nameOf name) = none → Q none s)
    (hsome : ∀ k, find (v.node dp).data (nameOf name) = some k → wp (iget (v.inumAt dp k)) s
        (fun _ t => Q (some (v.inumAt dp k, direntSize * k)) t) E) :
    wp (dirlookup sb dp name) s Q E := by
  obtain ⟨hdir, -, -, hsize⟩ := h.icache_eq hv
  refine wp_read_bind ?_
  rw [if_neg (by rw [hdir]; exact not_not.mpr htype), hsize]
  refine wp_bind (findName_spec h hv halign fun k hk => mem_range.mp hk) ?_
  rintro r t ⟨rfl, hr⟩
  have hr : r = (find (v.node dp).data (nameOf name)).map fun k =>
    (direntSize * k, v.inumAt dp k) := hr
  cases hfind : find (v.node dp).data (nameOf name) with
  | none =>
    rw [hfind] at hr
    subst hr
    exact wp_pure (hnone hfind)
  | some k =>
    rw [hfind] at hr
    subst hr
    exact wp_bind (hsome k hfind) fun _ _ ht => wp_pure ht

theorem dirlookup_spec (htype : (v.node dp).type = T_DIR)
    (halign : direntSize ∣ (v.node dp).data.length)
    (hrange : ∀ k, find (v.node dp).data (nameOf name) = some k → v.inumAt dp k < sb.ninodes)
    (hE : NINODE ≤ v.entries → E .igetNoInodes) :
    wp (dirlookup sb dp name) s (fun r t => match find (v.node dp).data (nameOf name) with
        | none => r = none ∧ Rep sb t v
        | some k => r = some (v.inumAt dp k, direntSize * k) ∧
            Rep sb t (v.hold (v.inumAt dp k))) E := by
  refine dirlookup_rule h hv htype halign (fun hfind => ?_) fun k hfind => ?_
  · rw [hfind]
    exact ⟨rfl, h⟩
  · rw [hfind]
    exact wp_mono (iget_spec h (hrange k hfind) fun _ => hE) fun _ _ ht => ⟨rfl, ht⟩

theorem findFreeEntry_spec (halign : direntSize ∣ (v.node dp).data.length)
    (hks : ∀ k ∈ ks, k < slots (v.node dp).data) :
    wp (findFreeEntry sb dp (ks.map (direntSize * ·))) s (fun r t => t = s ∧ r = (ks.find? fun k =>
        decide ((entry (v.node dp).data k).inum = 0)).map (direntSize * ·)) E := by
  induction ks with
  | nil => exact wp_pure ⟨rfl, rfl⟩
  | cons k ks ih =>
    refine wp_bind (readDirent_spec h hv halign (hks k mem_cons_self)) ?_
    rintro de t ⟨rfl, rfl⟩
    rw [find?_cons]
    refine wp_ite (fun hzero => ?_) fun hused => ?_
    · rw [decide_eq_true hzero]
      exact wp_pure ⟨rfl, rfl⟩
    · rw [decide_eq_false hused]
      exact ih fun j hj => hks j (mem_cons_of_mem k hj)

theorem dirlink_new_spec (htype : (v.node dp).type = T_DIR)
    (halign : direntSize ∣ (v.node dp).data.length)
    (hnew : find (v.node dp).data (nameOf name) = none)
    (hfull : E (.fs .ballocOutOfBlocks)) (hlink : E .dirlink) :
    wp (dirlink sb dp name inum) s (fun r t => r = 0 ∧ Rep sb t (v.setNode dp
        { v.node dp with data := addEntry (v.node dp).data name inum })) E := by
  refine wp_bind (R := fun r t => r = none ∧ t = s) ?_ ?_
  · refine dirlookup_rule h hv htype halign (fun _ => ⟨rfl, rfl⟩) fun k hk => ?_
    rw [hnew] at hk
    cases hk
  rintro r t ⟨rfl, rfl⟩
  refine wp_read_bind ?_
  rw [(h.icache_eq hv).2.2.2]
  refine wp_bind (findFreeEntry_spec h hv halign fun k hk => mem_range.mp hk) ?_
  rintro r u ⟨rfl, rfl⟩
  -- The offset is that of the first free entry.
  have hoff : (((range (slots (v.node dp).data)).find? fun k =>
      decide ((entry (v.node dp).data k).inum = 0)).map
        (direntSize * ·)).getD (slots (v.node dp).data * direntSize) =
      direntSize * freeSlot (v.node dp).data := by
    unfold freeSlot
    cases (range (slots (v.node dp).data)).find? fun k =>
        decide ((entry (v.node dp).data k).inum = 0) with
    | none => exact Nat.mul_comm _ _
    | some k => rfl
  dsimp only
  refine wp_bind (R := fun r t => r = (direntSize : ℤ) → Rep sb t (v.setNode dp
      { v.node dp with data := addEntry (v.node dp).data name inum }))
    ?_ ?_
  · rw [show ((v.node dp).data.length + direntSize - 1) / direntSize =
      slots (v.node dp).data from rfl, hoff]
    exact write_entry_spec h hv rfl (freeSlot_fits halign) hfull
  · intro r u hu
    exact wp_ite (fun _ => wp_fail hlink) fun hr => wp_pure ⟨rfl, hu (not_not.mp hr)⟩

theorem dirlink_spec (htype : (v.node dp).type = T_DIR)
    (halign : direntSize ∣ (v.node dp).data.length)
    (hrange : ∀ k, find (v.node dp).data (nameOf name) = some k → v.inumAt dp k < sb.ninodes)
    (hE : NINODE ≤ v.entries → E .igetNoInodes) (hfull : E (.fs .ballocOutOfBlocks))
    (hlink : E .dirlink) :
    wp (dirlink sb dp name inum) s (fun r t => match find (v.node dp).data (nameOf name) with
        | some k => r = -1 ∧ Rep sb t ((v.hold (v.inumAt dp k)).release (v.inumAt dp k))
        | none => r = 0 ∧ Rep sb t (v.setNode dp
            { v.node dp with
              data := addEntry (v.node dp).data name inum })) E := by
  cases hfind : find (v.node dp).data (nameOf name) with
  | none => exact dirlink_new_spec h hv htype halign hfind hfull hlink
  | some k =>
    refine wp_bind (dirlookup_spec h hv htype halign hrange hE) fun r t ht => ?_
    rw [hfind] at ht
    obtain ⟨rfl, ht⟩ := ht
    refine wp_bind (iput_spec ht (hrange k hfind)) ?_
    rintro - u hu
    exact wp_pure ⟨rfl, hu⟩

/-- No entry after the first two is in use. -/
def EmptyDir (f : File) : Prop := ∀ k, 2 ≤ k → (entry f k).inum = 0

theorem isdiremptyLoop_spec (halign : direntSize ∣ (v.node dp).data.length)
    (hks : ∀ k ∈ ks, k < slots (v.node dp).data) :
    wp (isdiremptyLoop sb dp (ks.map (direntSize * ·))) s (fun r t => t = s ∧ (r = true ↔
        ∀ k ∈ ks, (entry (v.node dp).data k).inum = 0)) E := by
  induction ks with
  | nil => exact wp_pure ⟨rfl, by simp⟩
  | cons k ks ih =>
    refine wp_bind (readDirent_spec h hv halign (hks k mem_cons_self)) ?_
    rintro de t ⟨rfl, rfl⟩
    refine wp_ite (fun hused => wp_pure ⟨rfl, ?_⟩) fun hfree => ?_
    · refine iff_of_false (by simp) fun hall => hused ?_
      exact hall k mem_cons_self
    · refine wp_mono (ih fun j hj => hks j (mem_cons_of_mem k hj)) ?_
      rintro r t ⟨rfl, hr⟩
      refine ⟨rfl, hr.trans ?_⟩
      rw [forall_mem_cons]
      exact ⟨fun hall => ⟨not_not.mp hfree, hall⟩, And.right⟩

theorem isdirempty_spec (halign : direntSize ∣ (v.node dp).data.length) : wp (isdirempty sb dp) s
      (fun r t => t = s ∧ (r = true ↔ EmptyDir (v.node dp).data)) E := by
  refine wp_read_bind ?_
  rw [(h.icache_eq hv).2.2.2, offsets, ← map_drop]
  refine wp_mono (isdiremptyLoop_spec h hv halign fun k hk => mem_range.mp (mem_of_mem_drop hk)) ?_
  rintro r t ⟨rfl, hr⟩
  refine ⟨rfl, hr.trans ⟨fun hall k hk => ?_, fun hempty k hk => ?_⟩⟩
  · by_contra hused
    refine hused (hall k ?_)
    rw [range_eq_range', drop_range', mem_range']
    have hlt : k < ((v.node dp).data.length + direntSize - 1) / direntSize := lt_slots_of_used hused
    exact ⟨k - 2, by omega, by omega⟩
  · refine hempty k ?_
    rw [range_eq_range', drop_range', mem_range'] at hk
    omega

end

end Directories

end OsCa.Sysfile
