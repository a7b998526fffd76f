import OsCa.Kernel.Sysfile.View

/-!
# Path lookup

A path is resolved by following names from directory to directory.  `View.walk`
says this on a view, without locks and references, and `namex` computes it.
While it does so it takes and drops references, and dropping one may free an
inode that has no links and that nobody else refers to; `Looked` says that
nothing else happens.
-/

namespace OsCa.Sysfile

open Bytes Fs OsCa.Action

variable {held' : List ℕ} {parent : Bool} {ip : ℕ} {path : List Byte}

/-! ## Following names -/

/-- Follow the names `ns` from inode `ip`.  With `parent`, stop at the directory
in which the last name would be looked up, and return this name as well. -/
def View.walk (v : View) (parent : Bool) : ℕ → List Name → Option (ℕ × Option Name)
  | ip, [] => if parent then none else some (ip, none)
  | ip, n :: ns =>
    if (v.node ip).type = T_DIR then
      if parent = true ∧ ns = [] then
        some (ip, some n)
      else
        match find (v.node ip).data n with
        | none => none
        | some k => v.walk parent (v.inumAt ip k) ns
    else
      none

/-- Where the lookup of a path begins. -/
def startOf (cwd : ℕ) (path : List Byte) : ℕ := if path.head? = some slash then ROOTINO else cwd

/-- What `namei` finds. -/
def View.namei (v : View) (cwd : ℕ) (path : List Byte) : Option ℕ :=
  (v.walk false (startOf cwd path) (elements path)).map Prod.fst

/-- What `nameiparent` finds: a directory, and the last name of the path. -/
def View.nameiparent (v : View) (cwd : ℕ) (path : List Byte) :
    Option (ℕ × Option Name) :=
  v.walk true (startOf cwd path) (elements path)

/-- Directories can be searched. -/
structure Searchable (sb : Superblock) (v : View) : Prop where
  aligned : ∀ d, (v.node d).type = T_DIR → direntSize ∣ (v.node d).data.length
  range : ∀ d k, (v.node d).type = T_DIR →
    (entry (v.node d).data k).inum ≠ 0 → v.inumAt d k < sb.ninodes

/-- Lookups find allocated inodes only. -/
structure Closed (v : View) : Prop where
  used : ∀ d k, (v.node d).type = T_DIR →
    (entry (v.node d).data k).inum ≠ 0 → (v.node (v.inumAt d k)).type ≠ 0
  kept : ∀ i, (v.node i).type ≠ 0 → (v.node i).nlink = 0 → v.ref i ≠ 0

/-- A panic other than that of a lookup that finds a free inode. -/
def Tolerant (E : Panic → Prop) : Prop := ∀ e, e ≠ .fs .ilockNoType → E e

/-! ## References taken by lookups -/

/-- How many entries of the inode cache are taken by the references `held`. -/
def fresh (ref : ℕ → ℕ) : List ℕ → ℕ
  | [] => 0
  | i :: held => fresh ref held + if ref i + held.count i = 0 then 1 else 0

section

variable {ref ref' : ℕ → ℕ} {held : List ℕ}

theorem fresh_le : fresh ref held ≤ held.length := by
  induction held with
  | nil => exact le_rfl
  | cons i held ih =>
    rw [fresh, List.length_cons]
    split_ifs <;> omega

theorem fresh_perm (hp : held.Perm held') : fresh ref held = fresh ref held' := by
  induction hp with
  | nil => rfl
  | cons i hp ih => rw [fresh, fresh, ih, hp.count_eq]
  | swap i j l =>
    by_cases hij : i = j
    · rw [hij]
    · simp only [fresh, List.count_cons_of_ne hij, List.count_cons_of_ne (Ne.symm hij)]
      omega
  | trans _ _ h h' => exact h.trans h'

theorem fresh_append (h : ∀ i, ref' i = ref i + held.count i) :
    fresh ref (held' ++ held) = fresh ref held + fresh ref' held' := by
  induction held' with
  | nil => rfl
  | cons i held' ih =>
    rw [List.cons_append, fresh, fresh, ih, h i, List.count_append, Nat.add_assoc,
      Nat.add_assoc, Nat.add_comm (held.count i)]

end

/-- The view `w` after lookups from `v`, which have left behind references to
the inodes `held`. -/
structure Looked (v w : View) (held : List ℕ) : Prop where
  file : w.file = v.file
  proc : w.proc = v.proc
  ref : ∀ i, w.ref i = v.ref i + held.count i
  entries : w.entries = v.entries + fresh v.ref held
  node : ∀ i, w.node i = v.node i ∨
    v.ref i = 0 ∧ (v.node i).type ≠ 0 ∧ (v.node i).nlink = 0 ∧ w.node i = (v.node i).freed
  valid : ∀ i, 0 < v.ref i → v.valid i = true → w.valid i = true

namespace Looked

variable {v w : View} {held : List ℕ} {i : ℕ}

theorem refl (v : View) : Looked v v [] :=
  ⟨rfl, rfl, fun _ => rfl, rfl, fun _ => Or.inl rfl, fun _ _ hv => hv⟩

section

variable (h : Looked v w held)

include h

theorem perm (hp : held.Perm held') : Looked v w held' :=
  ⟨h.file, h.proc, fun i => by rw [h.ref, hp.count_eq], fresh_perm hp ▸ h.entries, h.node, h.valid⟩

theorem node_eq (htype : (w.node i).type ≠ 0) : w.node i = v.node i := by
  rcases h.node i with heq | ⟨-, -, -, hfreed⟩
  · exact heq
  · rw [hfreed] at htype
    exact absurd rfl htype

theorem node_eq_of_ref (href : 0 < v.ref i) : w.node i = v.node i := by
  rcases h.node i with heq | ⟨hzero, -⟩
  · exact heq
  · omega

/-- Nothing is freed if all inodes without links are referenced. -/
theorem node_eq_of_closed (hclosed : Closed v) : w.node = v.node := by
  funext i
  rcases h.node i with heq | ⟨hzero, htype, hnlink, -⟩
  · exact heq
  · exact absurd hzero (hclosed.kept i htype hnlink)

theorem trans {u : View} (h' : Looked w u held') : Looked v u (held' ++ held) := by
  refine ⟨h'.file.trans h.file, h'.proc.trans h.proc, fun i => ?_, ?_, fun i => ?_,
    fun i hi hv => h'.valid i (by rw [h.ref]; omega) (h.valid i hi hv)⟩
  · rw [h'.ref, h.ref, List.count_append]
    omega
  · rw [h'.entries, h.entries, fresh_append h.ref, Nat.add_assoc]
  · rcases h'.node i with heq | ⟨hzero, htype, hnlink, hfreed⟩
    · rw [heq]
      exact h.node i
    · have hnode := h.node_eq htype
      rw [h.ref] at hzero
      rw [hnode] at htype hnlink hfreed
      exact Or.inr ⟨by omega, htype, hnlink, hfreed⟩

theorem hold (i : ℕ) : Looked v (w.hold i) (i :: held) := by
  refine ⟨by simp [h.file], by simp [h.proc], fun j => ?_, ?_,
    fun j => by simpa using h.node j, fun j hj hv => ?_⟩
  · rw [View.ref_hold, List.count_cons, h.ref, h.ref]
    by_cases hji : j = i
    · subst j
      simp
      omega
    · simp [hji, Ne.symm hji]
  · rw [View.entries_hold, h.entries, h.ref, fresh, Nat.add_assoc]
  · have hne : w.ref j ≠ 0 := by
      rw [h.ref]
      omega
    rw [View.valid_hold, if_neg]
    · exact h.valid j hj hv
    · rintro ⟨rfl, hzero⟩
      exact hne hzero

theorem lock (i : ℕ) : Looked v (w.lock i) held := by
  refine ⟨h.file, h.proc, h.ref, h.entries, h.node, fun j hj hv => ?_⟩
  rw [View.valid_lock, h.valid j hj hv, ite_self]

end

theorem release (h : Looked v w (i :: held)) (hvalid : w.valid i = true → (w.node i).type ≠ 0) :
    Looked v (w.release i) held := by
  have hi := h.ref i
  rw [List.count_cons_self] at hi
  -- An inode that is freed here was not referenced before the lookups.
  have hzero : w.Dying i → v.ref i = 0 := fun hd => by
    have := hd.1
    omega
  refine ⟨h.file, h.proc, fun j => ?_, ?_, fun j => ?_, fun j hj hv => ?_⟩
  · rw [View.ref_release]
    split
    next heq =>
      rw [heq]
      omega
    next hne => rw [h.ref, List.count_cons_of_ne (Ne.symm hne)]
  · have hentries := h.entries
    unfold fresh at hentries
    unfold View.release
    dsimp only
    split_ifs at hentries ⊢ <;> omega
  · rw [View.node_release]
    split
    next hd =>
      obtain ⟨rfl, hd⟩ := hd
      have htype := hvalid hd.2.1
      have heq := h.node_eq htype
      refine Or.inr ⟨hzero hd, ?_, ?_, ?_⟩ <;> rw [← heq]
      · exact htype
      · exact hd.2.2
    next => exact h.node j
  · rw [View.valid_release, if_neg]
    · exact h.valid j hj hv
    · rintro ⟨rfl, hd⟩
      have := hzero hd
      omega

end Looked

/-! ## `namex` -/

variable {sb : Superblock} {s : State} {v w : View} {E : Panic → Prop}
  {held : List ℕ}

theorem View.walk_type {ip' : ℕ} {ns : List Name} {n : Name}
    (h : v.walk parent ip ns = some (ip', some n)) : (v.node ip').type = T_DIR := by
  induction ns generalizing ip with
  | nil =>
    unfold View.walk at h
    split at h <;> simp at h
  | cons m ns ih =>
    unfold View.walk at h
    obtain ⟨htype, h⟩ := Option.ite_none_right_eq_some.mp h
    split at h
    next =>
      cases h
      exact htype
    next =>
      split at h
      · cases h
      · exact ih h

/-- How `namex` ends. -/
def Walked (sb : Superblock) (v : View) (held : List ℕ)
    (found : Option (ℕ × Option Name)) (r : Option (ℕ × NameBuffer))
    (t : State) : Prop :=
  ∃ w, Rep sb t w ∧ match found with
    | none => r = none ∧ Looked v w held
    | some (ip, n) => ∃ buf, r = some (ip, buf) ∧ (∀ m, n = some m → nameOf (peek buf) = m) ∧
        ip < sb.ninodes ∧ Looked v w (ip :: held)

theorem namexLoop_spec {name : NameBuffer} (hsearch : Searchable sb v)
    (hE : NINODE ≤ v.entries + held.length + 1 → E .igetNoInodes)
    (h : Rep sb s w) (hl : Looked v w (ip :: held))
    (hip : ip < sb.ninodes) (hpath : ∀ b ∈ path, b ≠ 0)
    (hsafe : E (.fs .ilockNoType) ∨ Closed v ∧ (v.node ip).type ≠ 0) :
    wp (namexLoop sb parent ip path name) s
      (Walked sb v held (v.walk parent ip (elements path))) E := by
  -- The induction is on the length of the path; every round takes one element.
  induction hlen : path.length using Nat.strong_induction_on generalizing path name ip s w with
  | _ m ih =>
  subst hlen
  rw [namexLoop]
  split
  next path' name' hskip =>
    have hsplit := splitElem_of_skipelem hpath hskip
    rw [elements_of_some hsplit]
    have href := hl.ref ip
    rw [List.count_cons_self] at href
    refine wp_bind (ilock_spec h hip (fun hzero => absurd hzero (by omega)) fun hzero => ?_) ?_
    · rcases hsafe with hsafe | ⟨hclosed, htype⟩
      · exact hsafe
      · rw [hl.node_eq_of_closed hclosed] at hzero
        exact absurd hzero htype
    rintro - t ⟨ht, htype⟩
    have hlock := hl.lock ip
    have hv : (w.lock ip).valid ip = true := by simp [View.lock]
    have hnode : (w.lock ip).node ip = v.node ip := hl.node_eq htype
    refine wp_read_bind ?_
    rw [(ht.icache_eq hv).1, hnode]
    rw [View.walk]
    refine wp_ite (fun hdir => ?_) fun hdir => ?_
    · -- Not a directory.
      rw [if_neg hdir]
      refine wp_bind (iput_spec ht hip) fun _ u hu => wp_pure ?_
      exact ⟨_, hu, rfl, hlock.release ht.type_ne_zero⟩
    have hdir := not_not.mp hdir
    rw [if_pos hdir]
    refine wp_ite (fun hstop => ?_) fun hstop => ?_
    · -- Stop one level early.
      rw [if_pos ⟨hstop.1, (rest_eq_nil_iff hsplit).mp hstop.2⟩]
      exact wp_pure ⟨_, ht, name', rfl, fun m hm => Option.some.inj hm, hip, hlock⟩
    rw [if_neg fun hx => hstop ⟨hx.1, (rest_eq_nil_iff hsplit).mpr hx.2⟩]
    have hinum : ∀ k, (w.lock ip).inumAt ip k = v.inumAt ip k := fun k => by
      unfold View.inumAt
      rw [hnode]
    refine wp_bind (dirlookup_spec ht hv (by rw [hnode]; exact hdir)
      (by rw [hnode]; exact hsearch.aligned ip hdir)
      (fun k hk => ?_) fun hfull => hE (hfull.trans ?_)) fun r u hu => ?_
    · rw [hnode] at hk
      rw [hinum]
      exact hsearch.range ip k hdir (find_eq_some_iff.mp hk).1
    · rw [hlock.entries, Nat.add_assoc]
      exact Nat.add_le_add_left fresh_le _
    rw [hnode] at hu
    cases hfind : find (v.node ip).data (nameOf (peek name')) with
    | none =>
      rw [hfind] at hu
      obtain ⟨rfl, hu⟩ := hu
      refine wp_bind (iput_spec hu hip) fun _ t hz => wp_pure ?_
      exact ⟨_, hz, rfl, hlock.release hu.type_ne_zero⟩
    | some k =>
      rw [hfind] at hu
      obtain ⟨rfl, hu⟩ := hu
      rw [hinum] at hu ⊢
      have hnext := hsearch.range ip k hdir (find_eq_some_iff.mp hfind).1
      refine wp_bind (iput_spec hu hip) fun _ t hz => ?_
      have hheld : Looked v ((w.lock ip).hold (v.inumAt ip k)) (ip :: v.inumAt ip k :: held) :=
        (hlock.hold (v.inumAt ip k)).perm (List.Perm.swap _ _ _)
      refine ih path'.length (splitElem_rest hsplit).1 hz (hheld.release hu.type_ne_zero) hnext
        (fun b hb => hpath b ((splitElem_rest hsplit).2 b hb)) ?_ rfl
      rcases hsafe with hsafe | ⟨hclosed, -⟩
      · exact Or.inl hsafe
      · exact Or.inr ⟨hclosed, hclosed.used ip k hdir (find_eq_some_iff.mp hfind).1⟩
  next hskip =>
    rw [elements_of_none (skipelem_none_iff.mp hskip), View.walk]
    cases parent with
    | true =>
      refine wp_bind (iput_spec h hip) fun _ t ht => wp_pure ?_
      exact ⟨_, ht, rfl, hl.release h.type_ne_zero⟩
    | false => exact wp_pure ⟨w, h, name, rfl, fun m hm => (nomatch hm), hip, hl⟩

/-- `namex` finds what following the names on the view finds. -/
theorem namex_spec {cwd : ℕ} (hsearch : Searchable sb v)
    (hE : NINODE ≤ v.entries + held.length + 1 → E .igetNoInodes) (h : Rep sb s w)
    (hl : Looked v w held) (hroot : ROOTINO < sb.ninodes)
    (hcwd : cwd < sb.ninodes) (href : 0 < v.ref cwd) (hpath : ∀ b ∈ path, b ≠ 0)
    (hsafe : E (.fs .ilockNoType) ∨ Closed v ∧ (v.node (startOf cwd path)).type ≠ 0) :
    wp (namex sb cwd path parent) s (Walked sb v held
        (v.walk parent (startOf cwd path) (elements path))) E := by
  unfold namex
  unfold startOf at *
  refine wp_ite (fun hslash => ?_) fun hslash => ?_
  · rw [if_pos hslash] at hsafe ⊢
    refine wp_bind (iget_spec h hroot fun _ hfull => hE (hfull.trans ?_)) fun _ t ht => ?_
    · rw [hl.entries]
      exact Nat.le_succ_of_le (Nat.add_le_add_left fresh_le _)
    exact namexLoop_spec hsearch hE ht (hl.hold ROOTINO) hroot hpath hsafe
  · rw [if_neg hslash] at hsafe ⊢
    have hpos : 0 < w.ref cwd := by
      rw [hl.ref]
      omega
    refine wp_bind (idup_spec h hpos) fun _ t ht => ?_
    exact namexLoop_spec hsearch hE ht (hl.hold cwd) hcwd hpath hsafe

end OsCa.Sysfile
