import OsCa.Kernel.Sysfile.Calls

/-!
# Directories are maps from names to inodes

Every directory keeps its shape whatever calls processes make: a whole number
of entries, the first two of which are `.` and `..`, and no name twice.  The
contents of a directory are changed by `dirlink` and `sys_unlink` only, since
no descriptor of a directory is writable.
-/

namespace OsCa.Sysfile

open Bytes Fs OsCa.Action Relation Option Finset

variable {sb : Superblock} {s : State} {v : View} {dp : ℕ} {name : ℕ → Byte}

variable {links unlinks : Prop} {m m' : List ℕ × View} {inum d b : ℕ} {s' : State}
  {o : OneBlock}

/-! ## Changes of a directory -/

/-- The policy of a call that makes, or removes, entries at all. -/
def editPolicy (links unlinks : Prop) : Policy where
  entry _ _ := links
  link _ _ := True
  unlink _ _ := unlinks

namespace Call

/-- The call can make entries, through `dirlink`. -/
def Links : Call → Prop
  | .open _ omode => omode &&& O_CREATE ≠ 0
  | .mkdir _ => True
  | .mknod _ _ _ => True
  | .link _ _ => True
  | _ => False

/-- The call is `sys_unlink`. -/
def Unlinks : Call → Prop
  | .unlink _ => True
  | _ => False

theorem permitted_edits (c : Call) (v : View) (cwd : ℕ) :
    c.Permitted (editPolicy c.Links c.Unlinks) v cwd where
  entry _ _ _ _ h := by
    cases c with
    | «open» => exact h.1
    | mkdir | mknod | link => trivial
    | unlink | chdir | close | read | write | exit => exact h.elim
  link _ _ _ _ _ := trivial
  unlink _ _ _ _ h := by
    cases c with
    | unlink => trivial
    | «open» | mkdir | mknod | link | chdir | close | read | write | exit => exact h.elim

end Call

/-! ## `dirlookup` after `dirlink` -/

section

variable (h : Rep sb s v) (hv : v.valid dp = true) (htype : (v.node dp).type = T_DIR)
  (halign : direntSize ∣ (v.node dp).data.length)

include h hv htype halign

end

/-! ## File systems from the list of their files -/

/-- The state with these files, in which nothing is cached. -/
def State.ofFiles (sb : Superblock) (l : List OneBlock) (entries : ℕ)
    (file : Fin NFILE → OpenFile) (proc : Fin NPROC → Proc) : State where
  fs := ⟨plant sb l, fun _ => { newDinode 0 with valid := false }, []⟩
  ref i := (univ.filter fun p => (proc p).cwd = some i).card +
    (univ.filter fun f => (file f).Refers i).card
  entries := entries
  file := file
  proc := proc

/-- The directories among the files are well formed, and name files of the list.  Open files
are no directories, and current directories are. -/
structure FileTree (sb : Superblock) (l : List OneBlock) (s : State) : Prop
    extends Planted sb l s.fs where
  ninodes : sb.ninodes ≤ 2 ^ 16 ∧ ROOTINO < sb.ninodes
  dirs : ∀ o ∈ l, o.type = T_DIR → Directory o.inum o.data
  named : ∀ o ∈ l, o.type = T_DIR → ∀ k < slots o.data,
    ∃ p ∈ l, p.inum = (entry o.data k).inum.toNat
  refs : ∀ i, s.ref i = (s.view sb).holders i
  files : ∀ f, (s.file f).type = .none ∨ (s.file f).ref ≠ 0 ∧
    ∃ o ∈ l, o.inum = (s.file f).ip ∧ o.type ≠ T_DIR
  cwds : ∀ p, ∀ i ∈ (s.proc p).cwd, ∃ o ∈ l, o.inum = i ∧ o.type = T_DIR

namespace FileTree

variable {l : List OneBlock} {k : ℕ} (h : FileTree sb l s)

include h

theorem rep : Rep sb s (s.view sb) := ⟨h.consistent, h.noHoles, rfl⟩

theorem node_eq (ho : o ∈ l) : (s.view sb).node o.inum = ⟨o.type, 0, 0, o.nlink, o.data⟩ := by
  rw [h.rep.node_eq (h.file o ho).1, nodeOf, h.inode_eq ho, h.content_eq ho]
  rfl

theorem mem_of_type (htype : ((s.view sb).node d).type ≠ 0) : ∃ o ∈ l, o.inum = d := by
  have hlt := h.rep.lt_of_type htype
  rw [h.rep.node_eq hlt] at htype
  obtain ⟨o, ho, hinum, -⟩ := h.exists_of_type hlt htype
  exact ⟨o, ho, hinum⟩

section

variable (hd : ((s.view sb).node d).type = T_DIR)

include hd

theorem mem_of_dir : ∃ o ∈ l, o.inum = d ∧ o.type = T_DIR := by
  obtain ⟨o, ho, rfl⟩ := h.mem_of_type (by rw [hd]; exact T_DIR_ne_zero)
  rw [h.node_eq ho] at hd
  exact ⟨o, ho, rfl, hd⟩

theorem mem_of_entry (hk : (entry ((s.view sb).node d).data k).inum ≠ 0) :
    ∃ p ∈ l, p.inum = (s.view sb).inumAt d k := by
  obtain ⟨o, ho, rfl, hdir⟩ := h.mem_of_dir hd
  rw [View.inumAt]
  rw [h.node_eq ho] at hk ⊢
  exact h.named o ho hdir k (lt_slots_of_used hk)

theorem used (hk : (entry ((s.view sb).node d).data k).inum ≠ 0) :
    ((s.view sb).node ((s.view sb).inumAt d k)).type ≠ 0 := by
  obtain ⟨p, hp, heq⟩ := h.mem_of_entry hd hk
  rw [← heq, h.node_eq hp]
  exact (h.file p hp).2.1

end

theorem mounted : Mounted sb s := by
  refine ⟨h.ninodes.1, h.ninodes.2, h.consistent, h.noHoles, h.refs, fun f i hf => ?_,
    fun f hf => (h.files f).resolve_right fun hopen => hopen.1 hf, fun p i hp => ?_,
    fun d hd => ?_, fun d k hd hk => ?_⟩
  · obtain ⟨htype, rfl⟩ : (s.file f).Refers i := hf
    rcases h.files f with hnone | ⟨-, o, ho, hinum, hdir⟩
    · rw [hnone] at htype
      exact absurd htype (by decide)
    · rw [← hinum, h.node_eq ho]
      exact ⟨(h.file o ho).2.1, fun _ => hdir⟩
  · obtain ⟨o, ho, rfl, htype⟩ := h.cwds p i hp
    rw [h.node_eq ho]
    exact htype
  · obtain ⟨o, ho, rfl, hdir⟩ := h.mem_of_dir hd
    rw [h.node_eq ho]
    exact h.dirs o ho hdir
  · obtain ⟨p, hp, heq⟩ := h.mem_of_entry hd hk
    exact heq ▸ (h.file p hp).1

end FileTree

/-- A directory in one block. -/
def dirBlock (inum : ℕ) (nlink : Short) (block : Uint) (es : List (BitVec 16 × List Byte)) :
    OneBlock :=
  ⟨inum, T_DIR, nlink, BitVec.ofNat 32 (direntSize * es.length), block,
    (es.map fun e => ⟨e.1, fun j => e.2.getD j 0⟩).flatMap Dirent.bytes⟩

/-! The directories `/`, `/a` and `/a/b`, and two processes, in `/` and in `/a/b`. -/

def smallSuperblock : Superblock where
  size := 12
  nblocks := 6
  ninodes := 40
  inodestart := 0
  bmapstart := 3
  size_lt := by decide
  inodes_fit := by decide
  bitmap_fit := by decide

/-- The three directories, of which `/a` has `nlink` links. -/
def smallFiles (nlink : Short) : List OneBlock := [dirBlock 33 1 8 [(33, dot), (17, dotdot)],
    dirBlock 17 nlink 7 [(17, dot), (1, dotdot), (33, [98])],
    dirBlock 1 2 6 [(1, dot), (1, dotdot), (17, [97])]]

/-- No file is open. -/
def smallState (nlink : Short) : State :=
  .ofFiles smallSuperblock (smallFiles nlink) 2 (fun _ => ⟨.none, 0, false, false, 0, 0, 0⟩)
    fun p => ⟨fun _ => none, if p.val = 0 then some 1 else if p.val = 1 then some 33 else none⟩

def smallTree : State := smallState 2

theorem smallState_tree {nlink : Short} (h : nlink = 0 ∨ nlink = 2) :
    FileTree smallSuperblock (smallFiles nlink) (smallState nlink) := by
  have hdirs : ∀ o ∈ smallFiles nlink, Directory o.inum o.data := by
    simp only [smallFiles, List.forall_mem_cons]
    exact ⟨.of_list (d := 33) (by decide) (by decide) (by decide),
      .of_list (d := 17) (by decide) (by decide) (by decide),
      .of_list (d := 1) (by decide) (by decide) (by decide), by simp⟩
  rcases h with rfl | rfl <;> exact ⟨⟨⟨by decide +kernel, by decide +kernel⟩, rfl, nofun⟩,
    by decide, fun o ho _ => hdirs o ho, by decide +kernel, fun _ => rfl,
    fun _ => Or.inl rfl, by decide +kernel⟩

theorem smallTree_tree : FileTree smallSuperblock (smallFiles 2) smallTree :=
  smallState_tree (Or.inr rfl)

theorem smallTree_mounted : Mounted smallSuperblock smallTree := smallTree_tree.mounted

theorem smallTree_cases (h : ((smallTree.view smallSuperblock).node d).type ≠ 0) :
    d = 1 ∨ d = 17 ∨ d = 33 := by
  obtain ⟨o, ho, rfl⟩ := smallTree_tree.mem_of_type h
  clear h
  revert o
  decide +kernel

/-! ## The system -/

/-- Processes that make system calls, from any state between calls. -/
def system (sb : Superblock) : EventSystem State (Fin NPROC × Call) where
  init := Mounted sb
  step := step sb

theorem mounted_of_reachable (h : (system sb).Reachable s) : Mounted sb s := by
  refine h.invariant (P := Mounted sb) (fun _ hs => hs) ?_
  rintro s ⟨p, c⟩ t hs hstep
  obtain ⟨cwd, hcwd⟩ := Mounted.cwd_of_step hstep
  exact (hs.step_moves hcwd (c.permitted_edits _ cwd) hstep).2

/-- A path that is short enough for `argstr`. -/
def smallPath (bytes : List Byte)
    (h : (∀ b ∈ bytes, b ≠ 0) ∧ bytes.length < MAXPATH) : Option Path :=
  some ⟨bytes, h.1, h.2⟩

/-- The path `x`. -/
def pathX : Option Path := smallPath [120] (by decide)

/-- The first process. -/
def proc : Fin NPROC := ⟨0, by decide⟩

/-- The first process removes `/a/b`. -/
def removeB : Fin NPROC × Call := (proc, .unlink (smallPath [97, 47, 98] (by decide)))

theorem run_removeB : ∃ t, (system smallSuperblock).run smallTree [removeB] = some t :=
  isSome_iff_exists.mp (by decide +kernel)

/-- Every call, also one that fails, leaves the bitmap consistent and the files without holes,
and keeps no reference to an inode but those of open files and current directories; so no inode
is freed while it is in use. -/
theorem calls_balance_references (h : (system sb).Reachable s) :
    Consistent sb s.fs ∧ NoHoles sb s.fs ∧ (∀ i, s.ref i = (s.view sb).holders i) ∧
      ∀ i, 0 < s.ref i → ((s.view sb).node i).type ≠ 0 := by
  have hs := mounted_of_reachable h
  have href : ∀ i, s.ref i = (s.view sb).holders i := hs.base.refs
  exact ⟨hs.consistent, hs.noHoles, href, fun i hi => hs.base.type_of_holder (href i ▸ hi)⟩

/-- The removed directory `/a/b` is still the current directory of a process. -/
theorem calls_balance_references_small :
    ∃ t, (system smallSuperblock).run smallTree [removeB] = some t ∧ 0 < t.ref 33 ∧
      Consistent smallSuperblock t.fs ∧ ((t.view smallSuperblock).node 33).type ≠ 0 := by
  have hrun : ∃ t, (system smallSuperblock).run smallTree [removeB] = some t ∧ 0 < t.ref 33 :=
    EventSystem.exists_of_any_run (by decide +kernel)
  obtain ⟨t, ht, href⟩ := hrun
  obtain ⟨hcons, -, -, hused⟩ :=
    calls_balance_references ⟨smallTree, [removeB], smallTree_mounted, ht⟩
  exact ⟨t, ht, href, hcons, hused 33 href⟩

end OsCa.Sysfile
