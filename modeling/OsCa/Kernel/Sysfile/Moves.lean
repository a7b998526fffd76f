import OsCa.Support.Counting
import OsCa.Kernel.Sysfile.Paths

/-!
# The moves of the system calls

What the system calls are for, without their control flow: they look up paths,
lock inodes and drop references to them, create, link and unlink names, and open
and close files.  Each of these is one move on views.  A system call is a
sequence of moves that begins and ends without references of its own; the list
`held` is what it holds in between.

A property that every move keeps is kept by every call.  The first such property
is `Base`: reference counts are exact, and directories are well formed.
-/

namespace OsCa.Sysfile

open Bytes Fs Counting Finset

variable {p : Fin NPROC} {f : Fin NFILE} {L' : List ℕ} {file : OpenFile}
  {type major : Short} {omode : BitVec 32} {m m' : List ℕ × View}

/-! ## Who refers to an inode -/

def OpenFile.Refers (file : OpenFile) (i : ℕ) : Prop :=
  (file.type = .inode ∨ file.type = .device) ∧ file.ip = i

instance (file : OpenFile) (i : ℕ) : Decidable (file.Refers i) :=
  inferInstanceAs (Decidable (_ ∧ _))

/-- How many processes and open files refer to inode `i`. -/
def View.holders (v : View) (i : ℕ) : ℕ := (univ.filter fun p => (v.proc p).cwd = some i).card +
    (univ.filter fun f => (v.file f).Refers i).card

theorem holders_setFile (v : View) (f : Fin NFILE) (g : OpenFile → OpenFile) (i : ℕ) :
    (v.setFile f g).holders i + (if (v.file f).Refers i then 1 else 0) =
      v.holders i + if (g (v.file f)).Refers i then 1 else 0 := by
  have hcard := card_filter_update v.file f (g (v.file f)) (·.Refers i)
  unfold View.holders
  change (univ.filter fun p => (v.proc p).cwd = some i).card + (univ.filter fun f' =>
      (Function.update v.file f (g (v.file f)) f').Refers i).card + _ = _
  omega

theorem holders_setProc (v : View) (p : Fin NPROC) (g : Proc → Proc) (i : ℕ) :
    (v.setProc p g).holders i + (if (v.proc p).cwd = some i then 1 else 0) =
      v.holders i + if (g (v.proc p)).cwd = some i then 1 else 0 := by
  have hcard := card_filter_update v.proc p (g (v.proc p)) fun proc => proc.cwd = some i
  unfold View.holders
  change (univ.filter fun p' =>
      (Function.update v.proc p (g (v.proc p)) p').cwd = some i).card +
    (univ.filter fun f => (v.file f).Refers i).card + _ = _
  omega

theorem exists_of_holders {v : View} {i : ℕ} (h : 0 < v.holders i) :
    (∃ p, (v.proc p).cwd = some i) ∨ ∃ f, (v.file f).Refers i := by
  unfold View.holders at h
  rcases Nat.eq_zero_or_pos (univ.filter fun p => (v.proc p).cwd = some i).card with hp | hp
  · have hf : 0 < (univ.filter fun f => (v.file f).Refers i).card := by omega
    obtain ⟨f, hf⟩ := card_pos.mp hf
    exact Or.inr ⟨f, (mem_filter.mp hf).2⟩
  · obtain ⟨p, hp⟩ := card_pos.mp hp
    exact Or.inl ⟨p, (mem_filter.mp hp).2⟩

theorem holders_pos_of_cwd {v : View} {i : ℕ} (h : (v.proc p).cwd = some i) : 0 < v.holders i := by
  have hpos : 0 < (univ.filter fun p => (v.proc p).cwd = some i).card :=
    card_pos.mpr ⟨p, mem_filter.mpr ⟨mem_univ p, h⟩⟩
  unfold View.holders
  omega

theorem holders_pos_of_file {v : View} {i : ℕ} (h : (v.file f).Refers i) : 0 < v.holders i := by
  have hpos : 0 < (univ.filter fun f => (v.file f).Refers i).card :=
    card_pos.mpr ⟨f, mem_filter.mpr ⟨mem_univ f, h⟩⟩
  unfold View.holders
  omega

/-! ## New names -/

/-- The contents of a new directory. -/
def dots (ip dp : ℕ) : File := addEntry (addEntry [] (literal dot) ip) (literal dotdot) dp

section Dots

variable {ip dp k : ℕ}

theorem freeSlot_nil : freeSlot [] = 0 := rfl

theorem entry_dots_first (j : ℕ) : entry (addEntry [] (literal dot) ip) j =
      if j = 0 then newDirent (literal dot) ip else entry [] j :=
  entry_addEntry (dvd_zero _) _ _ j

theorem entry_nil (j : ℕ) : (entry [] j).inum = 0 := entry_of_le (Nat.zero_le _)

theorem freeSlot_dots_first (hip : BitVec.ofNat 16 ip ≠ 0) :
    freeSlot (addEntry [] (literal dot) ip) = 1 := by
  obtain ⟨-, hfree, hused⟩ := freeSlot_spec (addEntry [] (literal dot) ip)
  have hne : freeSlot (addEntry [] (literal dot) ip) ≠ 0 := by
    intro heq
    rw [heq, entry_dots_first, if_pos rfl] at hfree
    exact hip hfree
  by_contra hne1
  refine hused 1 (by omega) ?_
  rw [entry_dots_first, if_neg one_ne_zero, entry_nil]

theorem aligned_dots_first : direntSize ∣ (addEntry [] (literal dot) ip).length :=
  Directory.aligned_setEntry (dvd_zero _) (Nat.zero_le _)

theorem find_dots_first : find (addEntry [] (literal dot) ip) (nameOf (literal dotdot)) = none := by
  rw [find_eq_none_iff]
  intro j hused
  rw [entry_dots_first] at hused ⊢
  split at hused
  next heq =>
    rw [if_pos heq, label_newDirent]
    decide
  next => exact absurd (entry_nil j) hused

theorem entry_dots (hip : BitVec.ofNat 16 ip ≠ 0) (j : ℕ) :
    entry (dots ip dp) j = if j = 1 then newDirent (literal dotdot) dp
      else if j = 0 then newDirent (literal dot) ip else entry [] j := by
  unfold dots
  rw [entry_addEntry aligned_dots_first, freeSlot_dots_first hip, entry_dots_first]

theorem emptyDir_dots (hip : BitVec.ofNat 16 ip ≠ 0) :
    EmptyDir (dots ip dp) := by
  intro j hj
  rw [entry_dots hip, if_neg (by omega), if_neg (by omega), entry_nil]

theorem directory_dots (hip : BitVec.ofNat 16 ip ≠ 0) (hself : (BitVec.ofNat 16 ip).toNat = ip)
    (hdp : BitVec.ofNat 16 dp ≠ 0) : Directory ip (dots ip dp) := by
  have h0 : entry (dots ip dp) 0 = newDirent (literal dot) ip := by
    rw [entry_dots hip, if_neg zero_ne_one, if_pos rfl]
  have h1 : entry (dots ip dp) 1 = newDirent (literal dotdot) dp := by
    rw [entry_dots hip, if_pos rfl]
  have hlabel : (entry (dots ip dp) 0).label ≠ (entry (dots ip dp) 1).label := by
    rw [h0, h1, label_newDirent, label_newDirent]
    decide
  refine ⟨Directory.aligned_setEntry aligned_dots_first
    (freeSlot_fits aligned_dots_first), ?_, ?_, ?_, ?_, ?_, ?_⟩
  · rw [h0]
    exact hip
  · rw [h0]
    exact hself
  · rw [h0, label_newDirent]
    decide
  · rw [h1]
    exact hdp
  · rw [h1, label_newDirent]
    decide
  · intro j k hj hk heq
    have hlt : ∀ l, (entry (dots ip dp) l).inum ≠ 0 → l = 0 ∨ l = 1 := by
      intro l hl
      by_contra hne
      exact hl (emptyDir_dots hip l (by omega))
    rcases hlt j hj with rfl | rfl <;> rcases hlt k hk with rfl | rfl
    · rfl
    · exact absurd heq hlabel
    · exact absurd heq.symm hlabel
    · rfl

end Dots

namespace View

/-- A new inode `ip`, which has a name in directory `dp`. -/
def created (v : View) (dp ip : ℕ) (name : ℕ → Byte) (type major minor : Short) : View :=
  let child : Node :=
    ⟨type, major, minor, 1, if type = T_DIR then dots ip dp else []⟩
  let parent : Node :=
    { v.node dp with
      nlink := if type = T_DIR then (v.node dp).nlink + 1 else (v.node dp).nlink
      data := addEntry (v.node dp).data name ip }
  (((v.setNode ip child).setNode dp parent).hold ip).lock ip

/-- A further name for `ip` in directory `dp`. -/
def linked (v : View) (dp ip : ℕ) (name : ℕ → Byte) : View :=
  (v.setNode ip { v.node ip with nlink := (v.node ip).nlink + 1 }).setNode dp
    { v.node dp with data := addEntry (v.node dp).data name ip }

/-- Entry `k` of `dp`, which names `ip`, is removed. -/
def unlinked (v : View) (dp ip k : ℕ) : View := (v.setNode dp
    { v.node dp with
      nlink := if (v.node ip).type = T_DIR then (v.node dp).nlink - 1 else (v.node dp).nlink
      data := setEntry (v.node dp).data k freeDirent }).setNode ip
    { v.node ip with nlink := (v.node ip).nlink - 1 }

end View

/-! ## Moves -/

/-- What a call is allowed to do: make an entry in a directory, count a link to
an inode, remove an entry of an inode. -/
structure Policy where
  entry : View → ℕ → Prop
  link : View → ℕ → Prop
  unlink : View → ℕ → Prop

/-- The change of an open file that leaves its inode alone. -/
structure SameFile (file file' : OpenFile) : Prop where
  type : file'.type = file.type
  ip : file'.ip = file.ip
  writable : file'.writable = file.writable
  ref : file'.ref = 0 → file.type = .none

inductive Move (sb : Superblock) (P : Policy) :
    List ℕ × View → List ℕ × View → Prop
  | perm {L L' v} (h : L.Perm L') : Move sb P (L, v) (L', v)
  | look {L H v w} (h : Looked v w H) : Move sb P (L, v) (H ++ L, w)
  | lock {L v} (i : ℕ) : Move sb P (L, v) (L, v.lock i)
  | release {L v i} (h : v.valid i = true → (v.node i).type ≠ 0) :
      Move sb P (i :: L, v) (L, v.release i)
  | create {L v dp ip} {name : ℕ → Byte} {type : Short} (major minor : Short)
      (hheld : dp ∈ L) (hdir : (v.node dp).type = T_DIR)
      (hnew : find (v.node dp).data (nameOf name) = none)
      (hpos : 0 < ip) (hlt : ip < sb.ninodes)
      (hfree : (v.node ip).type = 0) (htype : type ≠ 0)
      (hentry : P.entry v dp) (hlink : type = T_DIR → P.link v dp) :
      Move sb P (L, v) (ip :: L, v.created dp ip name type major minor)
  | link {L v dp ip} {name : ℕ → Byte} (hdp : dp ∈ L) (hip : ip ∈ L)
      (hdir : (v.node dp).type = T_DIR)
      (hnew : find (v.node dp).data (nameOf name) = none)
      (hpos : 0 < ip) (hlt : ip < sb.ninodes)
      (hused : (v.node ip).type ≠ 0) (hfile : (v.node ip).type ≠ T_DIR)
      (hentry : P.entry v dp) (hlink : P.link v ip) :
      Move sb P (L, v) (L, v.linked dp ip name)
  | unlink {L v dp ip k} (hdp : dp ∈ L) (hip : ip ∈ L)
      (hdir : (v.node dp).type = T_DIR) (hk : 2 ≤ k)
      (hused : (entry (v.node dp).data k).inum ≠ 0) (hinum : v.inumAt dp k = ip)
      (hvalid : v.valid ip = true) (htype : (v.node ip).type ≠ 0)
      (hnlink : 1 ≤ (v.node ip).nlink.toInt)
      (hempty : (v.node ip).type = T_DIR → EmptyDir (v.node ip).data)
      (hunlink : P.unlink v ip) :
      Move sb P (L, v) (L, v.unlinked dp ip k)
  | file {L v} (f : Fin NFILE) {g : OpenFile → OpenFile} (h : SameFile (v.file f) (g (v.file f))) :
      Move sb P (L, v) (L, v.setFile f g)
  | opened {L v f ip} (omode : BitVec 32) (hnone : (v.file f).type = .none)
      (href : (v.file f).ref ≠ 0) (hused : (v.node ip).type ≠ 0)
      (hwrite : (v.node ip).type = T_DIR → omode = O_RDONLY) :
      Move sb P (ip :: L, v) (L, v.setFile f fun file =>
        file.opened ip (v.node ip).type (v.node ip).major omode)
  | close {L v} (f : Fin NFILE) : Move sb P (L, v)
        (if (v.file f).type = .inode ∨ (v.file f).type = .device then
            (v.file f).ip :: L else L,
          v.setFile f fun file => { file with ref := 0, type := .none })
  | fds {L v} (p : Fin NPROC) (g : Proc → Proc) (h : (g (v.proc p)).cwd = (v.proc p).cwd) :
      Move sb P (L, v) (L, v.setProc p g)
  | chdir {L v p c ip} (hcwd : (v.proc p).cwd = some c) (hdir : (v.node ip).type = T_DIR) :
      Move sb P (ip :: L, v) (c :: L, v.setProc p fun proc => { proc with cwd := some ip })
  | exit {L v p c} (hcwd : (v.proc p).cwd = some c) : Move sb P (L, v)
        (c :: L, v.setProc p fun proc => { proc with cwd := none })
  | data {L v ip} (data : File) (hused : (v.node ip).type ≠ 0) (hfile : (v.node ip).type ≠ T_DIR) :
      Move sb P (L, v) (L, v.setNode ip { v.node ip with data := data })

/-- Any number of moves. -/
abbrev Moves (sb : Superblock) (P : Policy) : List ℕ × View → List ℕ × View → Prop :=
  Relation.ReflTransGen (Move sb P)

/-! ## The basic invariant -/

structure Base (sb : Superblock) (L : List ℕ) (v : View) : Prop where
  refs : ∀ i, v.ref i = v.holders i + L.count i
  files : ∀ f i, (v.file f).Refers i → (v.node i).type ≠ 0 ∧
    ((v.file f).writable = true → (v.node i).type ≠ T_DIR)
  closed : ∀ f, (v.file f).ref = 0 → (v.file f).type = .none
  cwds : ∀ p i, (v.proc p).cwd = some i → (v.node i).type = T_DIR
  dirs : ∀ d, (v.node d).type = T_DIR → Directory d (v.node d).data
  range : ∀ d k, (v.node d).type = T_DIR →
    (entry (v.node d).data k).inum ≠ 0 → v.inumAt d k < sb.ninodes

section Moves

variable {sb : Superblock} {P : Policy} {L : List ℕ} {v w : View} {i dp ip k : ℕ}
  {name : ℕ → Byte}

theorem T_DIR_ne_zero : T_DIR ≠ 0 := by decide

namespace Base

theorem searchable (h : Base sb L v) : Searchable sb v :=
  ⟨fun d hd => (h.dirs d hd).aligned, h.range⟩

theorem type_of_holder (h : Base sb L v) (hpos : 0 < v.holders i) : (v.node i).type ≠ 0 := by
  rcases exists_of_holders hpos with ⟨p, hp⟩ | ⟨f, hf⟩
  · rw [h.cwds p i hp]
    exact T_DIR_ne_zero
  · exact (h.files f i hf).1

theorem holders_of_free (h : Base sb L v) (hfree : (v.node i).type = 0) : v.holders i = 0 := by
  by_contra hne
  exact h.type_of_holder (Nat.pos_of_ne_zero hne) hfree

section

variable (h : Base sb L v) (hfile : w.file = v.file) (hproc : w.proc = v.proc)
  (href : ∀ i, w.ref i + L.count i = v.ref i + L'.count i)

include h hfile hproc href

/-- Inodes change, but not the type of one that somebody holds. -/
theorem of_nodes (htype : ∀ i, 0 < v.holders i → (w.node i).type = (v.node i).type)
    (hdirs : ∀ d, (w.node d).type = T_DIR → Directory d (w.node d).data)
    (hrange : ∀ d k, (w.node d).type = T_DIR → (entry (w.node d).data k).inum ≠ 0 →
      w.inumAt d k < sb.ninodes) : Base sb L' w := by
  have hholders : ∀ i, w.holders i = v.holders i := fun i => by
    unfold View.holders
    rw [hfile, hproc]
  refine ⟨fun i => ?_, fun f i hf => ?_, fun f => ?_, fun p i hp => ?_, hdirs, hrange⟩
  · have := href i
    have := h.refs i
    rw [hholders]
    omega
  · rw [hfile] at hf ⊢
    rw [htype i (holders_pos_of_file hf)]
    exact h.files f i hf
  · rw [hfile]
    exact h.closed f
  · rw [hproc] at hp
    rw [htype i (holders_pos_of_cwd hp)]
    exact h.cwds p i hp

/-- The changed inodes are well-formed directories, if they are directories. -/
theorem of_changed (hnode : ∀ i, w.node i = v.node i ∨ (0 < v.holders i →
      (w.node i).type = (v.node i).type) ∧ ((w.node i).type = T_DIR →
      Directory i (w.node i).data ∧ ∀ k, (entry (w.node i).data k).inum ≠ 0 →
      (entry (w.node i).data k).inum.toNat < sb.ninodes)) : Base sb L' w := by
  refine h.of_nodes hfile hproc href (fun i hi => ?_) (fun d hd => ?_) fun d k hd hk => ?_
  · rcases hnode i with heq | ⟨htype, -⟩
    · rw [heq]
    · exact htype hi
  · rcases hnode d with heq | ⟨-, hdir⟩
    · rw [heq] at hd ⊢
      exact h.dirs d hd
    · exact (hdir hd).1
  · unfold View.inumAt
    rcases hnode d with heq | ⟨-, hdir⟩
    · rw [heq] at hd hk ⊢
      exact h.range d k hd hk
    · exact (hdir hd).2 k hk

end

theorem look {H : List ℕ} (h : Base sb L v) (hl : Looked v w H) : Base sb (H ++ L) w := by
  refine h.of_changed hl.file hl.proc (fun i => ?_) fun i => ?_
  · rw [hl.ref, List.count_append]
    omega
  · rcases hl.node i with heq | ⟨hzero, -, -, hfreed⟩
    · exact Or.inl heq
    · refine Or.inr ⟨fun hpos => ?_, fun hdir => ?_⟩
      · have := h.refs i
        omega
      · rw [hfreed] at hdir
        exact absurd hdir.symm T_DIR_ne_zero

theorem release (h : Base sb (i :: L) v) : Base sb L (v.release i) := by
  have hi := h.refs i
  rw [List.count_cons_self] at hi
  refine h.of_changed rfl rfl (fun j => ?_) fun j => ?_
  · rw [View.ref_release, List.count_cons]
    by_cases hj : j = i
    · subst j
      simp
      omega
    · simp [hj, Ne.symm hj]
  · rw [View.node_release]
    split
    next hd =>
      obtain ⟨rfl, hd⟩ := hd
      refine Or.inr ⟨fun hpos => ?_, fun hdir => ?_⟩
      · have := hd.1
        omega
      · exact absurd hdir.symm T_DIR_ne_zero
    next => exact Or.inl rfl

/-- An open file changes, and takes or gives references accordingly. -/
theorem setFile {g : OpenFile → OpenFile} (h : Base sb L v)
    (hcount : ∀ i, (if (g (v.file f)).Refers i then 1 else 0) + L'.count i = (if
      (v.file f).Refers i then 1 else 0) + L.count i)
    (hfile : ∀ i, (g (v.file f)).Refers i →
      (v.node i).type ≠ 0 ∧ ((g (v.file f)).writable = true → (v.node i).type ≠ T_DIR))
    (hclosed : (g (v.file f)).ref = 0 → (g (v.file f)).type = .none) :
    Base sb L' (v.setFile f g) := by
  have hupdate : ∀ f', (v.setFile f g).file f' =
      if f' = f then g (v.file f) else v.file f' := fun f' => by
    simp only [View.setFile, Function.update_apply]
  refine ⟨fun i => ?_, fun f' i hf' => ?_, fun f' hf' => ?_, h.cwds, h.dirs, h.range⟩
  · have hholders := holders_setFile v f g i
    have := h.refs i
    have := hcount i
    change v.ref i = _
    omega
  · rw [hupdate] at hf' ⊢
    split at hf'
    next heq =>
      rw [if_pos heq]
      exact hfile i hf'
    next hne =>
      rw [if_neg hne]
      exact h.files f' i hf'
  · rw [hupdate] at hf' ⊢
    split at hf'
    next heq =>
      rw [if_pos heq]
      exact hclosed hf'
    next hne =>
      rw [if_neg hne]
      exact h.closed f' hf'

/-- A process changes, and takes or gives references accordingly. -/
theorem setProc {g : Proc → Proc} (h : Base sb L v)
    (hcount : ∀ i, (if (g (v.proc p)).cwd = some i then 1 else 0) + L'.count i = (if
      (v.proc p).cwd = some i then 1 else 0) + L.count i)
    (hcwd : ∀ i, (g (v.proc p)).cwd = some i → (v.node i).type = T_DIR) :
    Base sb L' (v.setProc p g) := by
  refine ⟨fun i => ?_, h.files, h.closed, fun p' i hp' => ?_, h.dirs, h.range⟩
  · have hholders := holders_setProc v p g i
    have := h.refs i
    have := hcount i
    change v.ref i = _
    omega
  · simp only [View.setProc, Function.update_apply] at hp'
    split at hp'
    next => exact hcwd i hp'
    next => exact h.cwds p' i hp'

end Base

/-- Which inode a new open file refers to, and whether it can be written. -/
theorem opened_refers : (file.opened ip type major omode).Refers i ↔ ip = i := by
  unfold OpenFile.Refers OpenFile.opened
  by_cases hdev : type = T_DEVICE <;> simp [hdev]

theorem opened_ref : (file.opened ip type major omode).ref = file.ref := by
  unfold OpenFile.opened
  by_cases hdev : type = T_DEVICE <;> simp [hdev]

theorem opened_readonly : (file.opened ip type major O_RDONLY).writable = false := by
  unfold OpenFile.opened
  simp [O_RDONLY, O_WRONLY, O_RDWR]

/-! ## The effect of the moves on the inodes -/

/-- The directory after it has got a new entry. -/
theorem Base.addEntry (h : Base sb L v) (hdir : (v.node dp).type = T_DIR)
    (hnew : find (v.node dp).data (nameOf name) = none)
    (hlt : ip < sb.ninodes) (hsb : sb.ninodes ≤ 2 ^ 16) :
    Directory dp (addEntry (v.node dp).data name ip) ∧
      ∀ k, (entry (Sysfile.addEntry (v.node dp).data name ip) k).inum ≠ 0 →
        (entry (Sysfile.addEntry (v.node dp).data name ip) k).inum.toNat <
          sb.ninodes := by
  have hd := h.dirs dp hdir
  refine ⟨hd.addEntry hnew, fun k hk => ?_⟩
  rw [entry_addEntry hd.aligned] at hk ⊢
  split at hk
  next heq =>
    rw [if_pos heq]
    simp only [newDirent, BitVec.toNat_ofNat]
    rwa [Nat.mod_eq_of_lt (by omega)]
  next hne =>
    rw [if_neg hne]
    exact h.range dp k hdir hk

theorem Base.clearEntry (h : Base sb L v) (hdir : (v.node dp).type = T_DIR)
    (hk : 2 ≤ k) (hused : (entry (v.node dp).data k).inum ≠ 0) :
    Directory dp (setEntry (v.node dp).data k freeDirent) ∧
      ∀ j, (entry (setEntry (v.node dp).data k freeDirent) j).inum ≠ 0 →
        (entry (setEntry (v.node dp).data k freeDirent) j).inum.toNat <
          sb.ninodes := by
  have hd := h.dirs dp hdir
  have hfit := (lt_slots_iff.mp (lt_slots_of_used hused)).le
  refine ⟨hd.clearEntry hk hfit, fun j hj => ?_⟩
  rw [entry_setEntry hfit] at hj ⊢
  split at hj
  next => exact absurd rfl hj
  next hne =>
    rw [if_neg hne]
    exact h.range dp j hdir hj

namespace View

theorem node_created (v : View) (dp ip : ℕ) (name : ℕ → Byte) (type major minor : Short) (j : ℕ) :
    (v.created dp ip name type major minor).node j = if j = dp then
        { v.node dp with
          nlink := if type = T_DIR then (v.node dp).nlink + 1 else (v.node dp).nlink
          data := addEntry (v.node dp).data name ip }
      else if j = ip then
        ⟨type, major, minor, 1, if type = T_DIR then dots ip dp else []⟩
      else v.node j := by
  have hlock : ∀ (u : View) i, (u.lock i).node = u.node := fun _ _ => rfl
  simp only [created, hlock, node_hold, node_setNode]

theorem node_linked (v : View) (dp ip : ℕ) (name : ℕ → Byte) (j : ℕ) :
    (v.linked dp ip name).node j = if j = dp then
        { v.node dp with data := addEntry (v.node dp).data name ip }
      else if j = ip then
        { v.node ip with nlink := (v.node ip).nlink + 1 }
      else v.node j := by
  simp only [linked, node_setNode]

theorem node_unlinked (v : View) (dp ip k j : ℕ) : (v.unlinked dp ip k).node j = if j = ip then
        { v.node ip with nlink := (v.node ip).nlink - 1 }
      else if j = dp then
        { v.node dp with
          nlink := if (v.node ip).type = T_DIR then (v.node dp).nlink - 1 else (v.node dp).nlink
          data := setEntry (v.node dp).data k freeDirent }
      else v.node j := by
  simp only [unlinked, node_setNode]

section Others

variable (hdp : i ≠ dp) (hip : i ≠ ip)

include hdp hip

theorem created_of_ne : (v.created dp ip name type major minor).node i = v.node i := by
  rw [node_created, if_neg hdp, if_neg hip]

theorem linked_of_ne : (v.linked dp ip name).node i = v.node i := by
  rw [node_linked, if_neg hdp, if_neg hip]

theorem unlinked_of_ne : (v.unlinked dp ip k).node i = v.node i := by
  rw [node_unlinked, if_neg hip, if_neg hdp]

end Others

theorem type_linked : ((v.linked dp ip name).node i).type = (v.node i).type := by
  rw [node_linked]
  split
  next heq => rw [heq]
  next =>
    split
    next heq => rw [heq]
    next => rfl

end View

/-- An inode number fits an entry. -/
theorem ofNat_inum (hsb : sb.ninodes ≤ 2 ^ 16) (hpos : 0 < ip) (hlt : ip < sb.ninodes) :
    BitVec.ofNat 16 ip ≠ 0 ∧ (BitVec.ofNat 16 ip).toNat = ip := by
  have hmod : (BitVec.ofNat 16 ip).toNat = ip := by
    rw [BitVec.toNat_ofNat, Nat.mod_eq_of_lt (by omega)]
  refine ⟨fun hzero => ?_, hmod⟩
  rw [hzero] at hmod
  exact hpos.ne hmod

theorem Base.inum_of_dir (h : Base sb L v) (hsb : sb.ninodes ≤ 2 ^ 16)
    (hdir : (v.node dp).type = T_DIR) :
    BitVec.ofNat 16 dp ≠ 0 ∧ (BitVec.ofNat 16 dp).toNat = dp := by
  have hd := h.dirs dp hdir
  have hlt := h.range dp 0 hdir hd.dot_used
  have hself : v.inumAt dp 0 = dp := hd.dot_self
  rw [hself] at hlt
  refine ofNat_inum hsb (Nat.pos_of_ne_zero ?_) hlt
  rintro rfl
  exact hd.dot_used (BitVec.eq_of_toNat_eq hd.dot_self)

/-- A directory that is not empty has no entry for itself among the others. -/
theorem ne_of_unlink (hdir : (v.node dp).type = T_DIR) (hk : 2 ≤ k)
    (hused : (entry (v.node dp).data k).inum ≠ 0)
    (hempty : (v.node ip).type = T_DIR → EmptyDir (v.node ip).data) :
    dp ≠ ip := by
  rintro rfl
  exact hused (hempty hdir k hk)

/-- Every move keeps the basic invariant. -/
theorem Base.move (hsb : sb.ninodes ≤ 2 ^ 16) (h : Base sb m.1 m.2)
    (hm : Move sb P m m') : Base sb m'.1 m'.2 := by
  cases hm with
  | perm hp => exact { h with refs := fun i => by rw [h.refs, hp.count_eq] }
  | look hl => exact h.look hl
  | lock i => exact ⟨h.refs, h.files, h.closed, h.cwds, h.dirs, h.range⟩
  | release => exact h.release
  | @create L v dp ip name type major minor hheld hdir hnew hpos hlt hfree htype _ _ =>
    have hinum := ofNat_inum hsb hpos hlt
    have hdp := h.inum_of_dir hsb hdir
    have hholders := h.holders_of_free hfree
    refine h.of_changed (by simp [View.created, View.lock, View.setNode])
      (by simp [View.created, View.lock, View.setNode]) (fun i => ?_)
      fun i => ?_
    · change (((v.setNode ip _).setNode dp _).hold ip).ref i + _ = _
      rw [View.ref_hold, List.count_cons]
      by_cases hi : i = ip
      · subst i
        simp [View.setNode]
        omega
      · simp [hi, Ne.symm hi, View.setNode]
    · simp only [View.node_created]
      split
      next heq =>
        subst heq
        exact Or.inr ⟨fun _ => rfl, fun _ => h.addEntry hdir hnew hlt hsb⟩
      next =>
        split
        next heq =>
          subst heq
          refine Or.inr ⟨fun hp => absurd hholders hp.ne', fun htd => ?_⟩
          dsimp only at htd ⊢
          rw [if_pos htd]
          refine ⟨directory_dots hinum.1 hinum.2 hdp.1, fun k hk => ?_⟩
          rw [entry_dots hinum.1] at hk ⊢
          have hdlt := h.range dp 0 hdir (h.dirs dp hdir).dot_used
          rw [View.inumAt, (h.dirs dp hdir).dot_self] at hdlt
          split at hk
          next h1 =>
            rw [if_pos h1]
            exact hdp.2.trans_lt hdlt
          next h1 =>
            rw [if_neg h1]
            split at hk
            next h0 =>
              rw [if_pos h0]
              exact hinum.2.trans_lt hlt
            next => exact absurd (entry_nil k) hk
        next => exact Or.inl rfl
  | @link L v dp ip name hdp hip hdir hnew hpos hlt hused hfile _ _ =>
    refine h.of_changed rfl rfl (fun _ => rfl) fun i => ?_
    simp only [View.node_linked]
    split
    next heq =>
      subst heq
      exact Or.inr ⟨fun _ => rfl, fun _ => h.addEntry hdir hnew hlt hsb⟩
    next =>
      split
      next heq =>
        subst heq
        exact Or.inr ⟨fun _ => rfl, fun hd => absurd hd hfile⟩
      next => exact Or.inl rfl
  | @unlink L v dp ip k hdp hip hdir hk hused hinum hvalid htype hnlink hempty
      _ =>
    refine h.of_changed rfl rfl (fun _ => rfl) fun i => ?_
    simp only [View.node_unlinked]
    split
    next heq =>
      subst heq
      exact Or.inr ⟨fun _ => rfl, fun hd => ⟨h.dirs _ hd, fun j hj => h.range _ j hd hj⟩⟩
    next =>
      split
      next heq =>
        subst heq
        exact Or.inr ⟨fun _ => rfl, fun _ => h.clearEntry hdir hk hused⟩
      next => exact Or.inl rfl
  | @file L v f g hg =>
    have hrefers : ∀ i, (g (v.file f)).Refers i ↔ (v.file f).Refers i := by
      intro i
      unfold OpenFile.Refers
      rw [hg.type, hg.ip]
    refine h.setFile (fun i => ?_) (fun i hi => ?_) fun href => ?_
    · simp only [hrefers]
    · rw [hg.writable]
      exact h.files f i ((hrefers i).mp hi)
    · rw [hg.type]
      exact hg.ref href
  | @opened L v f ip omode hnone href hused hwrite =>
    dsimp only at h ⊢
    refine h.setFile (fun i => ?_) (fun i hi => ?_) fun hzero => ?_
    · have hnot : ¬ (v.file f).Refers i := fun hr => by
        rw [OpenFile.Refers, hnone] at hr
        simp at hr
      simp only [opened_refers, if_neg hnot, List.count_cons, beq_iff_eq]
      omega
    · obtain rfl := opened_refers.mp hi
      refine ⟨hused, fun hw hdir => ?_⟩
      rw [hwrite hdir, opened_readonly] at hw
      cases hw
    · rw [opened_ref] at hzero
      exact absurd hzero href
  | @close L v f =>
    dsimp only at h ⊢
    have hnone : ∀ i, ¬ OpenFile.Refers
        { v.file f with ref := 0, type := .none } i := fun i hr => by
      simp [OpenFile.Refers] at hr
    refine h.setFile (fun i => ?_) (fun i hi => absurd hi (hnone i)) fun _ => rfl
    rw [if_neg (hnone i)]
    by_cases htype : (v.file f).type = .inode ∨ (v.file f).type = .device
    · have hrefers : (v.file f).Refers i ↔ (v.file f).ip = i := ⟨And.right, fun hi => ⟨htype, hi⟩⟩
      rw [if_pos htype, List.count_cons]
      simp only [hrefers, beq_iff_eq]
      omega
    · rw [if_neg htype, if_neg fun hr => htype hr.1]
  | @fds L v p g hg =>
    refine h.setProc (fun i => ?_) fun i hi => ?_
    · rw [hg]
    · rw [hg] at hi
      exact h.cwds p i hi
  | @chdir L v p c ip hcwd hdir =>
    dsimp only at h ⊢
    refine h.setProc (fun i => ?_) fun i hi => ?_
    · simp only [hcwd, Option.some.injEq, List.count_cons, beq_iff_eq]
      omega
    · rw [← Option.some.inj hi]
      exact hdir
  | @exit L v p c hcwd =>
    dsimp only at h ⊢
    refine h.setProc (fun i => ?_) fun i hi => absurd hi (by simp)
    simp only [hcwd, Option.some.injEq, List.count_cons, beq_iff_eq, reduceCtorEq, if_false]
    omega
  | @data L v ip data hused hfile =>
    refine h.of_changed rfl rfl (fun _ => rfl) fun i => ?_
    rw [View.node_setNode]
    split
    next heq =>
      subst heq
      exact Or.inr ⟨fun _ => rfl, fun hd => absurd hd hfile⟩
    next => exact Or.inl rfl

theorem Base.moves (hsb : sb.ninodes ≤ 2 ^ 16) (h : Base sb m.1 m.2)
    (hm : Moves sb P m m') : Base sb m'.1 m'.2 := by
  induction hm with
  | refl => exact h
  | tail _ hlast ih => exact ih.move hsb hlast

end Moves

end OsCa.Sysfile
