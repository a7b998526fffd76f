import OsCa.Kernel.Fs.Logging
import OsCa.Kernel.Sysfile.Lifetimes

/-!
# Caches and the disk

The inode cache is write-through: between calls, a valid entry is the inode in
its block.

The commands of `OsCa.Sysfile` see the disk through the buffer cache.  This
module adds the disk itself, which a commit brings up to date in the logged
blocks, and the eviction of buffers that are not logged: the next reader gets
what is on the disk.  The two agree outside the log, unless a `write` fails in
the middle of a block.
-/

namespace OsCa.Sysfile

open Bytes Fs OsCa.Action

variable {α : Type} {mem : Memory} {n addr : ℕ} {p : Fin NPROC}

/-! ## The inode cache -/

/-- Between calls, the valid entries that are in use equal the inodes in their
blocks. -/
theorem inode_cache_write_through {sb : Superblock} {s : State} {i : ℕ}
    (h : (system sb).Reachable s) (href : 0 < s.ref i)
    (hvalid : (s.fs.icache i).valid = true) :
    (s.fs.icache i).toDinode =
      decodeDinode (s.fs.disk (sb.IBLOCK i)) (i % IPB * dinodeSize) := by
  have hs := mounted_of_reachable h
  have hholder : 0 < (s.view sb).holders i := by
    have hrefs := hs.base.refs i
    rw [List.count_nil, Nat.add_zero] at hrefs
    exact hrefs ▸ href
  exact hs.consistent.coherent i (hs.rep.lt_of_type (hs.base.type_of_holder hholder)) hvalid

/-- After the removal of `/a/b`, which is a current directory. -/
theorem inode_cache_write_through_small :
    ∃ t, (system smallSuperblock).run smallTree [removeB] = some t ∧
      0 < t.ref 33 ∧ (t.fs.icache 33).valid = true ∧
      (t.fs.icache 33).toDinode = decodeDinode (t.fs.disk (smallSuperblock.IBLOCK 33))
          (33 % IPB * dinodeSize) := by
  have hrun : ∃ t, (system smallSuperblock).run smallTree [removeB] = some t ∧
      0 < t.ref 33 ∧ (t.fs.icache 33).valid = true :=
    EventSystem.exists_of_any_run (by decide +kernel)
  obtain ⟨t, ht, href, hvalid⟩ := hrun
  have hreach : (system smallSuperblock).Reachable t :=
    ⟨smallTree, [removeB], smallTree_mounted, ht⟩
  exact ⟨t, ht, href, hvalid, inode_cache_write_through hreach href hvalid⟩

/-! ## Logged blocks -/

/-- Only logged blocks change. -/
def Logged (s t : State) : Prop := Logs s.fs t.fs

instance : IsPreorder State Logged where
  refl s := Logs.refl s.fs
  trans _ _ _ h h' := Logs.trans h h'

/-- Only logged blocks change, and no open file or process does. -/
structure Quiet (s t : State) : Prop where
  logged : Logged s t
  file : t.file = s.file
  proc : t.proc = s.proc

instance : IsPreorder State Quiet where
  refl s := ⟨refl_of Logged s, rfl, rfl⟩
  trans _ _ _ h h' := ⟨trans_of Logged h.logged h'.logged,
    h'.file.trans h.file, h'.proc.trans h.proc⟩

/-- References and cache entries may change. -/
theorem Quiet.of_counts (s : State) (ref : ℕ → ℕ) (entries : ℕ) :
    Quiet s { s with ref := ref, entries := entries } :=
  ⟨refl_of Logged s, rfl, rfl⟩

section Commands

variable {sb : Superblock}

theorem inodes_keeps {f : Fs.State → Except Fs.Panic (α × Fs.State)}
    (h : ∀ s a t, f s = .ok (a, t) → Logs s t) : Keeps Quiet (inodes f) := by
  constructor
  intro s a t hok
  unfold inodes zoom at hok
  split at hok
  next hf =>
    cases hok
    exact ⟨h s.fs _ _ hf, rfl, rfl⟩
  next => cases hok

/-- A function on the inodes that returns no value. -/
theorem inodes_map_keeps {f : Fs.State → Except Fs.Panic Fs.State}
    (h : ∀ s t, f s = .ok t → Logs s t) :
    Keeps Quiet (inodes fun t => (f t).map ((), ·)) := by
  refine inodes_keeps fun s a t hok => ?_
  cases hf : f s with
  | ok u =>
    rw [hf] at hok
    cases hok
    exact h s _ hf
  | error e =>
    rw [hf] at hok
    cases hok

theorem iget_keeps (inum : ℕ) : Keeps Quiet (iget inum) := by
  refine .bind .read fun s => ?_
  split
  · exact .update fun s => .of_counts s _ _
  · split
    · exact .fail _
    · exact .update fun s => ⟨Logs.setInode s.fs inum fun ip =>
        { ip with valid := false }, rfl, rfl⟩

theorem idup_keeps (ip : ℕ) : Keeps Quiet (idup ip) := .update fun s => .of_counts s _ _

theorem ilock_keeps (ip : ℕ) : Keeps Quiet (ilock sb ip) := by
  refine .bind .read fun s => ?_
  split
  · exact .fail _
  · exact inodes_map_keeps fun _ _ => ilock_logs

theorem iput_keeps (ip : ℕ) : Keeps Quiet (iput sb ip) := by
  refine .bind .read fun s => .bind (inodes_map_keeps fun _ _ => iput_logs) ?_
  exact fun _ => .update fun s => .of_counts s _ _

theorem ialloc_keeps (type : Short) : Keeps Quiet (ialloc sb type) :=
  .bind (inodes_keeps fun _ _ _ => ialloc_logs) fun ip => .bind (iget_keeps ip) fun _ => .pure ip

theorem assign_keeps (ip : ℕ) (g : Inode → Inode) : Keeps Quiet (assign sb ip g) := by
  refine inodes_keeps ?_
  rintro s a t ⟨⟩
  exact (Logs.setInode s ip g).trans (iupdate_logs _ _)

theorem itrunc_keeps (ip : ℕ) : Keeps Quiet (itrunc sb ip) :=
  inodes_map_keeps fun _ _ => itrunc_logs

theorem readi_keeps (ip : ℕ) (userDst : Bool) (mem : Memory) (dst off n : ℕ) :
    Keeps Quiet (readi sb ip userDst mem dst off n) := by
  refine inodes_keeps fun s a t hok => ?_
  cases hr : Fs.readi sb s ip userDst mem dst off n with
  | ok r =>
    rw [hr] at hok
    cases hok
    exact readi_logs hr
  | error e =>
    rw [hr] at hok
    cases hok

/-- A write from kernel memory cannot fail. -/
theorem writei_keeps (ip : ℕ) (mem : Memory) (src off n : ℕ) :
    Keeps Quiet (writei sb ip false mem src off n) :=
  inodes_keeps fun _ _ _ => writei_logs (by simp)

theorem readDirent_keeps (dp off : ℕ) (p : Panic) : Keeps Quiet (readDirent sb dp off p) := by
  refine .bind (readi_keeps ..) fun r => ?_
  split
  · exact .fail _
  · exact .pure _

theorem findName_keeps (dp : ℕ) (name : ℕ → Byte) (offs : List ℕ) :
    Keeps Quiet (findName sb dp name offs) := by
  induction offs with
  | nil => exact .pure _
  | cons off offs ih =>
    refine .bind (readDirent_keeps ..) fun de => ?_
    split
    · exact ih
    · split
      · exact .pure _
      · exact ih

theorem dirlookup_keeps (dp : ℕ) (name : ℕ → Byte) : Keeps Quiet (dirlookup sb dp name) := by
  refine .bind .read fun s => ?_
  split
  · exact .fail _
  · refine .bind (findName_keeps ..) fun r => ?_
    split
    · exact .pure _
    · exact .bind (iget_keeps _) fun _ => .pure _

theorem findFreeEntry_keeps (dp : ℕ) (offs : List ℕ) : Keeps Quiet (findFreeEntry sb dp offs) := by
  induction offs with
  | nil => exact .pure _
  | cons off offs ih =>
    refine .bind (readDirent_keeps ..) fun de => ?_
    split
    · exact .pure _
    · exact ih

theorem dirlink_keeps (dp : ℕ) (name : ℕ → Byte) (inum : ℕ) :
    Keeps Quiet (dirlink sb dp name inum) := by
  refine .bind (dirlookup_keeps ..) fun r => ?_
  split
  · exact .bind (iput_keeps _) fun _ => .pure _
  · refine .bind .read fun s => .bind (findFreeEntry_keeps ..) fun free => ?_
    refine .bind (writei_keeps ..) fun r => ?_
    split
    · exact .fail _
    · exact .pure _

theorem namexLoop_keeps (parent : Bool) (ip : ℕ) (path : List Byte)
    (name : NameBuffer) : Keeps Quiet (namexLoop sb parent ip path name) := by
  fun_induction namexLoop sb parent ip path name with
  | case1 ip path name path' name' h ih =>
    refine .bind (ilock_keeps _) fun _ => .bind .read fun s => ?_
    split
    · exact .bind (iput_keeps _) fun _ => .pure _
    · split
      · exact .pure _
      · refine .bind (dirlookup_keeps ..) fun r => ?_
        split
        · exact .bind (iput_keeps _) fun _ => .pure _
        · exact .bind (iput_keeps _) fun _ => ih _
  | case2 ip path name h hparent => exact .bind (iput_keeps _) fun _ => .pure _
  | case3 ip path name h hparent => exact .pure _

theorem namex_keeps (cwd : ℕ) (path : List Byte) (parent : Bool) :
    Keeps Quiet (namex sb cwd path parent) := by
  unfold namex
  split
  · exact .bind (iget_keeps _) fun _ => namexLoop_keeps ..
  · exact .bind (idup_keeps _) fun _ => namexLoop_keeps ..

theorem namei_keeps (cwd : ℕ) (path : List Byte) : Keeps Quiet (namei sb cwd path) :=
  .bind (namex_keeps ..) fun _ => .pure _

theorem fileclose_keeps (f : Fin NFILE) : Keeps Logged (fileclose sb f) := by
  refine .bind .read fun s => ?_
  split
  · exact .fail _
  · split
    · exact .update fun s => refl_of Logged s
    · refine .bind (.update fun s => refl_of Logged s) fun _ => ?_
      split
      · exact (iput_keeps _).mono Quiet.logged
      · exact .pure _

theorem filealloc_keeps : Keeps Logged filealloc := by
  refine .bind .read fun s => ?_
  split
  · exact .pure _
  · exact .bind (.update fun s => refl_of Logged s) fun _ => .pure _

theorem fdalloc_keeps (p : Fin NPROC) (f : Fin NFILE) : Keeps Logged (fdalloc p f) := by
  refine .bind .read fun s => ?_
  split
  · exact .pure _
  · exact .bind (.update fun s => refl_of Logged s) fun _ => .pure _

theorem argfd_keeps (p : Fin NPROC) (fd : BitVec 32) : Keeps Logged (argfd p fd) := by
  refine .bind .read fun s => ?_
  split
  · exact .pure _
  · exact .pure _

theorem advance_keeps (f : Fin NFILE) (r : ℤ) : Keeps Logged (advance f r) :=
  .update fun s => refl_of Logged s

theorem fileread_keeps (f : Fin NFILE) (mem : Memory) (addr : ℕ) (n : BitVec 32) (other : ℤ) :
    Keeps Logged (fileread sb f mem addr n other) := by
  refine .bind .read fun s => ?_
  split
  · exact .pure _
  · split
    · exact .pure _
    · exact .pure _
    · exact .bind ((ilock_keeps _).mono Quiet.logged) fun _ =>
        .bind ((readi_keeps ..).mono Quiet.logged) fun r =>
          .bind (advance_keeps ..) fun _ => .pure r
    · exact .fail _

/-! ## System calls other than `write` -/

theorem isdiremptyLoop_keeps (dp : ℕ) (offs : List ℕ) :
    Keeps Quiet (isdiremptyLoop sb dp offs) := by
  induction offs with
  | nil => exact .pure _
  | cons off offs ih =>
    refine .bind (readDirent_keeps ..) fun de => ?_
    split
    · exact .pure _
    · exact ih

theorem isdirempty_keeps (dp : ℕ) : Keeps Quiet (isdirempty sb dp) :=
  .bind .read fun _ => isdiremptyLoop_keeps ..

theorem createDots_keeps (dp ip : ℕ) : Keeps Quiet (createDots sb dp ip) := by
  refine .bind (assign_keeps ..) fun _ => .bind (dirlink_keeps ..) fun r => ?_
  split
  · exact .fail _
  · refine .bind (dirlink_keeps ..) fun r => ?_
    split
    · exact .fail _
    · exact .pure _

theorem createNew_keeps (dp : ℕ) (name : NameBuffer) (type major minor : Short) :
    Keeps Quiet (createNew sb dp name type major minor) := by
  refine .bind (ialloc_keeps _) fun ip => .bind (ilock_keeps _) fun _ =>
    .bind (assign_keeps ..) fun _ => ?_
  refine .bind ?_ fun _ => .bind (dirlink_keeps ..) fun r => ?_
  · split
    · exact createDots_keeps ..
    · exact .pure _
  · split
    · exact .fail _
    · exact .bind (iput_keeps _) fun _ => .pure _

theorem create_keeps (cwd : ℕ) (path : List Byte) (type major minor : Short) :
    Keeps Quiet (create sb cwd path type major minor) := by
  refine .bind (namex_keeps ..) fun r => ?_
  split
  · exact .pure _
  · refine .bind (ilock_keeps _) fun _ => .bind (dirlookup_keeps ..) fun r => ?_
    split
    · refine .bind (iput_keeps _) fun _ => .bind (ilock_keeps _) fun _ => .bind .read fun s => ?_
      split
      · exact .pure _
      · exact .bind (iput_keeps _) fun _ => .pure _
    · exact .bind (createNew_keeps ..) fun _ => .pure _

theorem openInode_keeps (cwd : ℕ) (path : List Byte) (omode : BitVec 32) :
    Keeps Quiet (openInode sb cwd path omode) := by
  unfold openInode
  split
  · exact create_keeps ..
  · refine .bind (namei_keeps ..) fun r => ?_
    split
    · exact .pure _
    · refine .bind (ilock_keeps _) fun _ => .bind .read fun s => ?_
      split
      · exact .bind (iput_keeps _) fun _ => .pure _
      · exact .pure _

theorem openFile_keeps (p : Fin NPROC) (ip : ℕ) (omode : BitVec 32) :
    Keeps Logged (openFile sb p ip omode) := by
  refine .bind .read fun s => ?_
  dsimp only
  split
  · exact .bind ((iput_keeps _).mono Quiet.logged) fun _ => .pure _
  · refine .bind filealloc_keeps fun r => ?_
    split
    · exact .bind ((iput_keeps _).mono Quiet.logged) fun _ => .pure _
    · refine .bind (fdalloc_keeps ..) fun r => ?_
      split
      · exact .bind (fileclose_keeps _) fun _ =>
          .bind ((iput_keeps _).mono Quiet.logged) fun _ => .pure _
      · refine .bind (.update fun s => refl_of Logged s) fun _ => ?_
        split
        · exact .bind ((itrunc_keeps _).mono Quiet.logged) fun _ => .pure _
        · exact .pure _

theorem sysOpen_keeps (p : Fin NPROC) (cwd : ℕ) (path : Option Path)
    (omode : BitVec 32) : Keeps Logged (sysOpen sb p cwd path omode) := by
  unfold sysOpen
  split
  · exact .pure _
  · refine .bind ((openInode_keeps ..).mono Quiet.logged) fun r => ?_
    split
    · exact .pure _
    · exact openFile_keeps ..

theorem sysCreate_keeps (cwd : ℕ) (path : Option Path) (type major minor : Short) :
    Keeps Quiet (sysCreate sb cwd path type major minor) := by
  unfold sysCreate
  split
  · exact .pure _
  · refine .bind (create_keeps ..) fun r => ?_
    split
    · exact .pure _
    · exact .bind (iput_keeps _) fun _ => .pure _

theorem linkBad_keeps (ip : ℕ) : Keeps Quiet (linkBad sb ip) :=
  .bind (ilock_keeps _) fun _ => .bind (assign_keeps ..) fun _ =>
    .bind (iput_keeps _) fun _ => .pure _

theorem linkNew_keeps (cwd ip : ℕ) (new : List Byte) : Keeps Quiet (linkNew sb cwd ip new) := by
  refine .bind (namex_keeps ..) fun r => ?_
  split
  · exact linkBad_keeps _
  · refine .bind (ilock_keeps _) fun _ => .bind (dirlink_keeps ..) fun r => ?_
    split
    · exact .bind (iput_keeps _) fun _ => linkBad_keeps _
    · exact .bind (iput_keeps _) fun _ => .bind (iput_keeps _) fun _ => .pure _

theorem sysLink_keeps (cwd : ℕ) (old new : Option Path) : Keeps Quiet (sysLink sb cwd old new) := by
  unfold sysLink
  split
  · refine .bind (namei_keeps ..) fun r => ?_
    split
    · exact .pure _
    · refine .bind (ilock_keeps _) fun _ => .bind .read fun s => ?_
      split
      · exact .bind (iput_keeps _) fun _ => .pure _
      · exact .bind (assign_keeps ..) fun _ => linkNew_keeps ..
  · exact .pure _

theorem unlinkEntry_keeps (dp ip off : ℕ) (isdir : Bool) :
    Keeps Quiet (unlinkEntry sb dp ip off isdir) := by
  refine .bind (writei_keeps ..) fun r => ?_
  split
  · exact .fail _
  · refine .bind ?_ fun _ => .bind (iput_keeps _) fun _ =>
      .bind (assign_keeps ..) fun _ => .bind (iput_keeps _) fun _ => .pure _
    split
    · exact assign_keeps ..
    · exact .pure _

theorem sysUnlink_keeps (cwd : ℕ) (path : Option Path) : Keeps Quiet (sysUnlink sb cwd path) := by
  unfold sysUnlink
  split
  · exact .pure _
  · refine .bind (namex_keeps ..) fun r => ?_
    split
    · exact .pure _
    · refine .bind (ilock_keeps _) fun _ => ?_
      split
      · exact .bind (iput_keeps _) fun _ => .pure _
      · refine .bind (dirlookup_keeps ..) fun r => ?_
        split
        · exact .bind (iput_keeps _) fun _ => .pure _
        · refine .bind (ilock_keeps _) fun _ => .bind .read fun s => ?_
          split
          · exact .fail _
          · split
            · refine .bind (isdirempty_keeps _) fun empty => ?_
              split
              · exact unlinkEntry_keeps ..
              · exact .bind (iput_keeps _) fun _ => .bind (iput_keeps _) fun _ => .pure _
            · exact unlinkEntry_keeps ..

theorem sysChdir_keeps (p : Fin NPROC) (cwd : ℕ) (path : Option Path) :
    Keeps Logged (sysChdir sb p cwd path) := by
  unfold sysChdir
  split
  · exact .pure _
  · refine .bind ((namei_keeps ..).mono Quiet.logged) fun r => ?_
    split
    · exact .pure _
    · refine .bind ((ilock_keeps _).mono Quiet.logged) fun _ => .bind .read fun s => ?_
      split
      · exact .bind ((iput_keeps _).mono Quiet.logged) fun _ => .pure _
      · exact .bind ((iput_keeps _).mono Quiet.logged) fun _ =>
          .bind (.update fun s => refl_of Logged s) fun _ => .pure _

theorem clearFd_keeps (p : Fin NPROC) (fd : Fin NOFILE) : Keeps Logged (clearFd p fd) :=
  .update fun s => refl_of Logged s

theorem sysClose_keeps (p : Fin NPROC) (fd : BitVec 32) : Keeps Logged (sysClose sb p fd) := by
  refine .bind (argfd_keeps ..) fun r => ?_
  split
  · exact .pure _
  · exact .bind (clearFd_keeps ..) fun _ => .bind (fileclose_keeps _) fun _ => .pure _

theorem sysRead_keeps (p : Fin NPROC) (fd : BitVec 32) (mem : Memory)
    (addr : ℕ) (n : BitVec 32) (other : ℤ) :
    Keeps Logged (sysRead sb p fd mem addr n other) := by
  refine .bind (argfd_keeps ..) fun r => ?_
  split
  · exact .pure _
  · exact .bind (fileread_keeps ..) fun _ => .pure _

theorem exitClose_keeps (p : Fin NPROC) (fd : Fin NOFILE) : Keeps Logged (exitClose sb p fd) := by
  refine .bind .read fun s => ?_
  split
  · exact .pure _
  · exact .bind (fileclose_keeps _) fun _ => clearFd_keeps ..

theorem exit_keeps (p : Fin NPROC) (cwd : ℕ) : Keeps Logged (exit sb p cwd) :=
  .bind (.forM fun fd => exitClose_keeps p fd) fun _ =>
    .bind ((iput_keeps _).mono Quiet.logged) fun _ => .update fun s => refl_of Logged s

/-! ## `write` -/

theorem inodes_logs {f : Fs.State → Except Fs.Panic (α × Fs.State)} {s : State}
    (h : ∀ a t, f s.fs = .ok (a, t) → Logs s.fs t) :
    wp (inodes f) s (fun _ t => Logged s t ∧ t.file = s.file) fun _ => True :=
  wp_zoom (fun a t hok => ⟨h a t hok, rfl⟩) fun _ _ => trivial

theorem ilock_files (s : State) (ip : ℕ) :
    wp (ilock sb ip) s (fun _ t => Logged s t ∧ t.file = s.file) fun _ => True := by
  refine wp_iff.mpr ⟨fun a t hok => ?_, fun _ _ => trivial⟩
  have hquiet := (ilock_keeps ip).of_ok s a t hok
  exact ⟨hquiet.logged, hquiet.file⟩

/-- Offsets wrap around at a multiple of the block size. -/
theorem aligned_wrap {src off : ℕ} (h : Fs.Aligned mem src n off) :
    Fs.Aligned mem src n (off % 2 ^ 32) := by
  intro k hlo hhi hmapped hunmapped
  have hdvd := h k hlo hhi hmapped hunmapped
  have hwrap : BSIZE ∣ 2 ^ 32 := by decide
  rw [Nat.dvd_iff_mod_eq_zero] at hdvd ⊢
  rw [Nat.add_mod, Nat.mod_mod_of_dvd off hwrap, ← Nat.add_mod, hdvd]

/-- The offset of the file follows the position in the source. -/
theorem filewriteLoop_logs {f : Fin NFILE} {i : ℕ} {s : State}
    (haligned : Fs.Aligned mem (addr + i) (n - i) (s.file f).off.toNat) :
    wp (filewriteLoop sb f mem addr n i) s (fun _ t => Logged s t) fun _ => True := by
  induction hfuel : n - i using Nat.strong_induction_on generalizing i s with
  | _ fuel ih =>
    have hmax : 0 < maxWrite := by decide
    unfold filewriteLoop
    refine wp_ite (fun hi => wp_read_bind ?_) fun _ => wp_pure (refl_of Logged s)
    set n1 := min (n - i) maxWrite
    refine wp_bind (ilock_files s _) ?_
    rintro - t₁ ⟨h₁, hfile₁⟩
    refine wp_bind (inodes_logs fun _ _ => writei_logs fun _ => haligned.shorten (by omega)) ?_
    rintro r t₂ ⟨h₂, hfile₂⟩
    have hlogged : Logged s t₂ := trans_of Logged h₁ h₂
    refine wp_update_bind (wp_ite (fun _ => wp_pure hlogged) fun _ =>
      wp_ite (fun _ => wp_fail trivial) fun hr => ?_)
    obtain rfl : r = n1 := not_not.mp hr
    refine wp_mono (ih (n - (i + n1)) (by omega) ?_ rfl) fun _ t ht => trans_of Logged hlogged ht
    have hoff : (if (0 : ℤ) < n1 then (t₂.file f).off + BitVec.ofInt 32 n1
        else (t₂.file f).off).toNat = ((s.file f).off.toNat + n1) % 2 ^ 32 := by
      rw [if_pos (by omega), hfile₂, hfile₁, BitVec.ofInt_natCast,
        BitVec.toNat_add, BitVec.toNat_ofNat, Nat.add_mod_mod]
    unfold State.setFile
    dsimp only
    rw [Function.update_self, hoff, ← Nat.add_assoc]
    exact aligned_wrap (haligned.advance (by omega))

end Commands

/-- In a `write` to a file, the mapped pages of the source do not end in the
middle of a block of the file. -/
def Call.Aligned (s : State) (p : Fin NPROC) : Call → Prop
  | .write fd mem addr n _ =>
    ∀ (h : fd.toNat < NOFILE) f, (s.proc p).ofile ⟨fd.toNat, h⟩ = some f →
      (s.file f).type = .inode → (s.file f).writable = true →
      Fs.Aligned mem addr n.toInt.toNat (s.file f).off.toNat
  | _ => True

variable {sb : Superblock} {s t : State}

theorem sysWrite_logs {fd : BitVec 32} {n : BitVec 32} {other : ℤ}
    (haligned : Call.Aligned s p (.write fd mem addr n other)) :
    wp (sysWrite sb p fd mem addr n other) s (fun _ t => Logged s t) fun _ => True := by
  have hargfd : wp (argfd p fd) s (fun r t => t = s ∧ ∀ fd' f,
      r = some (fd', f) → ∃ h : fd.toNat < NOFILE,
        (s.proc p).ofile ⟨fd.toNat, h⟩ = some f) fun _ => True := by
    refine wp_read_bind ?_
    split
    next hlt =>
      refine wp_pure ⟨rfl, fun fd' f hr => ⟨hlt, ?_⟩⟩
      obtain ⟨g, hg, heq⟩ := Option.map_eq_some_iff.mp hr
      rw [hg, (Prod.mk.inj heq).2]
    next => exact wp_pure ⟨rfl, by simp⟩
  refine wp_bind hargfd ?_
  rintro (- | ⟨fd', f⟩) t ⟨rfl, hfile⟩
  · exact wp_pure (refl_of Logged t)
  obtain ⟨hlt, hf⟩ := hfile fd' f rfl
  refine wp_read_bind (wp_ite (fun _ => wp_pure (refl_of Logged t)) fun hwrite => ?_)
  split
  · exact wp_pure (refl_of Logged t)
  · exact wp_pure (refl_of Logged t)
  next htype =>
    have hstart := haligned hlt f hf htype (by simpa using hwrite)
    exact wp_bind (filewriteLoop_logs hstart) fun _ _ ht => wp_pure ht
  · exact wp_fail trivial

theorem Call.run_logs {cwd : ℕ} {c : Call} {r : ℤ} (haligned : c.Aligned s p)
    (h : c.run sb p cwd s = .ok (r, t)) : Logged s t := by
  cases c with
  | «open» path omode => exact (sysOpen_keeps ..).of_ok s r t h
  | mkdir path => exact ((sysCreate_keeps ..).of_ok s r t h).logged
  | mknod path major minor => exact ((sysCreate_keeps ..).of_ok s r t h).logged
  | link old new => exact ((sysLink_keeps ..).of_ok s r t h).logged
  | unlink path => exact ((sysUnlink_keeps ..).of_ok s r t h).logged
  | chdir path => exact (sysChdir_keeps ..).of_ok s r t h
  | close fd => exact (sysClose_keeps ..).of_ok s r t h
  | read fd mem addr n other => exact (sysRead_keeps ..).of_ok s r t h
  | write fd mem addr n other => exact (wp_iff.mp (sysWrite_logs haligned)).1 r t h
  | exit => exact (Keeps.bind (exit_keeps p cwd) fun _ => .pure _).of_ok s r t h

/-! ## The disk -/

/-- The kernel and the disk.  Where a block is in a buffer, `sys` has the
contents of the buffer, and elsewhere those of the disk. -/
structure Machine where
  sys : State
  disk : Disk

variable {m m' : Machine}

namespace Machine

inductive Event where
  | call (p : Fin NPROC) (c : Call)
  /-- The logged blocks are written to the disk. -/
  | commit
  /-- The buffer of block `b` gets another block. -/
  | evict (b : ℕ)

/-- The kernel with other contents of the blocks, and another log. -/
def setBlocks (m : Machine) (disk : Disk) (logged : List ℕ) : State :=
  { m.sys with fs := { m.sys.fs with disk := disk, logged := logged } }

/-- One step between transactions.  The buffer of a logged block is pinned, and
is not evicted. -/
def step (sb : Superblock) (m : Machine) : Event → Option Machine
  | .call p c => (Sysfile.step sb m.sys (p, c)).map fun s => { m with sys := s }
  | .commit =>
    some
      { sys := m.setBlocks m.sys.fs.disk []
        disk := fun b => if b ∈ m.sys.fs.logged then m.sys.fs.disk b else m.disk b }
  | .evict b =>
    if b ∈ m.sys.fs.logged then
      none
    else
      some { m with
        sys := m.setBlocks (putBlock m.sys.fs.disk b (m.disk b)) m.sys.fs.logged }

/-- The kernel starts with no buffers and an empty log. -/
def system (sb : Superblock) : EventSystem Machine Event where
  init m := m.disk = m.sys.fs.disk ∧ m.sys.fs.logged = []
  step := step sb

/-- Outside the log, buffers hold what is on the disk. -/
def Agrees (m : Machine) : Prop := ∀ b, b ∉ m.sys.fs.logged → m.sys.fs.disk b = m.disk b

def AlignedStep (m : Machine) : Event → Prop
  | .call p c => c.Aligned m.sys p
  | _ => True

/-- Evicting a buffer that agrees with the disk changes nothing. -/
theorem Agrees.evict_eq {b : ℕ} (h : m.Agrees)
    (hstep : m.step sb (.evict b) = some m') : m' = m := by
  unfold Machine.step at hstep
  dsimp only at hstep
  obtain ⟨hb, ⟨⟩⟩ := Option.ite_none_left_eq_some.mp hstep
  have hsame : putBlock m.sys.fs.disk b (m.disk b) = m.sys.fs.disk := by
    rw [← h b hb]
    exact Function.update_eq_self ..
  unfold setBlocks
  rw [hsame]

theorem Agrees.step {e : Event} (h : m.Agrees) (haligned : m.AlignedStep e)
    (hstep : m.step sb e = some m') : m'.Agrees := by
  cases e with
  | call p c =>
    obtain ⟨t, ht, rfl⟩ := Option.map_eq_some_iff.mp hstep
    unfold Sysfile.step at ht
    split at ht
    · cases ht
    next cwd hcwd =>
      split at ht
      next r u hrun =>
        cases ht
        have hlogs : Logged m.sys t := Call.run_logs haligned hrun
        intro b hb
        exact (hlogs.same b hb).trans (h b fun hmem => hb (hlogs.mono b hmem))
      next => cases ht
  | commit =>
    cases hstep
    intro b hb
    change m.sys.fs.disk b = if b ∈ m.sys.fs.logged then _ else _
    split
    next => rfl
    next hlogged => exact h b hlogged
  | evict b => exact (h.evict_eq hstep) ▸ h

/-- If no `write` runs out of mapped pages inside a block, the buffers of the
blocks that are not logged hold what is on the disk, and evicting one changes
nothing that a reader could see. -/
theorem unlogged_buffers_agree {m m' : Machine} {es : List Event} (hinit : (system sb).init m)
    (haligned : (system sb).Meets AlignedStep m es)
    (hrun : (system sb).run m es = some m') :
    m'.Agrees ∧ ∀ b m'', (system sb).step m' (.evict b) = some m'' →
      m''.sys.fs.disk = m'.sys.fs.disk := by
  have hagrees : m'.Agrees := by
    refine haligned.invariant (P := Agrees) (fun m e m' h hok hstep => h.step hok hstep) ?_ hrun
    intro b _
    rw [hinit.1]
  refine ⟨hagrees, fun b m'' hstep => ?_⟩
  have heq : m'' = m' := Agrees.evict_eq hagrees (show m'.step sb (.evict b) = some m'' from hstep)
  rw [heq]

/-! The first process opens the new file `x` twice.  It writes `xx` through the
first descriptor.  After the commit it writes two bytes through the other one,
of which the first is the last byte of its memory. -/

def smallMachine : Machine := ⟨smallTree, smallTree.fs.disk⟩

/-- One page of `x`, with a `y` at its end. -/
def onePage : Memory where
  mapped page := page = 0
  byte i := if i = 4095 then 121 else 120

def openX : Event := .call proc (.open pathX (O_CREATE ||| O_RDWR))

def writeTwo (fd : BitVec 32) (addr : ℕ) : Event := .call proc (.write fd onePage addr 2 0)

theorem alignedStep_writeTwo (m : Machine) (fd : BitVec 32) :
    m.AlignedStep (writeTwo fd 0) := by
  intro _ _ _ _ _ k hlo hhi
  change k * PGSIZE < 0 + 2 at hhi
  unfold PGSIZE at hlo hhi
  omega

theorem unlogged_buffers_agree_small : (system smallSuperblock).init smallMachine ∧
      ∃ m, (system smallSuperblock).run smallMachine
          [openX, openX, writeTwo 0 0, .commit, .evict 9, writeTwo 1 0] = some m ∧ m.Agrees := by
  have hrun : ((system smallSuperblock).run smallMachine
      [openX, openX, writeTwo 0 0, .commit, .evict 9, writeTwo 1 0]).isSome =
        true := by
    decide +kernel
  obtain ⟨m, hm⟩ := Option.isSome_iff_exists.mp hrun
  refine ⟨⟨rfl, rfl⟩, m, hm, (unlogged_buffers_agree ⟨rfl, rfl⟩ ?_ hm).1⟩
  refine EventSystem.meets_of_forall_mem ?_ _
  intro e he m
  simp only [List.mem_cons, List.not_mem_nil, or_false] at he
  rcases he with rfl | rfl | rfl | rfl | rfl | rfl
  · trivial
  · trivial
  · exact alignedStep_writeTwo m 0
  · trivial
  · trivial
  · exact alignedStep_writeTwo m 1

/-- The write fails, but block 9 of the file has changed; it is not logged, and
when its buffer is evicted, the change is lost. -/
theorem failed_write_is_not_logged : (system smallSuperblock).init smallMachine ∧
      ∃ m m', (system smallSuperblock).run smallMachine
          [openX, openX, writeTwo 0 0, .commit, writeTwo 1 4095] = some m ∧
        9 ∉ m.sys.fs.logged ∧ m.sys.fs.disk 9 ≠ m.disk 9 ∧
        ((m.sys.view smallSuperblock).node 2).data = [121, 120] ∧
        (system smallSuperblock).step m (.evict 9) = some m' ∧
        ((m'.sys.view smallSuperblock).node 2).data = [120, 120] := by
  refine ⟨⟨rfl, rfl⟩, ?_⟩
  have hrun : ∃ m, (system smallSuperblock).run smallMachine
      [openX, openX, writeTwo 0 0, .commit, writeTwo 1 4095] = some m ∧
      9 ∉ m.sys.fs.logged ∧ peek (m.sys.fs.disk 9) 0 ≠ peek (m.disk 9) 0 ∧
      ((m.sys.view smallSuperblock).node 2).data = [121, 120] ∧
      ((m.step smallSuperblock (.evict 9)).any fun m' =>
        ((m'.sys.view smallSuperblock).node 2).data = [120, 120]) = true :=
    EventSystem.exists_of_any_run (by decide +kernel)
  obtain ⟨m, hm, hlogged, hpeek, hbefore, hafter⟩ := hrun
  obtain ⟨m', hm', hafter⟩ := (Option.any_eq_true ..).mp hafter
  refine ⟨m, m', hm, hlogged, fun heq => hpeek ?_, hbefore, hm', of_decide_eq_true hafter⟩
  rw [heq]

end Machine

end OsCa.Sysfile
