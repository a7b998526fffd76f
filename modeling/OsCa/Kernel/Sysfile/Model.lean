import OsCa.Support.Action
import OsCa.Support.EventSystem
import OsCa.Kernel.Fs.Model

/-!
# Directories, paths and the system calls on files

This module embeds the upper half of `kernel/fs.c` (the inode cache, directories
and paths), `kernel/file.c` and the system calls of `kernel/sysfile.c` on top of
the inodes of `OsCa.Fs`.  A system call is one atomic command: the locks that
make it so are left out, and so are the transactions of the log.

A `struct inode *` is the number of its inode.  The cache has one entry per
inode number with a reference count `ref`, and `entries` counts the entries in
use, of which there are at most `NINODE`.  A path is a list of bytes without its
terminating `NUL`.
-/

namespace OsCa.Sysfile

open Bytes Fs OsCa.Action List

/-! ## Constants -/

def DIRSIZ : ℕ := 14

def ROOTINO : ℕ := 1

def NINODE : ℕ := 50

def NFILE : ℕ := 100

def NOFILE : ℕ := 16

def NPROC : ℕ := 64

def NDEV : ℕ := 10

def MAXPATH : ℕ := 128

def T_DIR : Short := 1

def T_FILE : Short := 2

def T_DEVICE : Short := 3

def O_RDONLY : BitVec 32 := 0x000

def O_WRONLY : BitVec 32 := 0x001

def O_RDWR : BitVec 32 := 0x002

def O_CREATE : BitVec 32 := 0x200

def O_TRUNC : BitVec 32 := 0x400

/-! ## Strings

The bytes that a `char *` points to are a function of their distance.
-/

def strncmp (p q : ℕ → Byte) : ℕ → ℤ
  | 0 => 0
  | n + 1 =>
    if p 0 ≠ 0 ∧ p 0 = q 0 then
      strncmp (fun i => p (i + 1)) (fun i => q (i + 1)) n
    else (p 0).toNat - (q 0).toNat

/-- The `n` bytes that `strncpy` stores. -/
def strncpy (t : ℕ → Byte) : ℕ → List Byte
  | 0 => []
  | n + 1 =>
    if t 0 ≠ 0 then t 0 :: strncpy (fun i => t (i + 1)) n
    else 0 :: replicate n 0

/-- A string literal. -/
def literal (bytes : List Byte) : ℕ → Byte := fun i => bytes.getD i 0

/-- The character `/`. -/
def slash : Byte := 47

/-- The string `"."`. -/
def dot : List Byte := [46]

/-- The string `".."`. -/
def dotdot : List Byte := [46, 46]

/-! ## Directory entries -/

/-- `char name[DIRSIZ]` -/
abbrev NameBuffer := Buffer DIRSIZ

/-- `struct dirent`. -/
@[ext]
structure Dirent where
  inum : BitVec 16
  name : NameBuffer

/-- `sizeof(struct dirent)` -/
def direntSize : ℕ := 16

namespace Dirent

/-- The entry stored in the bytes `b 0, ..., b 15`. -/
def decode (b : ℕ → Byte) : Dirent where
  inum := b 1 ++ b 0
  name i := b (2 + i)

def byte (de : Dirent) : ℕ → Byte
  | 0 => de.inum.setWidth 8
  | 1 => (de.inum >>> 8).setWidth 8
  | i + 2 => peek de.name i

/-- The entry as it lies in kernel memory. -/
def memory (de : Dirent) : Memory where
  mapped _ := false
  byte := de.byte

end Dirent

/-! ## The state -/

inductive Panic where
  | fs (p : Fs.Panic)
  | igetNoInodes
  | ilock
  | dirlookupNotDir
  | dirlookupRead
  | dirlinkRead
  | dirlink
  | isdiremptyReadi
  | unlinkNlink
  | unlinkWritei
  | createDots
  | createDirlink
  | fileclose
  | fileread
  | filewrite
  | shortFilewrite
  deriving DecidableEq

inductive FdType where
  | none
  | pipe
  | inode
  | device
  deriving DecidableEq

/-- `struct file`, without the pipe. -/
structure OpenFile where
  type : FdType
  ref : ℕ
  readable : Bool
  writable : Bool
  ip : ℕ
  off : Uint
  major : Short

/-- The fields of `struct proc` about files.  A process that has exited has no
current directory. -/
structure Proc where
  ofile : Fin NOFILE → Option (Fin NFILE)
  cwd : Option ℕ

structure State where
  fs : Fs.State
  ref : ℕ → ℕ
  entries : ℕ
  file : Fin NFILE → OpenFile
  proc : Fin NPROC → Proc

/-- A command of the kernel. -/
abbrev M := Action Panic State

namespace State

def setFile (s : State) (f : Fin NFILE) (g : OpenFile → OpenFile) : State :=
  { s with file := Function.update s.file f (g (s.file f)) }

def setProc (s : State) (p : Fin NPROC) (g : Proc → Proc) : State :=
  { s with proc := Function.update s.proc p (g (s.proc p)) }

end State

/-- A function on the inodes. -/
def inodes {α : Type} (f : Fs.State → Except Fs.Panic (α × Fs.State)) : M α :=
  zoom State.fs (fun t s => { s with fs := t }) Panic.fs f

section Commands

variable (sb : Superblock)

/-! ## The inode cache -/

/-- `iget`; the entry of an inode that is not in the cache yet is not valid. -/
def iget (inum : ℕ) : M Unit := do
  let s ← read
  if 0 < s.ref inum then
    update fun s => { s with ref := Function.update s.ref inum (s.ref inum + 1) }
  else if NINODE ≤ s.entries then
    fail .igetNoInodes
  else
    update fun s =>
      { s with
        fs := s.fs.setInode inum fun ip => { ip with valid := false }
        ref := Function.update s.ref inum 1
        entries := s.entries + 1 }

def idup (ip : ℕ) : M Unit :=
  update fun s => { s with ref := Function.update s.ref ip (s.ref ip + 1) }

def ilock (ip : ℕ) : M Unit := do
  let s ← read
  if s.ref ip < 1 then
    fail .ilock
  else
    inodes fun t => (Fs.ilock sb t ip).map ((), ·)

def iput (ip : ℕ) : M Unit := do
  let s ← read
  inodes fun t => (Fs.iput sb t ip (decide (s.ref ip = 1))).map ((), ·)
  update fun s =>
    { s with
      ref := Function.update s.ref ip (s.ref ip - 1)
      entries := if s.ref ip = 1 then s.entries - 1 else s.entries }

/-- `iunlock` and `iput`. -/
def iunlockput (ip : ℕ) : M Unit := iput sb ip

def ialloc (type : Short) : M ℕ := do
  let ip ← inodes fun t => Fs.ialloc sb t type
  iget ip
  return ip

/-- Assign to fields of `ip`, and call `iupdate(ip)`. -/
def assign (ip : ℕ) (g : Inode → Inode) : M Unit :=
  inodes fun t => .ok ((), Fs.iupdate sb (t.setInode ip g) ip)

def itrunc (ip : ℕ) : M Unit := inodes fun t => (Fs.itrunc sb t ip).map ((), ·)

def readi (ip : ℕ) (userDst : Bool) (mem : Memory) (dst off n : ℕ) :
    M (ℤ × Memory) :=
  inodes fun t => (Fs.readi sb t ip userDst mem dst off n).map fun r => ((r.1, r.2.1), r.2.2)

def writei (ip : ℕ) (userSrc : Bool) (mem : Memory) (src off n : ℕ) : M ℤ :=
  inodes fun t => Fs.writei sb t ip userSrc mem src off n

/-! ## Directories -/

def namecmp (s t : ℕ → Byte) : ℤ := strncmp s t DIRSIZ

/-- Memory before it is written. -/
def freshMemory : Memory where
  mapped _ := false
  byte _ := 0

/-- Read the entry at `off` of directory `dp`. -/
def readDirent (dp off : ℕ) (p : Panic) : M Dirent := do
  let r ← readi sb dp false freshMemory 0 off direntSize
  if r.1 ≠ direntSize then fail p else return Dirent.decode r.2.byte

/-- The values of `off` in a loop over the entries of a directory. -/
def offsets (size : ℕ) : List ℕ :=
  (range ((size + direntSize - 1) / direntSize)).map (direntSize * ·)

/-- The loop of `dirlookup`: offset and inode number of the first entry with
this name. -/
def findName (dp : ℕ) (name : ℕ → Byte) : List ℕ → M (Option (ℕ × ℕ))
  | [] => return none
  | off :: offs => do
      let de ← readDirent sb dp off .dirlookupRead
      if de.inum = 0 then
        findName dp name offs
      else if namecmp name (peek de.name) = 0 then
        return some (off, de.inum.toNat)
      else
        findName dp name offs

/-- `dirlookup`, which returns the inode and the offset of its entry. -/
def dirlookup (dp : ℕ) (name : ℕ → Byte) : M (Option (ℕ × ℕ)) := do
  let s ← read
  if (s.fs.icache dp).type ≠ T_DIR then
    fail .dirlookupNotDir
  else
    match ← findName sb dp name (offsets (s.fs.icache dp).size.toNat) with
    | none => return none
    | some (off, inum) => do
        iget inum
        return some (inum, off)

/-- The loop of `dirlink`: the offset of the first free entry. -/
def findFreeEntry (dp : ℕ) : List ℕ → M (Option ℕ)
  | [] => return none
  | off :: offs => do
      let de ← readDirent sb dp off .dirlinkRead
      if de.inum = 0 then return some off else findFreeEntry dp offs

def dirlink (dp : ℕ) (name : ℕ → Byte) (inum : ℕ) : M ℤ := do
  match ← dirlookup sb dp name with
  | some (ip, _) => do
      iput sb ip
      return -1
  | none => do
      let s ← read
      let size := (s.fs.icache dp).size.toNat
      let free ← findFreeEntry sb dp (offsets size)
      -- Without a free entry the loop ends at the first offset past the end.
      let off := free.getD
        ((size + direntSize - 1) / direntSize * direntSize)
      let de : Dirent :=
        { inum := BitVec.ofNat 16 inum
          name := fun i => (strncpy name DIRSIZ).getD i 0 }
      let r ← writei sb dp false de.memory 0 off direntSize
      if r ≠ direntSize then fail .dirlink else return 0

/-! ## Paths -/

/-- `skipelem`; `none` is the null pointer. -/
def skipelem (path : List Byte) (name : NameBuffer) :
    Option (List Byte × NameBuffer) :=
  let path := path.dropWhile (· = slash)
  if path = [] then
    none
  else
    let s := path.takeWhile (· ≠ slash)
    let len := s.length
    let path := path.dropWhile (· ≠ slash)
    let name :=
      if len ≥ DIRSIZ then blit name 0 DIRSIZ (literal s)
      else blit (blit name 0 len (literal s)) len 1 fun _ => 0
    some (path.dropWhile (· = slash), name)

theorem length_of_skipelem {path path' : List Byte} {name name' : NameBuffer}
    (h : skipelem path name = some (path', name')) :
    path'.length < path.length := by
  unfold skipelem at h
  dsimp only at h
  split at h
  · cases h
  next hne =>
    obtain ⟨rfl, -⟩ := Prod.mk.inj (Option.some.inj h)
    have hdrop : (path.dropWhile (· = slash)).length ≤ path.length := (dropWhile_suffix _).length_le
    have hrest := (dropWhile_suffix (· = slash)
      (l := (path.dropWhile (· = slash)).dropWhile (· ≠ slash))).length_le
    -- The first byte of the element is not a slash.
    have helem : ((path.dropWhile (· = slash)).dropWhile (· ≠ slash)).length <
        (path.dropWhile (· = slash)).length := by
      obtain ⟨b, rest, hpath⟩ := exists_cons_of_ne_nil hne
      have hb : b ≠ slash := by
        have hhead := head_dropWhile_not (· = slash) hne
        simp only [hpath, head_cons, decide_eq_false_iff_not] at hhead
        exact hhead
      rw [hpath, dropWhile_cons, if_pos (by simpa using hb)]
      exact Nat.lt_succ_of_le (dropWhile_suffix _).length_le
    omega

/-- The loop of `namex`. -/
def namexLoop (nameiparent : Bool) (ip : ℕ) (path : List Byte)
    (name : NameBuffer) : M (Option (ℕ × NameBuffer)) :=
  match _h : skipelem path name with
  | some (path', name') => do
      ilock sb ip
      let s ← read
      if (s.fs.icache ip).type ≠ T_DIR then
        iunlockput sb ip
        return none
      else if nameiparent = true ∧ path' = [] then
        -- Stop one level early.
        return some (ip, name')
      else
        match ← dirlookup sb ip (peek name') with
        | none => do
            iunlockput sb ip
            return none
        | some (next, _) => do
            iunlockput sb ip
            namexLoop nameiparent next path' name'
  | none =>
    if nameiparent then do
      iput sb ip
      return none
    else
      return some (ip, name)
termination_by path.length
decreasing_by exact length_of_skipelem _h

/-- `namex` for a process with current directory `cwd`; it also returns what is
in `name` at the end. -/
def namex (cwd : ℕ) (path : List Byte) (nameiparent : Bool) :
    M (Option (ℕ × NameBuffer)) :=
  if path.head? = some slash then do
    iget ROOTINO
    namexLoop sb nameiparent ROOTINO path fun _ => 0
  else do
    idup cwd
    namexLoop sb nameiparent cwd path fun _ => 0

def namei (cwd : ℕ) (path : List Byte) : M (Option ℕ) := do
  let r ← namex sb cwd path false
  return r.map Prod.fst

def nameiparent (cwd : ℕ) (path : List Byte) : M (Option (ℕ × NameBuffer)) := namex sb cwd path true

/-! ## Open files -/

def filealloc : M (Option (Fin NFILE)) := do
  let s ← read
  match (finRange NFILE).find? fun f => decide ((s.file f).ref = 0) with
  | none => return none
  | some f => do
      update fun s => s.setFile f fun file => { file with ref := 1 }
      return some f

/-- `fileclose`.  Closing a pipe changes none of the modelled state. -/
def fileclose (f : Fin NFILE) : M Unit := do
  let s ← read
  if (s.file f).ref < 1 then
    fail .fileclose
  else if 1 < (s.file f).ref then
    update fun s => s.setFile f fun file => { file with ref := file.ref - 1 }
  else do
    update fun s => s.setFile f fun file =>
      { file with ref := 0, type := .none }
    if (s.file f).type = .inode ∨ (s.file f).type = .device then
      iput sb (s.file f).ip
    else
      return ()

/-- `f->off += r` -/
def advance (f : Fin NFILE) (r : ℤ) : M Unit := update fun s => s.setFile f fun file =>
    { file with off := if 0 < r then file.off + BitVec.ofInt 32 r else file.off }

/-- `fileread`.  The result `other` is that of `piperead`, or of the device. -/
def fileread (f : Fin NFILE) (mem : Memory) (addr : ℕ) (n : BitVec 32)
    (other : ℤ) : M (ℤ × Memory) := do
  let s ← read
  if (s.file f).readable = false then
    return (-1, mem)
  else
    match (s.file f).type with
    | .pipe => return (other, mem)
    | .device => return (other, mem)
    | .inode => do
        ilock sb (s.file f).ip
        let r ← readi sb (s.file f).ip true mem addr (s.file f).off.toNat n.toNat
        advance f r.1
        return r
    | .none => fail .fileread

/-- The bytes `filewrite` writes in one transaction. -/
def maxWrite : ℕ := (MAXOPBLOCKS - 1 - 1 - 2) / 2 * BSIZE

/-- The loop of `filewrite`, which returns the final value of `i`. -/
def filewriteLoop (f : Fin NFILE) (mem : Memory) (addr n i : ℕ) : M ℕ := if i < n then do
    let n1 := min (n - i) maxWrite
    let s ← read
    ilock sb (s.file f).ip
    let r ← writei sb (s.file f).ip true mem (addr + i) (s.file f).off.toNat n1
    advance f r
    if r < 0 then
      return i
    else if r ≠ n1 then
      fail .shortFilewrite
    else
      filewriteLoop f mem addr n (i + n1)
  else
    return i
termination_by n - i
decreasing_by
  have hmax : 0 < maxWrite := by decide
  omega

/-- `filewrite`; for `other`, see `fileread`. -/
def filewrite (f : Fin NFILE) (mem : Memory) (addr : ℕ) (n : BitVec 32)
    (other : ℤ) : M ℤ := do
  let s ← read
  if (s.file f).writable = false then
    return -1
  else
    match (s.file f).type with
    | .pipe => return other
    | .device => return other
    | .inode => do
        let i ← filewriteLoop sb f mem addr n.toInt.toNat 0
        return if (i : ℤ) = n.toInt then n.toInt else -1
    | .none => fail .filewrite

/-! ## File descriptors -/

/-- `argfd`; a negative `fd` is a large number. -/
def argfd (p : Fin NPROC) (fd : BitVec 32) :
    M (Option (Fin NOFILE × Fin NFILE)) := do
  let s ← read
  if h : fd.toNat < NOFILE then
    return ((s.proc p).ofile ⟨fd.toNat, h⟩).map (⟨fd.toNat, h⟩, ·)
  else
    return none

def fdalloc (p : Fin NPROC) (f : Fin NFILE) : M (Option (Fin NOFILE)) := do
  let s ← read
  match (finRange NOFILE).find? fun fd =>
      decide ((s.proc p).ofile fd = none) with
  | none => return none
  | some fd => do
      update fun s => s.setProc p fun proc =>
        { proc with ofile := Function.update proc.ofile fd (some f) }
      return some fd

/-! ## System calls -/

/-- A string that `argstr` accepts as a path. -/
structure Path where
  bytes : List Byte
  nonzero : ∀ b ∈ bytes, b ≠ 0
  length_lt : bytes.length < MAXPATH

/-- `isdirempty` after its loop has reached the given offsets. -/
def isdiremptyLoop (dp : ℕ) : List ℕ → M Bool
  | [] => return true
  | off :: offs => do
      let de ← readDirent sb dp off .isdiremptyReadi
      if de.inum ≠ 0 then return false else isdiremptyLoop dp offs

def isdirempty (dp : ℕ) : M Bool := do
  let s ← read
  isdiremptyLoop sb dp ((offsets (s.fs.icache dp).size.toNat).drop 2)

/-- The part of `create` for a directory: count the link from `..`, and make the
entries `.` and `..`. -/
def createDots (dp ip : ℕ) : M Unit := do
  assign sb dp fun ip => { ip with nlink := ip.nlink + 1 }
  let r ← dirlink sb ip (literal dot) ip
  if r < 0 then
    fail .createDots
  else do
    let r ← dirlink sb ip (literal dotdot) dp
    if r < 0 then fail .createDots else return ()

/-- The part of `create` that makes a new inode with an entry in `dp`. -/
def createNew (dp : ℕ) (name : NameBuffer) (type major minor : Short) : M ℕ := do
  let ip ← ialloc sb type
  ilock sb ip
  assign sb ip fun ip => { ip with major := major, minor := minor, nlink := 1 }
  (if type = T_DIR then createDots sb dp ip else pure ())
  let r ← dirlink sb dp (peek name) ip
  if r < 0 then
    fail .createDirlink
  else do
    iunlockput sb dp
    return ip

/-- `create`.  Since `ialloc` does not return without an inode, its panic
`create: ialloc` cannot happen. -/
def create (cwd : ℕ) (path : List Byte) (type major minor : Short) :
    M (Option ℕ) := do
  match ← nameiparent sb cwd path with
  | none => return none
  | some (dp, name) => do
      ilock sb dp
      match ← dirlookup sb dp (peek name) with
      | some (ip, _) => do
          iunlockput sb dp
          ilock sb ip
          let s ← read
          if type = T_FILE ∧ ((s.fs.icache ip).type = T_FILE ∨
              (s.fs.icache ip).type = T_DEVICE) then
            return some ip
          else do
            iunlockput sb ip
            return none
      | none => do
          let ip ← createNew sb dp name type major minor
          return some ip

/-- The part of `sys_open` that finds or makes the inode. -/
def openInode (cwd : ℕ) (path : List Byte) (omode : BitVec 32) :
    M (Option ℕ) :=
  if omode &&& O_CREATE ≠ 0 then
    create sb cwd path T_FILE 0 0
  else do
    match ← namei sb cwd path with
    | none => return none
    | some ip => do
        ilock sb ip
        let s ← read
        if (s.fs.icache ip).type = T_DIR ∧ omode ≠ O_RDONLY then
          iunlockput sb ip
          return none
        else
          return some ip

/-- The assignments of `sys_open` to a new open file. -/
def OpenFile.opened (file : OpenFile) (ip : ℕ) (type major : Short)
    (omode : BitVec 32) : OpenFile :=
  let file :=
    if type = T_DEVICE then { file with type := .device, major := major }
    else { file with type := .inode, off := 0 }
  { file with
    ip := ip
    readable := decide (omode &&& O_WRONLY = 0)
    writable := decide (omode &&& O_WRONLY ≠ 0 ∨ omode &&& O_RDWR ≠ 0) }

/-- The part of `sys_open` after `ip` has been found. -/
def openFile (p : Fin NPROC) (ip : ℕ) (omode : BitVec 32) : M ℤ := do
  let s ← read
  let type := (s.fs.icache ip).type
  let major := (s.fs.icache ip).major
  if type = T_DEVICE ∧ (major.toInt < 0 ∨ major.toInt ≥ NDEV) then
    iunlockput sb ip
    return -1
  else do
    match ← filealloc with
    | none => do
        iunlockput sb ip
        return -1
    | some f => do
        match ← fdalloc p f with
        | none => do
            fileclose sb f
            iunlockput sb ip
            return -1
        | some fd => do
            update fun s => s.setFile f fun file => file.opened ip type major omode
            if omode &&& O_TRUNC ≠ 0 ∧ type = T_FILE then
              itrunc sb ip
              return fd.val
            else
              return fd.val

def sysOpen (p : Fin NPROC) (cwd : ℕ) (path : Option Path) (omode : BitVec 32) : M ℤ :=
  match path with
  | none => return -1
  | some path => do
      match ← openInode sb cwd path.bytes omode with
      | none => return -1
      | some ip => openFile sb p ip omode

/-- `sys_mkdir` and `sys_mknod`. -/
def sysCreate (cwd : ℕ) (path : Option Path) (type major minor : Short) : M ℤ := match path with
  | none => return -1
  | some path => do
      match ← create sb cwd path.bytes type major minor with
      | none => return -1
      | some ip => do
          iunlockput sb ip
          return 0

def sysMkdir (cwd : ℕ) (path : Option Path) : M ℤ := sysCreate sb cwd path T_DIR 0 0

/-- `sys_mknod`, whose two `int` arguments are passed as `short`. -/
def sysMknod (cwd : ℕ) (path : Option Path) (major minor : BitVec 32) : M ℤ :=
  sysCreate sb cwd path T_DEVICE (major.setWidth 16) (minor.setWidth 16)

/-- The label `bad` of `sys_link`. -/
def linkBad (ip : ℕ) : M ℤ := do
  ilock sb ip
  assign sb ip fun ip => { ip with nlink := ip.nlink - 1 }
  iunlockput sb ip
  return -1

/-- The part of `sys_link` that makes the new entry.  There is one device, so
`dp->dev != ip->dev` does not hold. -/
def linkNew (cwd ip : ℕ) (new : List Byte) : M ℤ := do
  match ← nameiparent sb cwd new with
  | none => linkBad sb ip
  | some (dp, name) => do
      ilock sb dp
      let r ← dirlink sb dp (peek name) ip
      if r < 0 then
        iunlockput sb dp
        linkBad sb ip
      else do
        iunlockput sb dp
        iput sb ip
        return 0

def sysLink (cwd : ℕ) (old new : Option Path) : M ℤ :=
  match old, new with
  | some old, some new => do
      match ← namei sb cwd old.bytes with
      | none => return -1
      | some ip => do
          ilock sb ip
          let s ← read
          if (s.fs.icache ip).type = T_DIR then
            iunlockput sb ip
            return -1
          else do
            assign sb ip fun ip => { ip with nlink := ip.nlink + 1 }
            linkNew sb cwd ip new.bytes
  | _, _ => return -1

/-- The part of `sys_unlink` that removes the entry of `ip` at offset `off` of
`dp`. -/
def unlinkEntry (dp ip off : ℕ) (isdir : Bool) : M ℤ := do
  let r ← writei sb dp false freshMemory 0 off direntSize
  if r ≠ direntSize then
    fail .unlinkWritei
  else do
    (if isdir then assign sb dp fun ip => { ip with nlink := ip.nlink - 1 } else pure ())
    iunlockput sb dp
    assign sb ip fun ip => { ip with nlink := ip.nlink - 1 }
    iunlockput sb ip
    return 0

def sysUnlink (cwd : ℕ) (path : Option Path) : M ℤ :=
  match path with
  | none => return -1
  | some path => do
      match ← nameiparent sb cwd path.bytes with
      | none => return -1
      | some (dp, name) => do
          ilock sb dp
          -- Cannot unlink "." or "..".
          if namecmp (peek name) (literal dot) = 0 ∨
              namecmp (peek name) (literal dotdot) = 0 then
            iunlockput sb dp
            return -1
          else
            match ← dirlookup sb dp (peek name) with
            | none => do
                iunlockput sb dp
                return -1
            | some (ip, off) => do
                ilock sb ip
                let s ← read
                if (s.fs.icache ip).nlink.toInt < 1 then
                  fail .unlinkNlink
                else if (s.fs.icache ip).type = T_DIR then do
                  let empty ← isdirempty sb ip
                  if empty then unlinkEntry sb dp ip off true
                  else do
                    iunlockput sb ip
                    iunlockput sb dp
                    return -1
                else
                  unlinkEntry sb dp ip off false

def sysChdir (p : Fin NPROC) (cwd : ℕ) (path : Option Path) : M ℤ :=
  match path with
  | none => return -1
  | some path => do
      match ← namei sb cwd path.bytes with
      | none => return -1
      | some ip => do
          ilock sb ip
          let s ← read
          if (s.fs.icache ip).type ≠ T_DIR then
            iunlockput sb ip
            return -1
          else do
            iput sb cwd
            update fun s => s.setProc p fun proc => { proc with cwd := some ip }
            return 0

def clearFd (p : Fin NPROC) (fd : Fin NOFILE) : M Unit := update fun s => s.setProc p fun proc =>
    { proc with ofile := Function.update proc.ofile fd none }

def sysClose (p : Fin NPROC) (fd : BitVec 32) : M ℤ := do
  match ← argfd p fd with
  | none => return -1
  | some (fd, f) => do
      clearFd p fd
      fileclose sb f
      return 0

def sysRead (p : Fin NPROC) (fd : BitVec 32) (mem : Memory) (addr : ℕ)
    (n : BitVec 32) (other : ℤ) : M ℤ := do
  match ← argfd p fd with
  | none => return -1
  | some (_, f) => do
      let r ← fileread sb f mem addr n other
      return r.1

def sysWrite (p : Fin NPROC) (fd : BitVec 32) (mem : Memory) (addr : ℕ)
    (n : BitVec 32) (other : ℤ) : M ℤ := do
  match ← argfd p fd with
  | none => return -1
  | some (_, f) => filewrite sb f mem addr n other

/-- The body of the loop of `exit` that closes all open files. -/
def exitClose (p : Fin NPROC) (fd : Fin NOFILE) : M Unit := do
  let s ← read
  match (s.proc p).ofile fd with
  | none => return ()
  | some f => do
      fileclose sb f
      clearFd p fd

/-- The part of `exit` about files. -/
def exit (p : Fin NPROC) (cwd : ℕ) : M Unit := do
  (finRange NOFILE).forM (exitClose sb p)
  iput sb cwd
  update fun s => s.setProc p fun proc => { proc with cwd := none }

/-! ## Processes making calls -/

inductive Call where
  | open (path : Option Path) (omode : BitVec 32)
  | mkdir (path : Option Path)
  | mknod (path : Option Path) (major minor : BitVec 32)
  | link (old new : Option Path)
  | unlink (path : Option Path)
  | chdir (path : Option Path)
  | close (fd : BitVec 32)
  | read (fd : BitVec 32) (mem : Memory) (addr : ℕ) (n : BitVec 32) (other : ℤ)
  | write (fd : BitVec 32) (mem : Memory) (addr : ℕ) (n : BitVec 32) (other : ℤ)
  | exit

/-- The call of process `p`, whose current directory is `cwd`. -/
def Call.run (p : Fin NPROC) (cwd : ℕ) : Call → M ℤ
  | .open path omode => sysOpen sb p cwd path omode
  | .mkdir path => sysMkdir sb cwd path
  | .mknod path major minor => sysMknod sb cwd path major minor
  | .link old new => sysLink sb cwd old new
  | .unlink path => sysUnlink sb cwd path
  | .chdir path => sysChdir sb p cwd path
  | .close fd => sysClose sb p fd
  | .read fd mem addr n other => sysRead sb p fd mem addr n other
  | .write fd mem addr n other => sysWrite sb p fd mem addr n other
  | .exit => do
      Sysfile.exit sb p cwd
      return 0

/-- One call of one process.  A process that has exited makes no call; a panic
stops the system. -/
def step (s : State) (e : Fin NPROC × Call) : Option State :=
  match (s.proc e.1).cwd with
  | none => none
  | some cwd =>
    match e.2.run sb e.1 cwd s with
    | .ok (_, t) => some t
    | .error _ => none

end Commands

end OsCa.Sysfile
