import OsCa.Kernel.Sysfile.Directories

/-!
# Path resolution

What `namex` returns for a path, in terms of the components of the path, and what it does to
references and locks.  `Sysfile.namex` leaves the locks of inodes out, so this module has a
second version, which also keeps the list of the inodes that the process has locked and in
which a process that locks an inode twice waits for itself.
-/

namespace OsCa.Sysfile

open Bytes Fs OsCa.Action List

/-! ## Components -/

/-- A command of a process that has inodes locked.  The error `none` says that it waits for
itself. -/
abbrev LockM := Action (Option Panic) (State × List ℕ)

namespace LockM

variable {α β : Type} (sb : Superblock)

/-- A command without locks. -/
def lift (x : M α) : LockM α := zoom Prod.fst (fun t s => (t, s.2)) some x

def ilock (ip : ℕ) : LockM Unit := do
  let s ← read
  if ip ∈ s.2 then
    fail none
  else do
    lift (Sysfile.ilock sb ip)
    update fun s => (s.1, ip :: s.2)

def iunlock (ip : ℕ) : LockM Unit := update fun s => (s.1, s.2.erase ip)

def iunlockput (ip : ℕ) : LockM Unit := do
  iunlock ip
  lift (iput sb ip)

/-- The loop of `namex`. -/
def namexLoop (nameiparent : Bool) (ip : ℕ) (path : List Byte) (name : NameBuffer) :
    LockM (Option (ℕ × NameBuffer)) :=
  match _h : skipelem path name with
  | some (path', name') => do
      ilock sb ip
      let s ← read
      if (s.1.fs.icache ip).type ≠ T_DIR then
        iunlockput sb ip
        return none
      else if nameiparent = true ∧ path' = [] then
        -- Stop one level early.
        iunlock ip
        return some (ip, name')
      else
        match ← lift (dirlookup sb ip (peek name')) with
        | none => do
            iunlockput sb ip
            return none
        | some (next, _) => do
            iunlockput sb ip
            namexLoop nameiparent next path' name'
  | none =>
    if nameiparent then do
      lift (iput sb ip)
      return none
    else
      return some (ip, name)
termination_by path.length
decreasing_by exact length_of_skipelem _h

def namex (cwd : ℕ) (path : List Byte) (nameiparent : Bool) :
    LockM (Option (ℕ × NameBuffer)) :=
  if path.head? = some slash then do
    lift (iget ROOTINO)
    namexLoop sb nameiparent ROOTINO path fun _ => 0
  else do
    lift (idup cwd)
    namexLoop sb nameiparent cwd path fun _ => 0

/-- With `L` locked, `y` does what `x` does, and `L'` is locked at the end. -/
structure Tracks (L : List ℕ) (y : LockM α) (x : M α) (L' : List ℕ) : Prop where
  ok : ∀ s a t, x s = .ok (a, t) → y (s, L) = .ok (a, t, L')
  error : ∀ s e, x s = .error e → y (s, L) = .error (some e)

variable {sb} {L L' L'' : List ℕ} {x : M α} {y : LockM α}

namespace Tracks

theorem lift (x : M α) : Tracks L (lift x) x L :=
  ⟨fun s a t h => by rw [LockM.lift, zoom, h], fun s e h => by rw [LockM.lift, zoom, h]⟩

theorem bind {g : α → LockM β} {f : α → M β} (h : Tracks L y x L')
    (hf : ∀ a, Tracks L' (g a) (f a) L'') : Tracks L (y >>= g) (x >>= f) L'' := by
  constructor
  · intro s b u hrun
    cases hx : x s with
    | ok r =>
      rw [bind_of_ok hx] at hrun
      rw [bind_of_ok (h.ok s _ _ hx)]
      exact (hf r.1).ok r.2 b u hrun
    | error e =>
      rw [bind_of_error hx] at hrun
      cases hrun
  · intro s e hrun
    cases hx : x s with
    | ok r =>
      rw [bind_of_ok hx] at hrun
      rw [bind_of_ok (h.ok s _ _ hx)]
      exact (hf r.1).error r.2 e hrun
    | error e' =>
      rw [bind_of_error hx] at hrun
      rw [bind_of_error (h.error s e' hx), ← Except.error.inj hrun]

theorem pure (a : α) : Tracks L (pure a) (pure a) L :=
  ⟨fun s _ _ h => by cases h; rfl, fun s e h => by cases h⟩

/-- `iunlock` has no counterpart. -/
theorem iunlock (ip : ℕ) (h : Tracks [] y x L') : Tracks [ip] (iunlock ip >>= fun _ => y) x L' := by
  have hstep : ∀ s, (LockM.iunlock ip >>= fun _ => y) (s, [ip]) = y (s, []) := fun s => by
    rw [bind_of_ok (x := LockM.iunlock ip) (a := ()) (t := (s, [ip].erase ip)) rfl, erase_cons_head]
  exact ⟨fun s a t hx => (hstep s).trans (h.ok s a t hx),
    fun s e hx => (hstep s).trans (h.error s e hx)⟩

theorem ilock (ip : ℕ) : Tracks [] (ilock sb ip) (Sysfile.ilock sb ip) [ip] := by
  have hlock : ∀ s, LockM.ilock sb ip (s, []) = (LockM.lift (Sysfile.ilock sb ip) >>= fun _ =>
      update fun s => (s.1, ip :: s.2)) (s, []) := fun s => by
    rw [LockM.ilock, bind_of_ok (x := read) rfl, if_neg not_mem_nil]
  refine ⟨fun s a t h => ?_, fun s e h => ?_⟩
  · rw [hlock, bind_of_ok ((lift _).ok s a t h)]
    rfl
  · rw [hlock, bind_of_error ((lift _).error s e h)]

theorem iunlockput (ip : ℕ) : Tracks [ip] (iunlockput sb ip) (Sysfile.iunlockput sb ip) [] :=
  iunlock ip (lift _)

end Tracks

end LockM

/-! ## What a path names -/

variable {sb : Superblock} {s : State} {v : View} {cwd : ℕ} {path : List Byte}

end OsCa.Sysfile
