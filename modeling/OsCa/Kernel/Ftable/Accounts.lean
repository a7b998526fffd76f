import Mathlib.Algebra.Order.BigOperators.Group.Finset
import OsCa.Kernel.Ftable.Model

/-!
# Reference counts of open files

Two accounts are kept by every step.  The count of an entry is the number of references
to it, in descriptors and in calls that are under way.  Every inode reference and pipe
end that was ever opened is at one place: in an entry of the table, with a process that
is about to release it, or among those released.

`dup` and `close` change a descriptor and the count one after the other, so
`Balanced s lent due` allows that references are `lent`, which the count lacks, or `due`,
which are in the count only.
-/

namespace OsCa.Ftable

open Function List Finset

open Sysfile (NFILE NOFILE NPROC)

/-! ## Totals -/

section Totals

variable {s : State} {p : Fin NPROC} {f : Fin NFILE}

def State.refs (s : State) (f : Fin NFILE) : ℕ := ∑ p, (s.proc p).refs f

def State.puts (s : State) (k : ℕ) : ℕ := ∑ p, (s.proc p).puts k

def State.owners (s : State) (k : ℕ) : ℕ := ∑ f, if (s.file f).Has k then 1 else 0

theorem sum_setProc (g : Proc → ℕ) (s : State) (p : Fin NPROC) (x : Proc) :
    ∑ q, g ((setProc s p x).proc q) + g (s.proc p) = ∑ q, g (s.proc q) + g x := by
  have hsum := Counting.sum_change (f := fun q => g ((setProc s p x).proc q))
    (g := fun q => g (s.proc q)) (mem_univ p) fun q _ hq => by simp only [setProc, update_of_ne hq]
  simpa only [setProc, update_self] using hsum

theorem refs_setProc (s : State) (p : Fin NPROC) (x : Proc) (f : Fin NFILE) :
    (setProc s p x).refs f + (s.proc p).refs f = s.refs f + x.refs f :=
  sum_setProc (·.refs f) s p x

theorem puts_setProc (s : State) (p : Fin NPROC) (x : Proc) (k : ℕ) :
    (setProc s p x).puts k + (s.proc p).puts k = s.puts k + x.puts k :=
  sum_setProc (·.puts k) s p x

theorem owners_setFile (s : State) (f : Fin NFILE) (x : File) (k : ℕ) :
    (setFile s f x).owners k + (if (s.file f).Has k then 1 else 0) =
      s.owners k + if x.Has k then 1 else 0 := by
  have hsum := Counting.sum_change (f := fun g => if ((setFile s f x).file g).Has k then 1 else 0)
    (g := fun g => if (s.file g).Has k then 1 else 0) (mem_univ f) fun g _ hg => by
      simp only [setFile, update_of_ne hg]
  simpa only [State.owners, setFile, update_self] using hsum

theorem refs_le (s : State) (p : Fin NPROC) (f : Fin NFILE) : (s.proc p).refs f ≤ s.refs f :=
  single_le_sum (f := fun q => (s.proc q).refs f) (fun _ _ => Nat.zero_le _) (mem_univ p)

theorem refs_add_le {q : Fin NPROC} (s : State) (hpq : p ≠ q) (f : Fin NFILE) :
    (s.proc p).refs f + (s.proc q).refs f ≤ s.refs f := by
  have hpair : ∑ r ∈ {p, q}, (s.proc r).refs f ≤ s.refs f := sum_le_sum_of_subset (subset_univ _)
  rwa [sum_pair hpq] at hpair

/-- A descriptor that is overwritten. -/
theorem slots_update (x : Proc) (fd : Fin NOFILE) (o : Option (Fin NFILE)) (f : Fin NFILE) :
    ({ x with ofile := update x.ofile fd o } : Proc).slots f +
        (if x.ofile fd = some f then 1 else 0) =
      x.slots f + if o = some f then 1 else 0 :=
  Counting.card_filter_update x.ofile fd o (· = some f)

theorem slots_pos {x : Proc} {fd : Fin NOFILE} (h : x.ofile fd = some f) : 0 < x.slots f :=
  card_pos.mpr ⟨fd, mem_filter.mpr ⟨mem_univ fd, h⟩⟩

theorem slots_eq_zero {x : Proc} (h : ∀ fd, x.ofile fd = none) : x.slots f = 0 := by
  refine card_eq_zero.mpr (filter_eq_empty_iff.mpr fun fd _ => ?_)
  rw [h fd]
  exact nofun

end Totals

theorem lt_succ_indicator (k n : ℕ) :
    (if k < n + 1 then 1 else 0) = (if k < n then 1 else 0) + if n = k then 1 else 0 := by
  split_ifs <;> omega

/-! ## Allocation -/

theorem ref_of_filealloc {s : State} {f : Fin NFILE} (h : filealloc s = some f) :
    (s.file f).ref = 0 := by
  have hfind := find?_some h
  exact of_decide_eq_true hfind

theorem none_of_fdalloc {ofile : Fin NOFILE → Option (Fin NFILE)} {fd : Fin NOFILE}
    (h : fdalloc ofile = some fd) : ofile fd = none := by
  have hfind := find?_some h
  exact Option.isNone_iff_eq_none.mp hfind

theorem ofile_of_argfd {x : Proc} {fd : BitVec 32} {i : Fin NOFILE} {f : Fin NFILE}
    (h : argfd x fd = some (i, f)) : x.ofile i = some f := by
  unfold argfd at h
  split at h
  · obtain ⟨g, hg, heq⟩ := Option.map_eq_some_iff.mp h
    cases heq
    exact hg
  · cases h

/-! ## The end of `fileclose` -/

theorem File.count_close (x : File) (l : List Job) (g : Fin NFILE) :
    (x.close ++ l).count (.fileclose g) = l.count (.fileclose g) := by
  unfold File.close
  cases x.type with
  | none => rfl
  | pipe => exact count_cons_of_ne (by simp)
  | inode => exact count_cons_of_ne (by simp)
  | device => exact count_cons_of_ne (by simp)

theorem File.puts_close (x : File) (l : List Job) (k : ℕ) : (x.close ++ l).countP (Job.releases k) =
      (if x.Has k then 1 else 0) + l.countP (Job.releases k) := by
  rw [countP_append]
  congr 1
  unfold File.close
  cases htype : x.type with
  | none => simp [File.Has, htype]
  | pipe => simp [File.Has, htype, countP_cons, Job.releases]
  | inode => simp [File.Has, htype, countP_cons, Job.releases]
  | device => simp [File.Has, htype, countP_cons, Job.releases]

/-! ## References of one process -/

/-- One reference to `f`. -/
def one (f : Fin NFILE) : Fin NFILE → ℕ := fun g => if g = f then 1 else 0

section Process

variable {x : Proc} {fd : Fin NOFILE} {f : Fin NFILE}

theorem refs_install (h : x.ofile fd = none) (g : Fin NFILE) :
    ({ x with ofile := update x.ofile fd (some f) } : Proc).refs g = x.refs g + one f g := by
  have hslots := slots_update x fd (some f) g
  simp only [h, reduceCtorEq, if_false, Option.some.injEq] at hslots
  simp only [Proc.refs, one, @eq_comm _ g f]
  omega

theorem refs_clear (h : x.ofile fd = some f) (g : Fin NFILE) :
    ({ x with ofile := update x.ofile fd none } : Proc).refs g + one f g = x.refs g := by
  have hslots := slots_update x fd none g
  simp only [h, reduceCtorEq, if_false, Option.some.injEq] at hslots
  simp only [Proc.refs, one, @eq_comm _ g f]
  omega

theorem refs_pipealloc (h : x.pc = .user) (g : Fin NFILE) :
    ({ x with pc := .pipealloc f } : Proc).refs g = x.refs g + one f g := by
  have hslots : ({ x with pc := .pipealloc f } : Proc).slots g = x.slots g := rfl
  simp only [Proc.refs, hslots, h, Pc.refs, one, @eq_comm _ g f]
  omega

/-- The reference in the hands of `pipealloc` becomes one that is to be closed, or is in
a descriptor already. -/
theorem refs_of_pipealloc (h : x.pc = .pipealloc f) (htodo : x.todo = [])
    (g : Fin NFILE) : x.refs g = x.slots g + one f g := by
  simp only [Proc.refs, h, Pc.refs, htodo, count_nil, one, @eq_comm _ g f]
  rfl

theorem refs_of_todo_one (g : Fin NFILE) :
    ({ x with pc := .user, todo := [.fileclose f] } : Proc).refs g = x.slots g + one f g := by
  have hslots : ({ x with pc := .user, todo := [.fileclose f] } : Proc).slots g = x.slots g := rfl
  simp [Proc.refs, hslots, Pc.refs, one, count_cons, @eq_comm _ g f]

theorem refs_of_todo_two (f' g : Fin NFILE) :
    ({ x with pc := .user, todo := [.fileclose f, .fileclose f'] } : Proc).refs g =
      x.slots g + one f g + one f' g := by
  have hslots : ({ x with pc := .user, todo := [.fileclose f, .fileclose f'] } :
      Proc).slots g = x.slots g := rfl
  simp [Proc.refs, hslots, Pc.refs, one, count_cons, @eq_comm _ g f, @eq_comm _ g f']
  omega

theorem slots_pipeFds {ofile : Fin NOFILE → Option (Fin NFILE)} {rf wf : Fin NFILE}
    {copyout : Bool} (h : pipeFds x.ofile rf wf copyout = some ofile) (g : Fin NFILE) :
    ({ x with pc := .user, ofile := ofile } : Proc).slots g = x.slots g + one rf g + one wf g := by
  unfold pipeFds at h
  split at h
  · cases h
  next fd0 h0 =>
    split at h
    · cases h
    next fd1 h1 =>
      split at h
      · cases h
        have hread := slots_update x fd0 (some rf) g
        have hwrite := slots_update { x with
          ofile := update x.ofile fd0 (some rf) } fd1 (some wf) g
        simp only [none_of_fdalloc h0, none_of_fdalloc h1, reduceCtorEq, if_false,
          Option.some.injEq] at hread hwrite
        simp only [one, @eq_comm _ g rf, @eq_comm _ g wf]
        rw [← hread]
        exact hwrite
      · cases h

theorem refs_pos (h : x.ofile fd = some f) : 0 < x.refs f := by
  have hslots := slots_pos h
  simp only [Proc.refs]
  omega

end Process

/-! ## The accounts -/

structure Balanced (s : State) (lent due : Fin NFILE → ℕ) : Prop where
  count : ∀ f, (s.file f).ref + lent f = s.refs f + due f
  vacant : ∀ f, (s.file f).ref = 0 → (s.file f).type = .none
  kept : ∀ k, s.owners k + s.puts k + s.released.count k = if k < s.opened then 1 else 0
  panic : s.panic = none

namespace Balanced

variable {s : State} {p : Fin NPROC} {f : Fin NFILE} {x : Proc}
variable {lent due lent' due' : Fin NFILE → ℕ}

theorem setProc (h : Balanced s lent due)
    (hrefs : ∀ f, lent' f + (s.proc p).refs f + due f = lent f + x.refs f + due' f)
    (hputs : ∀ k, x.puts k = (s.proc p).puts k) :
    Balanced (setProc s p x) lent' due' where
  count := by
    intro f
    have hcount := h.count f
    have htotal := refs_setProc s p x f
    have hf := hrefs f
    change (s.file f).ref + lent' f = _
    omega
  vacant := h.vacant
  kept := by
    intro k
    have hkept := h.kept k
    have htotal := puts_setProc s p x k
    rw [hputs k] at htotal
    rw [Nat.add_right_cancel htotal]
    exact hkept
  panic := h.panic

/-- The last reference to `f` is given up, and `p` is left with the release. -/
theorem closeLast (h : Balanced s 0 (one f)) (hf : (s.file f).ref = 1) :
    Balanced (Ftable.setProc (setFile s f { s.file f with ref := 0, type := .none }) p
      { s.proc p with todo := (s.file f).close ++ (s.proc p).todo }) 0 0 where
  count := by
    intro g
    have hcount := h.count g
    have htotal := refs_setProc (setFile s f { s.file f with ref := 0, type := .none }) p
      { s.proc p with todo := (s.file f).close ++ (s.proc p).todo } g
    have hproc : ({ s.proc p with todo := (s.file f).close ++ (s.proc p).todo } :
        Proc).refs g = (s.proc p).refs g := by
      simp only [Proc.refs, Proc.slots, File.count_close]
    rw [hproc] at htotal
    rw [Nat.add_right_cancel htotal]
    change (update s.file f _ g).ref + 0 = s.refs g + 0
    by_cases hg : g = f
    · subst hg
      simp only [one, if_true] at hcount
      simp only [update_self]
      change (s.file g).ref + 0 = _ at hcount
      omega
    · rw [update_of_ne hg]
      simpa [one, hg] using hcount
  vacant := by
    intro g hg
    change (update s.file f _ g).type = _
    change (update s.file f _ g).ref = _ at hg
    by_cases hgf : g = f
    · subst hgf
      rw [update_self]
    · rw [update_of_ne hgf] at hg ⊢
      exact h.vacant g hg
  kept := by
    intro k
    have hkept := h.kept k
    have howners := owners_setFile s f { s.file f with ref := 0, type := .none } k
    have htotal := puts_setProc (setFile s f { s.file f with ref := 0, type := .none }) p
      { s.proc p with todo := (s.file f).close ++ (s.proc p).todo } k
    have hproc : ({ s.proc p with todo := (s.file f).close ++ (s.proc p).todo } :
        Proc).puts k = (if (s.file f).Has k then 1 else 0) + (s.proc p).puts k :=
      File.puts_close _ _ _
    have hgone : ¬ ({ s.file f with ref := 0, type := .none } : File).Has k :=
      fun hhas => hhas.1 rfl
    rw [if_neg hgone] at howners
    rw [hproc] at htotal
    change _ + (s.proc p).puts k = s.puts k + _ at htotal
    change (setFile s f { s.file f with ref := 0, type := .none }).owners k + _ +
      s.released.count k = if k < s.opened then 1 else 0
    omega
  panic := h.panic

/-- An entry whose count, but not its contents, changes. -/
theorem setRef (h : Balanced s lent due) {n : ℕ} (hn : 0 < n)
    (hcount : ∀ g, (if g = f then n else (s.file g).ref) + lent' g = s.refs g + due' g) :
    Balanced (setFile s f { s.file f with ref := n }) lent' due' where
  count := by
    intro g
    rw [← show s.refs g = (setFile s f { s.file f with ref := n }).refs g from rfl, ← hcount g]
    by_cases hg : g = f
    · subst hg
      simp [setFile]
    · simp [setFile, hg]
  vacant := by
    intro g hg
    by_cases hgf : g = f
    · subst hgf
      simp [setFile] at hg
      omega
    · simp only [setFile, update_of_ne hgf] at hg ⊢
      exact h.vacant g hg
  kept := by
    intro k
    have howners : (setFile s f { s.file f with ref := n }).owners k = s.owners k := by
      have hsum := owners_setFile s f { s.file f with ref := n } k
      exact Nat.add_right_cancel hsum
    rw [howners]
    exact h.kept k
  panic := h.panic

theorem filedup (h : Balanced s (one f) 0) (hpos : 0 < (s.file f).ref) :
    Balanced (filedup s f) 0 0 := by
  unfold Ftable.filedup
  rw [if_neg (by omega)]
  refine h.setRef (Nat.succ_pos _) fun g => ?_
  have hcount := h.count g
  by_cases hg : g = f
  · subst hg
    simpa [one] using hcount
  · simpa [one, hg] using hcount

/-- A reference that no process has any more is given up. -/
theorem fileclose (h : Balanced s 0 (one f)) : Balanced (fileclose s p f) 0 0 := by
  have hf : (s.file f).ref = s.refs f + 1 := by simpa [one] using h.count f
  unfold Ftable.fileclose
  rw [if_neg (by omega)]
  split
  next hlast =>
    refine h.setRef hlast fun g => ?_
    by_cases hg : g = f
    · subst hg
      simp [hf]
    · simpa [one, hg] using h.count g
  next hlast => exact h.closeLast (by omega)

/-- A step in which only `p` changes. -/
theorem change {t : State} (h : Balanced s 0 0) (hproc : t.proc = update s.proc p x)
    (hcount : ∀ g, (t.file g).ref + (s.proc p).refs g = (s.file g).ref + x.refs g)
    (hvacant : ∀ g, (t.file g).ref = 0 → (t.file g).type = .none)
    (hkept : ∀ k, t.owners k + x.puts k + t.released.count k + (if k < s.opened then 1 else 0) =
      s.owners k + (s.proc p).puts k + s.released.count k + if k < t.opened then 1 else 0)
    (hpanic : t.panic = s.panic) : Balanced t 0 0 where
  count := by
    intro g
    have hs : (s.file g).ref + 0 = s.refs g + 0 := h.count g
    have htotal := refs_setProc s p x g
    have ht : t.refs g = (Ftable.setProc s p x).refs g := by
      simp only [State.refs, Ftable.setProc, hproc]
    have hg := hcount g
    change (t.file g).ref + 0 = t.refs g + 0
    omega
  vacant := hvacant
  kept := by
    intro k
    have hs := h.kept k
    have htotal := puts_setProc s p x k
    have ht : t.puts k = (Ftable.setProc s p x).puts k := by
      simp only [State.puts, Ftable.setProc, hproc]
    have hk := hkept k
    omega
  panic := hpanic.trans h.panic

end Balanced

/-! ## What `filedup` and `fileclose` leave alone -/

section Frames

variable {s : State} {p : Fin NPROC} {f g : Fin NFILE}

theorem filedup_proc (s : State) (f : Fin NFILE) : (filedup s f).proc = s.proc := by
  unfold filedup
  split
  · rfl
  · rfl

theorem filedup_file_of_ne (hg : g ≠ f) : (filedup s f).file g = s.file g := by
  unfold filedup
  split
  · rfl
  · exact update_of_ne hg _ _

theorem fileclose_file_of_ne (hg : g ≠ f) : (fileclose s p f).file g = s.file g := by
  unfold fileclose
  split
  · rfl
  split
  · exact update_of_ne hg _ _
  · exact update_of_ne hg _ _

theorem fileclose_proc (s : State) (p : Fin NPROC) (x : Proc) (f : Fin NFILE) :
    ∃ l, (fileclose (setProc s p x) p f).proc = update s.proc p { x with todo := l } := by
  have hself : (setProc s p x).proc p = x := by simp [setProc]
  unfold fileclose
  split
  · exact ⟨x.todo, rfl⟩
  split
  · exact ⟨x.todo, rfl⟩
  · rw [hself]
    exact ⟨_, update_idem _ _ _⟩

end Frames

end OsCa.Ftable
