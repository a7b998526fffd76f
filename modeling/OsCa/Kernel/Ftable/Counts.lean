import OsCa.Kernel.Ftable.Accounts

/-!
# The counts of open files are exact

`Inv` holds in every reachable state: the accounts are balanced, and every process is
where its call has brought it.  A step changes one process, except in `fork`, which also
fills the slot of the child.
-/

namespace OsCa.Ftable

open Function Finset

open Sysfile (NFILE NOFILE NPROC)

variable {i : ℕ} {q np : Fin NPROC} {y : Proc} {g : Fin NFILE} {rest : List Job}

/-! ## The invariant -/

/-- A slot that `fork` is filling. -/
structure Embryo (x : Proc) (i : ℕ) : Prop where
  state : x.state = .embryo
  pc : x.pc = .user
  todo : x.todo = []
  free : ∀ fd : Fin NOFILE, i ≤ fd → x.ofile fd = none

theorem Embryo.mono {x : Proc} {j : ℕ} (h : Embryo x i) (hij : i ≤ j) : Embryo x j :=
  ⟨h.state, h.pc, h.todo, fun fd hfd => h.free fd (hij.trans hfd)⟩

theorem Embryo.install {x : Proc} {o : Option (Fin NFILE)} (h : Embryo x i) (hi : i < NOFILE) :
    Embryo { x with ofile := update x.ofile ⟨i, hi⟩ o } (i + 1) := by
  refine ⟨h.state, h.pc, h.todo, fun fd hfd => ?_⟩
  have hne : fd ≠ ⟨i, hi⟩ := by
    rintro rfl
    exact absurd hfd (Nat.not_succ_le_self i)
  exact (update_of_ne hne _ _).trans (h.free fd ((Nat.le_succ i).trans hfd))

theorem closed_succ {ofile : Fin NOFILE → Option (Fin NFILE)} (hi : i < NOFILE)
    (h : ∀ fd : Fin NOFILE, fd < i → ofile fd = none) (hnone : ofile ⟨i, hi⟩ = none)
    (fd : Fin NOFILE) (hfd : fd < i + 1) : ofile fd = none := by
  rcases Nat.lt_succ_iff_lt_or_eq.mp hfd with hlt | heq
  · exact h fd hlt
  · rw [← hnone]
    exact congrArg ofile (Fin.ext heq)

/-- A place where a process may be left with a `Job`. -/
def Pc.Plain : Pc → Prop
  | .user | .exit _ => True
  | .pipealloc _ | .fork _ _ => False

/-- What holds of a process by itself. -/
structure Sound (s : State) (x : Proc) : Prop where
  idle : x.state = .unused ∨ x.state = .zombie → x = idle x.state
  busy : x.todo ≠ [] → x.pc.Plain
  exit : ∀ i, x.pc = .exit i → ∀ fd : Fin NOFILE, fd < i → x.ofile fd = none
  fresh : ∀ f, x.pc = .pipealloc f → (s.file f).ref = 1 ∧ (s.file f).type = .none
  fork : ∀ np i, x.pc = .fork np i → Embryo (s.proc np) i

structure Inv (s : State) : Prop where
  books : Balanced s 0 0
  sound : ∀ p, Sound s (s.proc p)
  once : ∀ p q np i j, (s.proc p).pc = .fork np i → (s.proc q).pc = .fork np j → p = q

theorem Sound.of_plain {s : State} {x : Proc} (hstate : x.state = .running) (hpc : x.pc.Plain)
    (hexit : ∀ i, x.pc = .exit i → ∀ fd : Fin NOFILE, fd < i → x.ofile fd = none) :
    Sound s x where
  idle := by simp [hstate]
  busy := fun _ => hpc
  exit := hexit
  fresh := by
    intro f hf
    rw [hf] at hpc
    exact hpc.elim
  fork := by
    intro np i hf
    rw [hf] at hpc
    exact hpc.elim

theorem Sound.of_user {s : State} {x : Proc}
    (hstate : x.state ≠ .unused ∧ x.state ≠ .zombie) (hpc : x.pc = .user) : Sound s x where
  idle := by simp [hstate]
  busy := fun _ => by rw [hpc]; trivial
  exit := by simp [hpc]
  fresh := by simp [hpc]
  fork := by simp [hpc]

namespace Inv

variable {s t : State} {p : Fin NPROC} {f : Fin NFILE} {x : Proc}

theorem ref_eq (h : Inv s) (f : Fin NFILE) : (s.file f).ref = s.refs f := by
  simpa using h.books.count f

theorem ref_pos (h : Inv s) (hf : 0 < (s.proc p).refs f) : 0 < (s.file f).ref := by
  rw [h.ref_eq]
  exact hf.trans_le (refs_le s p f)

/-- The entry that `pipealloc` has got is known to no other process. -/
theorem refs_eq_zero (h : Inv s) (hq : (s.proc q).pc = .pipealloc f) (hpq : p ≠ q) :
    (s.proc p).refs f = 0 := by
  have hone := ((h.sound q).fresh f hq).1
  have hle := refs_add_le s hpq f
  have hqf : 1 ≤ (s.proc q).refs f := by
    simp only [Proc.refs, hq, Pc.refs, if_true]
    omega
  rw [h.ref_eq] at hone
  omega

/-- A step that changes some processes.  The others keep what they know: `pipealloc` has
the only reference to its entry, and `fork` the slot of the child. -/
theorem of_changed (changed : Fin NPROC → Prop) (h : Inv s) (hbooks : Balanced t 0 0)
    (hrest : ∀ q, ¬ changed q → t.proc q = s.proc q)
    (hsound : ∀ q, changed q → Sound t (t.proc q))
    (hfile : ∀ q f, ¬ changed q → (s.proc q).pc = .pipealloc f → t.file f = s.file f)
    (hslot : ∀ q np i, ¬ changed q → (s.proc q).pc = .fork np i → ¬ changed np)
    (honce : ∀ q r np i j, changed q → (t.proc q).pc = .fork np i →
      (t.proc r).pc = .fork np j → q = r) : Inv t := by
  refine ⟨hbooks, fun q => ?_, fun q r np i j hq hr => ?_⟩
  · by_cases hc : changed q
    · exact hsound q hc
    have hq := h.sound q
    rw [hrest q hc]
    refine ⟨hq.idle, hq.busy, hq.exit, fun f hf => ?_, fun np i hf => ?_⟩
    · rw [hfile q f hc hf]
      exact hq.fresh f hf
    · rw [hrest np (hslot q np i hc hf)]
      exact hq.fork np i hf
  · by_cases hcq : changed q
    · exact honce q r np i j hcq hq hr
    by_cases hcr : changed r
    · exact (honce r q np j i hcr hr hq).symm
    rw [hrest q hcq] at hq
    rw [hrest r hcr] at hr
    exact h.once q r np i j hq hr

section

variable (h : Inv s) (hp : (s.proc p).state = .running)

include h hp

/-- A running process is not the child of a `fork`. -/
theorem ne_of_fork (hq : (s.proc q).pc = .fork np i) : np ≠ p := by
  rintro rfl
  cases hp.symm.trans ((h.sound q).fork np i hq).state

/-- A step of a running process that changes no other process. -/
theorem act (hbooks : Balanced t 0 0) (hproc : t.proc = update s.proc p x)
    (hx : Sound t x) (hfork : ∀ np i, x.pc ≠ .fork np i)
    (hfile : ∀ f, (s.file f).ref = 1 → (s.proc p).refs f = 0 → t.file f = s.file f) :
    Inv t := by
  have hself : t.proc p = x := by rw [hproc, update_self]
  refine h.of_changed (· = p) hbooks (fun q hq => ?_) (fun q hq => ?_) (fun q f hq hf => ?_)
    (fun q np i _ hq => h.ne_of_fork hp hq) fun q r np i j hq hfq => ?_
  · rw [hproc, update_of_ne hq]
  · rwa [hq, hself]
  · exact hfile f ((h.sound q).fresh f hf).1 (h.refs_eq_zero hf (Ne.symm hq))
  · rw [hq, hself] at hfq
    exact absurd hfq (hfork np i)

/-! ## Steps that duplicate or give up a reference -/

/-- `p` has got a further reference to a file of its own, which is now counted. -/
theorem dup (hf : 0 < (s.proc p).refs f) (hrefs : ∀ g, x.refs g = (s.proc p).refs g + one f g)
    (hputs : ∀ k, x.puts k = (s.proc p).puts k) (hx : ∀ t, Sound t x)
    (hfork : ∀ np i, x.pc ≠ .fork np i) : Inv (filedup (setProc s p x) f) := by
  have hbooks : Balanced (setProc s p x) (one f) 0 :=
    h.books.setProc (fun g => by simp only [Pi.zero_apply, hrefs g]; omega) hputs
  refine h.act hp (hbooks.filedup (h.ref_pos hf)) (filedup_proc _ f) (hx _) hfork
    fun g _ hg => filedup_file_of_ne ?_
  rintro rfl
  omega

/-- `p` has one reference less, which is given up. -/
theorem close (hrefs : ∀ g, x.refs g + one f g = (s.proc p).refs g)
    (hputs : ∀ k, x.puts k = (s.proc p).puts k) (hstate : x.state = .running)
    (hpc : x.pc.Plain)
    (hexit : ∀ i, x.pc = .exit i → ∀ fd : Fin NOFILE, fd < i → x.ofile fd = none) :
    Inv (fileclose (setProc s p x) p f) := by
  have hbooks : Balanced (setProc s p x) 0 (one f) :=
    h.books.setProc (fun g => by simp only [Pi.zero_apply, ← hrefs g]; omega) hputs
  obtain ⟨l, hproc⟩ := fileclose_proc s p x f
  refine h.act hp hbooks.fileclose hproc (.of_plain hstate hpc hexit) (fun np i hf => ?_)
    fun g _ hg => fileclose_file_of_ne ?_
  · change x.pc = _ at hf
    rw [hf] at hpc
    exact hpc
  · rintro rfl
    have hone := hrefs g
    simp only [one, if_true] at hone
    omega

end

/-! ## The calls -/

section Calls

variable {fd : BitVec 32}

/-- A process in user space. -/
structure AtUser (x : Proc) : Prop where
  state : x.state = .running
  pc : x.pc = .user
  todo : x.todo = []

theorem AtUser.sound (hx : AtUser x) (hstate : y.state = x.state) (hpc : y.pc = x.pc) :
    Sound t y := by
  refine .of_plain (hstate.trans hx.state) ?_ fun i hi => ?_
  · rw [hpc, hx.pc]
    trivial
  · cases (hi.symm.trans hpc).trans hx.pc

theorem AtUser.not_fork (hx : AtUser x) (hpc : y.pc = x.pc) (np : Fin NPROC) (i : ℕ) :
    y.pc ≠ .fork np i := by
  rw [hpc, hx.pc]
  exact Pc.noConfusion

theorem sysDup (h : Inv s) (hp : AtUser (s.proc p)) : Inv (sysDup s p fd) := by
  unfold Ftable.sysDup
  split
  · exact h
  next hfd =>
    split
    · exact h
    next hfd' =>
      exact h.dup hp.state (refs_pos (ofile_of_argfd hfd))
        (refs_install (none_of_fdalloc hfd')) (fun _ => rfl)
        (fun _ => hp.sound rfl rfl) (hp.not_fork rfl)

theorem sysClose (h : Inv s) (hp : AtUser (s.proc p)) : Inv (sysClose s p fd) := by
  unfold Ftable.sysClose
  split
  · exact h
  next hfd =>
    refine h.close hp.state (refs_clear (ofile_of_argfd hfd)) (fun _ => rfl) hp.state ?_
      fun i hi => ?_
    · change (s.proc p).pc.Plain
      rw [hp.pc]
      trivial
    · cases hp.pc.symm.trans hi

/-- The entry from `filealloc` is not in use. -/
theorem not_has (h : Inv s) (hf : filealloc s = some f) (k : ℕ) : ¬ (s.file f).Has k :=
  fun hhas => hhas.1 (h.books.vacant f (ref_of_filealloc hf))

theorem ne_of_filealloc (hf : filealloc s = some f) (hg : (s.file g).ref = 1) : g ≠ f := by
  rintro rfl
  exact absurd (hg.symm.trans (ref_of_filealloc hf)) Nat.one_ne_zero

theorem puts_eq_zero (hp : (s.proc p).todo = []) (k : ℕ) : (s.proc p).puts k = 0 := by
  simp [Proc.puts, hp]

/-- A step that opens the numbers in `new` and has them in the table or to release. -/
theorem opens (new : ℕ → ℕ) (h : Inv s) (hp : (s.proc p).state = .running)
    (htodo : (s.proc p).todo = []) (hproc : t.proc = update s.proc p x)
    (hcount : ∀ g, (t.file g).ref + (s.proc p).refs g = (s.file g).ref + x.refs g)
    (hvacant : ∀ g, (t.file g).ref = 0 → (t.file g).type = .none)
    (howners : ∀ k, t.owners k + x.puts k = s.owners k + new k)
    (hopened : ∀ k, (if k < t.opened then 1 else 0) = (if k < s.opened then 1 else 0) + new k)
    (hreleased : t.released = s.released) (hpanic : t.panic = s.panic)
    (hstate : x.state = .running) (hpc : x.pc = .user)
    (hfile : ∀ f, (s.file f).ref = 1 → (s.proc p).refs f = 0 → t.file f = s.file f) :
    Inv t := by
  have hbooks : Balanced t 0 0 := by
    refine h.books.change hproc hcount hvacant (fun k => ?_) hpanic
    have hk := howners k
    rw [hreleased, hopened k, puts_eq_zero htodo k]
    omega
  refine h.act hp hbooks hproc (.of_plain hstate ?_ fun i hi => ?_) (fun np i hi => ?_) hfile
  · rw [hpc]
    trivial
  · cases hpc.symm.trans hi
  · cases hpc.symm.trans hi

/-- The new references are in `new` and the rest of the table is as before. -/
theorem count_setFile {y : File} (hf : (s.file f).ref = 0) (hy : y.ref = 1) :
    ((setFile s f y).file g).ref = (s.file g).ref + one f g := by
  by_cases hg : g = f
  · subst hg
    simp [setFile, one, hf, hy]
  · simp [setFile, one, hg]

section

variable (h : Inv s)

include h

theorem vacant_setFile {y : File} (hy : y.ref = 1) (g : Fin NFILE)
    (hg : ((setFile s f y).file g).ref = 0) :
    ((setFile s f y).file g).type = .none := by
  by_cases hgf : g = f
  · subst hgf
    simp [setFile, hy] at hg
  · simp only [setFile, update_of_ne hgf] at hg ⊢
    exact h.books.vacant g hg

/-- The entry from `filealloc` is filled, and `p` refers to it. -/
theorem takes {y : File} (hp : AtUser (s.proc p)) (hf : filealloc s = some f)
    (hy : y.ref = 1) (hrefs : ∀ g, x.refs g = (s.proc p).refs g + one f g)
    (hnew : ∀ k, (if y.Has k then 1 else 0) + x.puts k = if s.opened = k then 1 else 0)
    (hstate : x.state = .running) (hpc : x.pc = .user) :
    Inv (setProc (setFile { s with opened := s.opened + 1 } f y) p x) := by
  refine h.opens (fun k => if s.opened = k then 1 else 0) hp.state hp.todo rfl
    (fun g => ?_) (h.vacant_setFile hy) (fun k => ?_)
    (fun k => lt_succ_indicator k s.opened) rfl rfl hstate hpc
    fun g hg _ => update_of_ne (ne_of_filealloc hf hg) _ _
  · have hg := count_setFile (g := g) (ref_of_filealloc hf) hy
    have hx := hrefs g
    change ((setFile s f y).file g).ref + _ = _
    omega
  · have howners := owners_setFile s f y k
    rw [if_neg (h.not_has hf k)] at howners
    have hk := hnew k
    change (setFile s f y).owners k + _ = _
    omega

theorem sysOpen {device : Bool} {omode : BitVec 32} (hp : AtUser (s.proc p)) :
    Inv (sysOpen s p device omode) := by
  unfold Ftable.sysOpen
  simp only
  split
  next =>
    refine h.opens (fun k => if s.opened = k then 1 else 0) hp.state hp.todo rfl
      (fun g => ?_) h.books.vacant (fun k => ?_) (fun k => lt_succ_indicator k s.opened)
      rfl rfl hp.state hp.pc fun _ _ _ => rfl
    · simp [Proc.refs, Proc.slots, hp.todo, setProc]
    · simp [Proc.puts, Job.releases, List.countP_cons]
      rfl
  next f hf =>
    split
    next =>
      refine h.takes hp hf rfl (fun g => ?_) (fun k => ?_) hp.state hp.pc
      · simp [Proc.refs, Proc.slots, hp.todo, one, List.count_cons, @eq_comm _ g f]
      · -- The entry has still the type it was left with.
        have hnot : ¬ ({ s.file f with ref := 1 } : File).Has k := h.not_has hf k
        simp [hnot, Proc.puts, Job.releases, List.countP_cons]
    next fd hfd =>
      refine h.takes hp hf rfl (refs_install (none_of_fdalloc hfd)) (fun k => ?_) hp.state hp.pc
      have htype : (if device then FdType.device else .inode) ≠ .none := by
        cases device <;> simp
      simp [File.Has, htype, Proc.puts, hp.todo]

theorem sysPipe (hp : AtUser (s.proc p)) : Inv (sysPipe s p) := by
  unfold Ftable.sysPipe
  split
  next => exact h
  next f hf =>
    have hfree := ref_of_filealloc hf
    have hnone := h.books.vacant f hfree
    have hbooks : Balanced (setFile s f { s.file f with ref := 1 }) 0 (one f) := by
      refine h.books.setRef Nat.one_pos fun g => ?_
      have hg := h.ref_eq g
      by_cases hgf : g = f
      · subst hgf
        simp [one]
        omega
      · simpa [one, hgf] using hg
    refine h.act hp.state (hbooks.setProc (fun g => ?_) fun _ => rfl) rfl
      ⟨?_, ?_, ?_, fun g hg => ?_, ?_⟩ (fun np i hi => by cases hi)
      fun g hg _ => update_of_ne (ne_of_filealloc hf hg) _ _
    · rw [refs_pipealloc hp.pc]
      simp only [Pi.zero_apply, setFile]
      omega
    · simp [hp.state]
    · simp [hp.todo]
    · simp
    · cases hg
      simp [setProc, setFile, hnone]
    · simp

theorem todo_of_pipealloc (hp : (s.proc p).pc = .pipealloc f) : (s.proc p).todo = [] := by
  by_contra hne
  have hplain := (h.sound p).busy hne
  rw [hp] at hplain
  exact hplain

/-- Both ends of a pipe are in the table. -/
theorem pipes {rf wf : Fin NFILE} (hp : (s.proc p).state = .running)
    (hpc : (s.proc p).pc = .pipealloc rf) (hwf : filealloc s = some wf)
    (hrefs : ∀ g, x.refs g = (s.proc p).refs g + one wf g) (hputs : ∀ k, x.puts k = 0)
    (hxstate : x.state = .running) (hxpc : x.pc = .user) :
    Inv (setProc (setFile (setFile { s with opened := s.opened + 2 } rf
      { s.file rf with type := .pipe, writable := false, no := s.opened }) wf
      { ref := 1, type := .pipe, writable := true, no := s.opened + 1 }) p x) := by
  obtain ⟨hone, hnone⟩ := (h.sound p).fresh rf hpc
  have hne : rf ≠ wf := ne_of_filealloc hwf hone
  have htodo := h.todo_of_pipealloc hpc
  generalize hyr : ({ s.file rf with type := .pipe, writable := false, no := s.opened } : File) = yr
  have hryr : yr.ref = 1 := by rw [← hyr]; exact hone
  generalize hyw : ({ ref := 1, type := .pipe, writable := true, no := s.opened + 1 } : File) = yw
  have hwyw : yw.ref = 1 := by rw [← hyw]
  refine h.opens (fun k => (if s.opened = k then 1 else 0) +
      if s.opened + 1 = k then 1 else 0) hp htodo rfl
    (fun g => ?_) (fun g hg => ?_) (fun k => ?_) (fun k => ?_) rfl rfl hxstate hxpc
    fun g hg hzero => ?_
  · have hg := hrefs g
    change (update (update s.file rf yr) wf yw g).ref + _ = _
    by_cases hgw : g = wf
    · subst hgw
      have hfree := ref_of_filealloc hwf
      simp only [update_self, one, if_true] at hg ⊢
      omega
    · rw [update_of_ne hgw]
      simp only [one, hgw, if_false] at hg
      by_cases hgr : g = rf
      · subst hgr
        rw [update_self]
        omega
      · rw [update_of_ne hgr]
        omega
  · change (update (update s.file rf yr) wf yw g).ref = 0 at hg
    change (update (update s.file rf yr) wf yw g).type = _
    by_cases hgw : g = wf
    · subst hgw
      rw [update_self, hwyw] at hg
      cases hg
    rw [update_of_ne hgw] at hg ⊢
    by_cases hgr : g = rf
    · subst hgr
      rw [update_self, hryr] at hg
      cases hg
    rw [update_of_ne hgr] at hg ⊢
    exact h.books.vacant g hg
  · have hread := owners_setFile s rf yr k
    have hwrite := owners_setFile (setFile s rf yr) wf yw k
    have hwold : ¬ ((setFile s rf yr).file wf).Has k := by
      simp only [setFile, update_of_ne hne.symm]
      exact h.not_has hwf k
    have hrold : ¬ (s.file rf).Has k := fun hhas => hhas.1 hnone
    have hr : yr.Has k ↔ s.opened = k := by simp [← hyr, File.Has]
    have hw : yw.Has k ↔ s.opened + 1 = k := by simp [← hyw, File.Has]
    simp only [hrold, hr, if_false] at hread
    simp only [hwold, hw, if_false] at hwrite
    have hx := hputs k
    change (setFile (setFile s rf yr) wf yw).owners k + _ = _
    omega
  · change (if k < s.opened + 1 + 1 then 1 else 0) = _
    rw [lt_succ_indicator, lt_succ_indicator, Nat.add_assoc]
  · have hgr : g ≠ rf := by
      rintro rfl
      rw [refs_of_pipealloc hpc htodo] at hzero
      simp [one] at hzero
    change update (update s.file rf yr) wf yw g = _
    rw [update_of_ne (ne_of_filealloc hwf hg), update_of_ne hgr]

theorem sysPipeRest {kalloc copyout : Bool} (hp : (s.proc p).state = .running)
    (hpc : (s.proc p).pc = .pipealloc f) : Inv (sysPipeRest s p f kalloc copyout) := by
  have htodo := h.todo_of_pipealloc hpc
  have hown := refs_of_pipealloc hpc htodo
  unfold Ftable.sysPipeRest
  split
  next =>
    refine h.opens 0 hp htodo rfl (fun g => ?_) h.books.vacant (fun k => ?_)
      (fun _ => rfl) rfl rfl hp rfl fun _ _ _ => rfl
    · exact congrArg (_ + ·) ((hown g).trans (refs_of_todo_one g).symm)
    · simp [Proc.puts, Job.releases]
      rfl
  next wf hwf =>
    have hboth : ∀ g, ({ s.proc p with
        pc := .user, todo := [.fileclose f, .fileclose wf] } : Proc).refs g =
          (s.proc p).refs g + one wf g := by
      intro g
      rw [refs_of_todo_two, hown g]
    split
    next =>
      simp only
      split
      next => exact h.pipes hp hpc hwf hboth (by simp [Proc.puts, Job.releases]) hp rfl
      next ofile hofile =>
        refine h.pipes hp hpc hwf (fun g => ?_) (fun k => puts_eq_zero htodo k) hp rfl
        have hslots := slots_pipeFds hofile g
        rw [hown g, ← hslots]
        simp [Proc.refs, Pc.refs, htodo]
    next =>
      have hfree := ref_of_filealloc hwf
      refine h.opens 0 hp htodo rfl (fun g => ?_) (h.vacant_setFile rfl)
        (fun k => ?_) (fun _ => rfl) rfl rfl hp rfl
        fun g hg _ => update_of_ne (ne_of_filealloc hwf hg) _ _
      · rw [hboth g]
        change ((setFile s wf _).file g).ref + _ = _
        rw [count_setFile hfree rfl]
        omega
      · have howners : (setFile s wf { s.file wf with ref := 1 }).owners k = s.owners k :=
          Nat.add_right_cancel (owners_setFile s wf { s.file wf with ref := 1 } k)
        have hputs : ({ s.proc p with
            pc := .user, todo := [.fileclose f, .fileclose wf] } : Proc).puts k = 0 := by
          simp [Proc.puts, Job.releases]
        rw [hputs, Pi.zero_apply, ← howners]
        rfl

/-! ## `fork` and `exit` -/

/-- A step of `fork`, which fills the slot `np`. -/
theorem forks (hp : (s.proc p).state = .running) (hnp : np ≠ p)
    (hother : ∀ q j, (s.proc q).pc = .fork np j → q = p) (hbooks : Balanced t 0 0)
    (hproc : t.proc = update (update s.proc np y) p x)
    (hfile : ∀ f, (s.file f).ref = 1 → (s.proc p).refs f = 0 → t.file f = s.file f)
    (hy : Sound t y) (hypc : y.pc = .user) (hx : Sound t x)
    (hxpc : ∀ m i, x.pc = .fork m i → m = np) : Inv t := by
  have hpt : t.proc p = x := by rw [hproc, update_self]
  have hnpt : t.proc np = y := by rw [hproc, update_of_ne hnp, update_self]
  have hrest : ∀ q, ¬ (q = p ∨ q = np) → t.proc q = s.proc q := by
    intro q hq
    rw [not_or] at hq
    rw [hproc, update_of_ne hq.1, update_of_ne hq.2]
  refine h.of_changed (fun q => q = p ∨ q = np) hbooks hrest ?_ (fun q f hq hf => ?_)
    (fun q m i hq hf => ?_) fun q r m i j hq hfq hfr => ?_
  · rintro q (rfl | rfl)
    · rwa [hpt]
    · rwa [hnpt]
  · have hpq : p ≠ q := fun heq => hq (Or.inl heq.symm)
    exact hfile f ((h.sound q).fresh f hf).1 (h.refs_eq_zero hf hpq)
  · rintro (rfl | rfl)
    · exact h.ne_of_fork hp hf rfl
    · exact hq (Or.inl (hother q i hf))
  · obtain rfl | rfl := hq
    · rw [hpt] at hfq
      obtain rfl := hxpc m i hfq
      by_contra hqr
      by_cases hr : r = m
      · rw [hr, hnpt, hypc] at hfr
        cases hfr
      · rw [hrest r (by simp [hr, Ne.symm hqr])] at hfr
        exact hqr (hother r j hfr).symm
    · rw [hnpt, hypc] at hfq
      cases hfq

theorem fork {np : Option (Fin NPROC)} (hp : AtUser (s.proc p))
    (ht : fork s p np = some t) : Inv t := by
  unfold Ftable.fork at ht
  split at ht
  · cases ht
    exact h
  next np =>
    obtain ⟨hunused, ⟨⟩⟩ := Option.ite_none_right_eq_some.mp ht
    have hidle := (h.sound np).idle (Or.inl hunused)
    have hnp : np ≠ p := by
      rintro rfl
      cases hp.state.symm.trans hunused
    have hpc : (s.proc np).pc = .user := by rw [hidle]; rfl
    have htodo : (s.proc np).todo = [] := by rw [hidle]; rfl
    have hfree : ∀ fd, (s.proc np).ofile fd = none := by
      intro fd
      rw [hidle]
      rfl
    have hold : (setProc s np { s.proc np with state := .embryo }).proc p = s.proc p := by
      simp [setProc, hnp.symm]
    have hbooks : Balanced (setProc s np { s.proc np with state := .embryo }) 0 0 :=
      h.books.setProc (fun _ => rfl) fun _ => rfl
    refine h.forks hp.state hnp (fun q j hq => ?_)
      (hbooks.setProc (fun g => ?_) fun k => ?_) rfl (fun _ _ _ => rfl)
      (.of_user (by simp) hpc) hpc
      ⟨by simp [hp.state], by simp [hp.todo], by simp, by simp, fun m i hm => ?_⟩ fun m i hm => ?_
    · cases hunused.symm.trans ((h.sound q).fork np j hq).state
    · rw [hold]
      simp [Proc.refs, Proc.slots, hp.pc, Pc.refs]
    · rw [hold]
      rfl
    · cases hm
      simp only [setProc, update_of_ne hnp, update_self]
      exact ⟨rfl, hpc, htodo, fun fd _ => hfree fd⟩
    · cases hm
      rfl

theorem todo_of_fork (hp : (s.proc p).pc = .fork np i) : (s.proc p).todo = [] := by
  by_contra hne
  have hplain := (h.sound p).busy hne
  rw [hp] at hplain
  exact hplain

theorem forkRound (hp : (s.proc p).state = .running) (hpc : (s.proc p).pc = .fork np i) :
    Inv (forkRound s p np i) := by
  have hembryo := (h.sound p).fork np i hpc
  have htodo := h.todo_of_fork hpc
  have hnp : np ≠ p := by
    rintro rfl
    cases hp.symm.trans hembryo.state
  have hother : ∀ q j, (s.proc q).pc = .fork np j → q = p := fun q j hq => h.once q p np j i hq hpc
  have hrefs : ∀ pc g, pc = .user ∨ pc = .fork np (i + 1) →
      ({ s.proc p with pc := pc } : Proc).refs g = (s.proc p).refs g := by
    rintro pc g (rfl | rfl)
    · simp [Proc.refs, Proc.slots, hpc, Pc.refs]
    · simp [Proc.refs, Proc.slots, hpc, Pc.refs]
  have hnext : ∀ t, Embryo (t.proc np) (i + 1) →
      Sound t { s.proc p with pc := .fork np (i + 1) } := by
    intro t ht
    refine ⟨by simp [hp], by simp [htodo], by simp, by simp, fun m j hm => ?_⟩
    cases hm
    exact ht
  have hsame : ∀ m j, Pc.fork np (i + 1) = .fork m j → m = np := by
    intro m j hm
    cases hm
    rfl
  unfold Ftable.forkRound
  split
  next hi =>
    have hbooks : Balanced (setProc s p { s.proc p with pc := .fork np (i + 1) }) 0 0 :=
      h.books.setProc (fun g => by rw [hrefs _ g (Or.inr rfl)]) fun _ => rfl
    simp only
    split
    next hnone =>
      refine h.forks (y := s.proc np) hp hnp hother hbooks ?_ (fun _ _ _ => rfl)
        (.of_user (by simp [hembryo.state]) hembryo.pc) hembryo.pc (hnext _ ?_) hsame
      · rw [update_eq_self]
        rfl
      · simp only [setProc, update_of_ne hnp]
        exact hembryo.mono (Nat.le_succ i)
    next f hf =>
      have hslot : (s.proc np).ofile ⟨i, hi⟩ = none := hembryo.free _ (Nat.le_refl i)
      have hold : (setProc s p { s.proc p with pc := .fork np (i + 1) }).proc np =
          s.proc np := update_of_ne hnp _ _
      have hlent : Balanced (setProc (setProc s p { s.proc p with pc := .fork np (i + 1) })
          np { s.proc np with
            ofile := update (s.proc np).ofile ⟨i, hi⟩ (some f) }) (one f) 0 := by
        refine hbooks.setProc (fun g => ?_) fun k => ?_
        · rw [hold, refs_install hslot]
          simp only [Pi.zero_apply]
          omega
        · rw [hold]
          rfl
      refine h.forks hp hnp hother (hlent.filedup (h.ref_pos (refs_pos hf)))
        ((filedup_proc _ f).trans (update_comm hnp.symm _ _ _))
        (fun g _ hg => filedup_file_of_ne ?_)
        (.of_user (by simp [hembryo.state]) hembryo.pc) hembryo.pc (hnext _ ?_) hsame
      · rintro rfl
        exact absurd hg (refs_pos hf).ne'
      · rw [filedup_proc]
        simp only [setProc, update_self]
        exact hembryo.install hi
  next hi =>
    have hold : (setProc s np { s.proc np with state := .running }).proc p = s.proc p :=
      update_of_ne hnp.symm _ _
    have hbooks : Balanced (setProc s np { s.proc np with state := .running }) 0 0 :=
      h.books.setProc (fun _ => rfl) fun _ => rfl
    refine h.forks hp hnp hother (hbooks.setProc (fun g => ?_) fun k => ?_) rfl
      (fun _ _ _ => rfl) (.of_user (by simp) hembryo.pc) hembryo.pc
      (.of_user (by simp [hp]) rfl) fun m j hm => by cases hm
    · rw [hold, hrefs _ g (Or.inl rfl)]
    · rw [hold]
      rfl

theorem exitRound (hp : (s.proc p).state = .running) (hpc : (s.proc p).pc = .exit i)
    (htodo : (s.proc p).todo = []) : Inv (exitRound s p i) := by
  have hclosed := (h.sound p).exit i hpc
  have hrefs : ∀ pc g, pc = .user ∨ pc = .exit (i + 1) → ∀ x : Proc, x.pc = .exit i →
      ({ x with pc := pc } : Proc).refs g = x.refs g := by
    rintro pc g (rfl | rfl) x hx
    · simp [Proc.refs, Proc.slots, hx, Pc.refs]
    · simp [Proc.refs, Proc.slots, hx, Pc.refs]
  unfold Ftable.exitRound
  split
  next hi =>
    split
    next hnone =>
      refine h.act hp (h.books.setProc (fun g => ?_) fun _ => rfl) rfl
        (.of_plain hp trivial fun j hj fd hfd => ?_) (fun np j hj => by cases hj)
        fun _ _ _ => rfl
      · rw [hrefs _ g (Or.inr rfl) _ hpc]
      · cases hj
        exact closed_succ hi hclosed hnone fd hfd
    next f hf =>
      refine h.close hp (fun g => ?_) (fun _ => rfl) hp trivial fun j hj fd hfd => ?_
      · exact (congrArg (· + one f g) (hrefs (.exit (i + 1)) g (Or.inr rfl)
          { s.proc p with ofile := update (s.proc p).ofile ⟨i, hi⟩ none }
          hpc)).trans (refs_clear hf g)
      · cases hj
        refine closed_succ hi (fun fd hfd => ?_) (update_self _ _ _) fd hfd
        rw [update_of_ne (fun heq => by simp [heq] at hfd)]
        exact hclosed fd hfd
  next hi =>
    have hall : ∀ fd, (s.proc p).ofile fd = none := by
      intro fd
      refine hclosed fd (fd.isLt.trans_le (Nat.le_of_not_lt hi))
    refine h.act hp (h.books.setProc (fun g => ?_) fun _ => rfl) rfl
      ⟨fun _ => ?_, by simp [htodo], by simp, by simp, by simp⟩
      (fun np j hj => by cases hj) fun _ _ _ => rfl
    · simp [Proc.refs, Proc.slots, hpc, Pc.refs]
    · simp [idle, htodo, funext hall]

theorem wait (hq : (s.proc q).state = .zombie) :
    Inv (setProc s q { s.proc q with state := .unused }) := by
  have hidle := (h.sound q).idle (Or.inr hq)
  have hpc : (s.proc q).pc = .user := by rw [hidle]; rfl
  have hself : (setProc s q { s.proc q with state := .unused }).proc q =
      { s.proc q with state := .unused } := update_self ..
  refine h.of_changed (· = q) (h.books.setProc (fun _ => rfl) fun _ => rfl)
    (fun r hr => update_of_ne hr ..) ?_ (fun _ _ _ _ => rfl) (fun r np i _ hr => ?_)
    fun r r' np i j hr hfr => ?_
  · rintro r rfl
    rw [hself]
    refine ⟨fun _ => ?_, fun _ => ?_, by simp [hpc], by simp [hpc], by simp [hpc]⟩
    · rw [hidle]
      rfl
    · rw [hpc]
      trivial
  · rintro rfl
    cases hq.symm.trans ((h.sound r).fork np i hr).state
  · rw [hr, hself] at hfr
    cases hpc.symm.trans hfr

/-! ## Steps and runs -/

theorem call {c : Call} (hp : AtUser (s.proc p)) (ht : c.start s p = some t) : Inv t := by
  cases c with
  | «open» found omode =>
    cases found with
    | none =>
      cases ht
      exact h
    | some device =>
      cases ht
      exact h.sysOpen hp
  | dup fd =>
    cases ht
    exact h.sysDup hp
  | close fd =>
    cases ht
    exact h.sysClose hp
  | pipe =>
    cases ht
    exact h.sysPipe hp
  | fork np => exact h.fork hp ht
  | exec =>
    cases ht
    exact h
  | exit =>
    change (if p = initproc then none else some _) = some t at ht
    split at ht
    · cases ht
    · cases ht
      refine h.act hp.state (h.books.setProc (fun g => ?_) fun _ => rfl) rfl
        (.of_plain hp.state trivial fun i hi fd hfd => ?_) (fun np i hi => by cases hi)
        fun _ _ _ => rfl
      · simp [Proc.refs, Proc.slots, hp.pc, Pc.refs]
      · cases hi
        exact absurd hfd (Nat.not_lt_zero _)
  | wait child =>
    change (if (s.proc child).state = .zombie then some _ else none) = some t at ht
    obtain ⟨hzombie, ⟨⟩⟩ := Option.ite_none_right_eq_some.mp ht
    exact h.wait hzombie

/-- A pending release is made. -/
theorem release {job : Job} {no : ℕ} (hp : (s.proc p).state = .running)
    (htodo : (s.proc p).todo = job :: rest) (hjob : ∀ f, job ≠ .fileclose f)
    (hno : ∀ k, job.releases k = decide (no = k)) :
    Inv { setProc s p { s.proc p with todo := rest } with
      released := s.released ++ [no] } := by
  have hplain : (s.proc p).pc.Plain := (h.sound p).busy (by simp [htodo])
  refine h.act hp ?_ rfl (.of_plain hp hplain (h.sound p).exit) (fun np i hi => ?_) fun _ _ _ => rfl
  · refine h.books.change rfl (fun g => ?_) h.books.vacant (fun k => ?_) rfl
    · simp [Proc.refs, Proc.slots, htodo, List.count_cons_of_ne (hjob g), setProc]
    · have hputs : (s.proc p).puts k = rest.countP (Job.releases k) + if no = k then 1 else 0 := by
        simp [Proc.puts, htodo, List.countP_cons, hno]
      rw [hputs, List.count_append, List.count_singleton]
      simp only [beq_iff_eq]
      change s.owners k + rest.countP (Job.releases k) + _ + _ = _ + if k < s.opened then _ else _
      omega
  · change (s.proc p).pc = _ at hi
    rw [hi] at hplain
    exact hplain

theorem job {job : Job} (hp : (s.proc p).state = .running) (htodo : (s.proc p).todo = job :: rest) :
    Inv (job.run (setProc s p { s.proc p with todo := rest }) p) := by
  cases job with
  | fileclose f =>
    refine h.close hp (fun g => ?_) (fun k => ?_) hp ((h.sound p).busy (by simp [htodo]))
      (h.sound p).exit
    · simp only [Proc.refs, Proc.slots, htodo, List.count_cons, one, beq_iff_eq,
        Job.fileclose.injEq, @eq_comm _ g f]
      omega
    · simp [Proc.puts, htodo, Job.releases]
  | pipeclose writable no => exact h.release hp htodo (by simp) fun _ => rfl
  | iput no => exact h.release hp htodo (by simp) fun _ => rfl

theorem step {e : Fin NPROC × Event} (ht : step s e = some t) : Inv t := by
  obtain ⟨p, e⟩ := e
  unfold Ftable.step at ht
  simp only at ht
  split at ht
  · cases ht
  next hok =>
    have hp : (s.proc p).state = .running := by
      by_contra hne
      exact hok (Or.inr hne)
    split at ht
    next job rest htodo =>
      cases ht
      exact h.job hp htodo
    next kalloc copyout htodo =>
      cases hpc : (s.proc p).pc with
      | user =>
        rw [hpc] at ht
        cases ht
      | pipealloc f0 =>
        rw [hpc] at ht
        cases ht
        exact h.sysPipeRest hp hpc
      | fork np i =>
        rw [hpc] at ht
        cases ht
        exact h.forkRound hp hpc
      | exit i =>
        rw [hpc] at ht
        cases ht
        exact h.exitRound hp hpc htodo
    next c htodo =>
      obtain ⟨hpc, ht⟩ := Option.ite_none_right_eq_some.mp ht
      exact h.call ⟨hp, hpc, htodo⟩ ht
    next => cases ht

end

end Calls

end Inv

theorem boot_inv : Inv boot := by
  have hrefs : ∀ p f, (boot.proc p).refs f = 0 := by
    intro p f
    simp [Proc.refs, slots_eq_zero, boot, idle, Pc.refs]
  have hputs : ∀ p k, (boot.proc p).puts k = 0 := fun p k => rfl
  refine ⟨⟨fun f => ?_, fun f _ => rfl, fun k => ?_, rfl⟩, fun p => ?_, ?_⟩
  · simp only [State.refs, hrefs, sum_const_zero]
    rfl
  · simp only [State.puts, hputs, sum_const_zero]
    simp [State.owners, boot, File.Has]
  · exact ⟨fun _ => rfl, by simp [boot, idle], by simp [boot, idle], by simp [boot, idle],
      by simp [boot, idle]⟩
  · simp [boot, idle]

theorem inv_of_reachable {s : State} (h : system.Reachable s) : Inv s :=
  h.invariant (fun _ hs => hs ▸ boot_inv) fun _ _ _ hs => hs.step

/-! ## The counts are exact -/

/-- Some descriptor refers to the inode reference or pipe end `k`. -/
def State.Refers (s : State) (k : ℕ) : Prop :=
  ∃ p fd f, (s.proc p).ofile fd = some f ∧ (s.file f).Has k

section Exact

variable {s : State} {k : ℕ}

theorem owners_pos {f : Fin NFILE} (hf : (s.file f).Has k) : 0 < s.owners k := by
  have hle := single_le_sum
    (f := fun g => if (s.file g).Has k then 1 else 0) (fun _ _ => Nat.zero_le _)
    (mem_univ f)
  simp only [hf, if_true] at hle
  exact hle

/-- What a descriptor refers to has not been released. -/
theorem Inv.count_of_refers (h : Inv s) (hk : s.Refers k) : s.released.count k = 0 := by
  obtain ⟨p, fd, f, -, hf⟩ := hk
  have hpos := owners_pos hf
  have hkept := h.books.kept k
  split at hkept
  · omega
  · omega

theorem Inv.count_le_one (h : Inv s) (k : ℕ) : s.released.count k ≤ 1 := by
  have hkept := h.books.kept k
  split at hkept
  · omega
  · omega

theorem Inv.ref_eq_slots (h : Inv s) (hquiet : s.Quiet) (f : Fin NFILE) :
    (s.file f).ref = s.slots f := by
  rw [h.ref_eq]
  refine sum_congr rfl fun p _ => ?_
  simp [Proc.refs, (hquiet p).1, (hquiet p).2, Pc.refs]

/-- Between calls, what no descriptor refers to has been released. -/
theorem Inv.count_of_not_refers (h : Inv s) (hquiet : s.Quiet) (hk : k < s.opened)
    (hnot : ¬ s.Refers k) : s.released.count k = 1 := by
  have howners : s.owners k = 0 := by
    refine sum_eq_zero fun f _ => if_neg fun hf => hnot ?_
    have href : 0 < (s.file f).ref := Nat.pos_of_ne_zero fun h0 => hf.1 (h.books.vacant f h0)
    rw [h.ref_eq_slots hquiet] at href
    obtain ⟨p, -, hp⟩ := exists_ne_zero_of_sum_ne_zero href.ne'
    obtain ⟨fd, hfd⟩ := card_pos.mp (Nat.pos_of_ne_zero hp)
    exact ⟨p, fd, f, (mem_filter.mp hfd).2, hf⟩
  have hputs : s.puts k = 0 := by
    refine sum_eq_zero fun p _ => ?_
    simp [Proc.puts, (hquiet p).2]
  have hkept := h.books.kept k
  rw [if_pos hk] at hkept
  omega

end Exact

/-- In every state of every run, no `panic` has been reached, free entries have no type,
and the count of an entry is the number of references, those inside calls included.
Between calls these are the descriptors, and an inode reference or pipe end has been
released once if no descriptor refers to it, and otherwise not. -/
theorem file_refs_exact {s : State} (h : system.Reachable s) : s.panic = none ∧
    (∀ f, (s.file f).ref = ∑ p, (s.proc p).refs f) ∧
    (∀ f, (s.file f).ref = 0 → (s.file f).type = .none) ∧
    (∀ k, s.released.count k ≤ 1) ∧
    (∀ k, s.Refers k → s.released.count k = 0) ∧
    (s.Quiet → (∀ f, (s.file f).ref = ∑ p, (s.proc p).slots f) ∧
      ∀ k < s.opened, ¬ s.Refers k → s.released.count k = 1) := by
  have hinv := inv_of_reachable h
  refine ⟨hinv.books.panic, hinv.ref_eq, hinv.books.vacant, hinv.count_le_one,
    fun k => hinv.count_of_refers, fun hquiet => ⟨hinv.ref_eq_slots hquiet, ?_⟩⟩
  exact fun k hk => hinv.count_of_not_refers hquiet hk

/-- `init` opens a file, duplicates the descriptor and closes both. -/
def openDupClose : List (Fin NPROC × Event) :=
  [.call (.open (some false) 0), .call (.dup 0), .call (.close 0), .call (.close 1),
    .go true true].map (initproc, ·)

instance (s : State) : Decidable s.Quiet := inferInstanceAs (Decidable (∀ _, _ ∧ _))

theorem file_refs_exact_openDupClose :
    ∃ s, system.run boot openDupClose = some s ∧ s.Quiet ∧ s.released = [0] ∧
      s.panic = none ∧ ∀ f, (s.file f).ref = ∑ p, (s.proc p).slots f := by
  obtain ⟨s, hs, hquiet, hreleased⟩ : ∃ s, system.run boot openDupClose = some s ∧ s.Quiet ∧
      s.released = [0] := EventSystem.exists_of_any_run (by decide +kernel)
  have hexact := file_refs_exact ⟨boot, openDupClose, rfl, hs⟩
  exact ⟨s, hs, hquiet, hreleased, hexact.1, (hexact.2.2.2.2.2 hquiet).1⟩

end OsCa.Ftable
