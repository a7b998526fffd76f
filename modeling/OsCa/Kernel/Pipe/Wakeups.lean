import OsCa.Kernel.Pipe.Channel

/-!
# No wakeup of a pipe is lost

A process that sleeps on a pipe has a reason to, or the process that has the lock
is going to wake it up.  There is one exception: a writer that has stored bytes
and then finds the pipe full, and that has been killed or has no reader any more,
returns without `wakeup(&pi->nread)`.
-/

namespace OsCa.Pipes

open Bytes Function

variable {n : ℕ} {s t : State n} {e : Event n} {p : Fin n} {pc pc' : Pc}

variable {q : Fin n} {c o : Chan} {k : ℕ}

/-- The reason to sleep on the channel. -/
def Chan.Blocked (pi : Pipe) : Chan → Prop
  | .nread => pi.Empty ∧ pi.writeopen = true
  | .nwrite => pi.Full ∧ pi.readopen = true

/-- From this place, the process will call `wakeup(c)` and come to process `q`. -/
def Pc.Owes (c : Chan) (q : Fin n) : Pc → Prop
  | .test (.write ..) stored => stored = true ∧ c = .nread
  | .wake _ k => c = .nread ∧ k ≤ q
  | .copy .. => c = .nwrite
  | .done o k => c = o.chan ∧ k ≤ q
  | _ => False

/-- The process sleeps, or is about to. -/
def State.Waits (s : State n) (q : Fin n) (c : Chan) : Prop :=
  (∃ j, s.pc q = .fall j ∧ j.chan = c) ∨ (s.sleeping q = true ∧ s.chan q = some c)

/-- A process that is on its way to sleep has a reason. -/
def Pc.Drowsy (pi : Pipe) : Pc → Prop
  | .sleep j => j.chan.Blocked pi
  | .wake j _ => j.chan = .nwrite ∧ Chan.nwrite.Blocked pi
  | _ => True

structure Heard (s : State n) : Prop where
  exclusive : Exclusive s
  drowsy : ∀ p, (s.pc p).Drowsy s.pipe
  waits : ∀ q c, s.Waits q c → c.Blocked s.pipe ∨ ∃ h, s.lock = some h ∧ (s.pc h).Owes c q

/-- A writer that has stored bytes since it last woke up the readers does not give
up. -/
def Patient (s : State n) : Event n → Prop
  | .step p => ∀ c i, s.pc p = .test (.write c i) true → s.pipe.Full →
      s.pipe.readopen = true ∧ s.killed p = false
  | _ => True

theorem Pc.drowsy_of_not_holds (h : pc.holds = false) (pi : Pipe) : pc.Drowsy pi := by
  cases pc with
  | sleep | wake => cases h
  | user | acquire | test | fall | asleep | copy | close | done => trivial

/-- A step of process `p` that moves it to `pc'`. -/
theorem waits_goto (hq : t.Waits q c) (hpc : t.pc = update s.pc p pc') (hfall : ∀ j, pc' ≠ .fall j)
    (hsleep : ∀ q, t.sleeping q = true → s.sleeping q = true ∧ t.chan q = s.chan q) :
    s.Waits q c := by
  rcases hq with ⟨j, hj, hc⟩ | ⟨hq, hc⟩
  · rw [hpc, update_apply] at hj
    split at hj
    next => exact absurd hj (hfall j)
    next => exact Or.inl ⟨j, hj, hc⟩
  · exact Or.inr ⟨(hsleep q hq).1, (hsleep q hq).2 ▸ hc⟩

theorem sleeping_wakeup (s : State n) (o : Chan) (r q : Fin n)
    (hq : (s.wakeup o r).sleeping q = true) :
    s.sleeping q = true ∧ (s.wakeup o r).chan q = s.chan q := by
  unfold State.wakeup at hq ⊢
  split at hq
  next hnot =>
    rw [if_pos hnot]
    change update s.sleeping r false q = true at hq
    rw [update_apply] at hq
    split at hq
    · cases hq
    · exact ⟨hq, rfl⟩
  next hnot =>
    rw [if_neg hnot]
    exact ⟨hq, rfl⟩

/-- A process that waits has waited before, or has just released the lock. -/
def Follows (s t : State n) : Prop := ∀ q c, t.Waits q c →
  s.Waits q c ∨ t.lock = none ∧ ∃ j, s.pc q = .sleep j ∧ j.chan = c

theorem Move.follows (hm : Move s e t) : Follows s t := by
  intro q c hq
  cases hm with
  | pipewrite | piperead | pipeclose | acquire | giveUp | warn | store | wrote | quit
  | wait | copy | sleep | read | close =>
    exact Or.inl (waits_goto hq rfl (by simp) fun q hq => ⟨hq, rfl⟩)
  | take pc _ _ hpc =>
    refine Or.inl (waits_goto hq rfl ?_ fun q hq => ⟨hq, rfl⟩)
    rcases hpc with rfl | ⟨rfl, -⟩ <;> simp
  | @finish _ o => cases o <;> exact Or.inl (waits_goto hq rfl (by simp) fun q hq => ⟨hq, rfl⟩)
  | fork => exact Or.inl hq
  | @kill r =>
    refine Or.inl (hq.imp_right fun ⟨hsleep, hchan⟩ => ⟨?_, hchan⟩)
    change update s.sleeping r false q = true at hsleep
    rw [update_apply] at hsleep
    split at hsleep
    · cases hsleep
    · exact hsleep
  | wake _ hk | last _ hk =>
    obtain ⟨f, hf⟩ := wakeup_eq s _ ⟨_, hk⟩
    exact Or.inl (waits_goto hq (by rw [hf]; rfl) (by simp) (sleeping_wakeup s _ ⟨_, hk⟩))
  | @release p j hp =>
    rcases hq with ⟨i, hi, rfl⟩ | hq
    · change update s.pc p (.fall j) q = .fall i at hi
      rw [update_apply] at hi
      split at hi
      next heq =>
        cases hi
        exact Or.inr ⟨rfl, j, heq ▸ hp, rfl⟩
      next => exact Or.inl (Or.inl ⟨i, hi, rfl⟩)
    · exact Or.inl (Or.inr hq)
  | @fall p j hp =>
    left
    rcases hq with ⟨i, hi, rfl⟩ | ⟨hsleep, hchan⟩
    · change update s.pc p (.asleep j) q = .fall i at hi
      rw [update_apply] at hi
      split at hi
      · cases hi
      · exact Or.inl ⟨i, hi, rfl⟩
    · change update s.sleeping p true q = true at hsleep
      change update s.chan p (some j.chan) q = some c at hchan
      rw [update_apply] at hsleep hchan
      split at hchan
      next heq => exact Or.inl ⟨j, heq ▸ hp, Option.some.inj hchan⟩
      next hne => exact Or.inr ⟨(if_neg hne).symm.trans hsleep, hchan⟩
  | @resume p j hp hwoken =>
    refine Or.inl (waits_goto hq rfl (by simp) fun q hq => ⟨hq, update_of_ne ?_ _ _⟩)
    rintro rfl
    exact absurd (hwoken.symm.trans hq) (by simp)

theorem drowsy_goto (h : Heard s) (hpc : t.pc = update s.pc p pc')
    (hothers : t.pipe = s.pipe ∨ ∀ q, q ≠ p → (s.pc q).holds = false)
    (hself : pc'.Drowsy t.pipe) (q : Fin n) : (t.pc q).Drowsy t.pipe := by
  rw [hpc, update_apply]
  split
  next => exact hself
  next hne =>
    rcases hothers with hpipe | hothers
    · rw [hpipe]
      exact h.drowsy q
    · exact Pc.drowsy_of_not_holds (hothers q hne) _

namespace Heard

theorem waited (h : Heard s) (hw : Follows s t) (hlock : t.lock = s.lock ∨ s.lock = none)
    (hq : t.Waits q c) : s.Waits q c := by
  rcases hw q c hq with hq | ⟨hnone, j, hj, -⟩
  · exact hq
  · have hs : s.lock = some q := (h.exclusive q).mp (by rw [hj]; rfl)
    simp [hs, hnone] at hlock

/-- Without the lock, every process that waits has a reason. -/
theorem blocked_of_free (h : Heard s) (hlock : s.lock = none) (hq : s.Waits q c) :
    c.Blocked s.pipe := by
  rcases h.waits q c hq with hb | ⟨r, hr, -⟩
  · exact hb
  · exact absurd (hlock.symm.trans hr) (by simp)

section Turn

variable (h : Heard s) (hx : Exclusive t) (hw : Follows s t) (hp : s.pc p = pc)
  (hpc : t.pc = update s.pc p pc')

include h hx hw hp hpc

/-- The process that has the lock goes on. -/
theorem hold (hheld : pc.holds = true) (hlock : t.lock = s.lock) (hself : pc'.Drowsy t.pipe)
    (hown : ∀ q c, t.Waits q c → c.Blocked s.pipe ∨ pc.Owes c q →
      c.Blocked t.pipe ∨ pc'.Owes c q) : Heard t := by
  subst hp
  have hs : s.lock = some p := (h.exclusive p).mp hheld
  refine ⟨hx, drowsy_goto h hpc (Or.inr fun q hne => ?_) hself, fun q c hq => ?_⟩
  · exact Bool.eq_false_iff.mpr fun hq => hne (h.exclusive.eq hq hheld)
  · have hold : c.Blocked s.pipe ∨ (s.pc p).Owes c q := by
      rcases h.waits q c (h.waited hw (Or.inl hlock) hq) with hb | ⟨r, hr, howes⟩
      · exact Or.inl hb
      · cases hs.symm.trans hr
        exact Or.inr howes
    refine (hown q c hq hold).imp_right fun howes => ⟨p, hlock.trans hs, ?_⟩
    rw [hpc, update_self]
    exact howes

/-- It goes on without a change to the pipe, and owes what it has owed. -/
theorem go (hheld : pc.holds = true) (hsame : t.pipe = s.pipe ∧ t.lock = s.lock)
    (hself : pc'.Drowsy s.pipe) (hown : ∀ (q : Fin n) c, pc.Owes c q → pc'.Owes c q) :
    Heard t := by
  refine h.hold hx hw hp hpc hheld hsame.2 (by rwa [hsame.1]) fun q c _ hold => ?_
  rw [hsame.1]
  exact hold.imp_right (hown q c)

/-- A process without the lock moves. -/
theorem aside (hfree : pc.holds = false) (hpc' : pc'.holds = false)
    (hsame : t.pipe = s.pipe ∧ t.lock = s.lock) : Heard t := by
  subst hp
  refine ⟨hx, drowsy_goto h hpc (Or.inl hsame.1) (Pc.drowsy_of_not_holds hpc' _), fun q c hq => ?_⟩
  rw [hsame.1, hsame.2]
  refine (h.waits q c (h.waited hw (Or.inl hsame.2) hq)).imp_right fun ⟨r, hr, howes⟩ => ⟨r, hr, ?_⟩
  have hne : r ≠ p := by
    rintro rfl
    exact absurd (hfree.symm.trans ((h.exclusive r).mpr hr)) (by simp)
  rw [hpc, update_of_ne hne]
  exact howes

/-- The lock is released by a process that owes no wakeup. -/
theorem release (hheld : pc.holds = true) (hpc' : pc'.holds = false)
    (hpipe : t.pipe = s.pipe) (hnone : ∀ (q : Fin n) c, ¬ pc.Owes c q) : Heard t := by
  subst hp
  refine ⟨hx, drowsy_goto h hpc (Or.inl hpipe) (Pc.drowsy_of_not_holds hpc' _),
    fun q c hq => Or.inl ?_⟩
  rw [hpipe]
  rcases hw q c hq with hq | ⟨-, j, hj, rfl⟩
  · rcases h.waits q c hq with hb | ⟨r, hr, howes⟩
    · exact hb
    · cases ((h.exclusive p).mp hheld).symm.trans hr
      exact absurd howes (hnone q c)
  · -- The process that has just released the lock has a reason to sleep.
    have hdrowsy := h.drowsy q
    rwa [hj] at hdrowsy

end Turn

end Heard

theorem Pc.owes_of_loop (hk : n ≤ k) (h : c = o ∧ k ≤ q.val) : False := by
  have hq := q.isLt
  omega

/-- After round `k` of `wakeup(c)`, process `k` does not wait for it. -/
theorem owes_wakeup (hk : k < n) (hfree : ¬ s.Busy ⟨k, hk⟩)
    (hq : ((s.wakeup o ⟨k, hk⟩).goto p pc').Waits q c) (hpc' : ∀ j, pc' ≠ .fall j)
    (howes : c = o ∧ k ≤ q.val) : c = o ∧ k + 1 ≤ q.val := by
  refine ⟨howes.1, Nat.lt_of_le_of_ne howes.2 fun heq => ?_⟩
  have hqk : q = ⟨k, hk⟩ := Fin.ext heq.symm
  subst hqk
  unfold State.wakeup at hq
  rcases hq with ⟨j, hj, -⟩ | ⟨hsleep, hchan⟩
  · have hpc : s.pc ⟨k, hk⟩ = .fall j := by
      split at hj
      all_goals
        change update s.pc p pc' ⟨k, hk⟩ = .fall j at hj
        rw [update_apply] at hj
        split at hj
        · exact absurd hj (hpc' j)
        · exact hj
    exact hfree ⟨j, hpc⟩
  · split at hsleep
    next => exact absurd ((update_self ..).symm.trans hsleep) (by simp)
    next hnot =>
      rw [if_neg hnot] at hchan
      exact hnot ⟨hsleep, howes.1 ▸ hchan⟩

theorem Move.heard (hm : Move s e t) (h : Heard s) (hok : Patient s e) : Heard t := by
  have hx := hm.exclusive h.exclusive
  have hw := hm.follows
  cases hm with
  | pipewrite hp | piperead hp | pipeclose hp | fall hp | resume hp =>
    exact h.aside hx hw hp rfl rfl rfl ⟨rfl, rfl⟩
  | kill => exact ⟨hx, h.drowsy, fun q c hq => h.waits q c (h.waited hw (Or.inl rfl) hq)⟩
  | fork => exact ⟨hx, h.drowsy, h.waits⟩
  | acquire hp hlock =>
    refine ⟨hx, drowsy_goto h rfl (Or.inl rfl) trivial, fun q c hq => Or.inl ?_⟩
    exact h.blocked_of_free hlock (h.waited hw (Or.inr hlock) hq)
  | giveUp hp hfull hquit =>
    refine h.release hx hw hp rfl rfl rfl rfl fun q c hq => ?_
    obtain ⟨rfl, -⟩ := hq
    obtain ⟨hopen, hlive⟩ := hok _ _ hp hfull
    rcases hquit with hquit | hquit
    · exact absurd (hopen.symm.trans hquit) (by simp)
    · exact absurd (hlive.symm.trans hquit) (by simp)
  | warn hp hfull hopen =>
    exact h.go hx hw hp rfl rfl ⟨rfl, rfl⟩ ⟨rfl, hfull, hopen⟩ fun q c howes =>
      ⟨howes.2, Nat.zero_le _⟩
  | store hp hfull hsrc =>
    refine h.hold hx hw hp rfl rfl rfl trivial fun q c hq hold => Or.inr ⟨rfl, ?_⟩
    rcases hold with hb | howes
    · cases c with
      | nread => rfl
      | nwrite => exact absurd hb.1 hfull
    · exact howes.2
  | wrote hp =>
    exact h.go hx hw hp rfl rfl ⟨rfl, rfl⟩ trivial fun q c howes => ⟨howes.2, Nat.zero_le _⟩
  | quit hp | release hp => exact h.release hx hw hp rfl rfl rfl rfl fun _ _ hq => hq
  | wait hp hempty hopen =>
    exact h.go hx hw hp rfl rfl ⟨rfl, rfl⟩ ⟨hempty, hopen⟩ fun _ _ howes => howes.elim
  | copy hp => exact h.go hx hw hp rfl rfl ⟨rfl, rfl⟩ trivial fun _ _ howes => howes.elim
  | @wake p j k hp hk hfree =>
    have hdrowsy := h.drowsy p
    rw [hp] at hdrowsy
    obtain ⟨f, hf⟩ := wakeup_eq s .nread ⟨k, hk⟩
    refine h.hold hx hw hp (by rw [hf]; rfl) rfl (by rw [hf]; rfl) (by rw [hf]; exact hdrowsy)
      fun q c hq hold => ?_
    exact hold.imp (fun hb => by rw [hf]; exact hb) (owes_wakeup hk hfree hq (fun j => by simp))
  | @sleep p j k hp hk =>
    have hdrowsy := h.drowsy p
    rw [hp] at hdrowsy
    refine h.go hx hw hp rfl rfl ⟨rfl, rfl⟩ ?_ fun q c howes => (Pc.owes_of_loop hk howes).elim
    change j.chan.Blocked s.pipe
    rw [hdrowsy.1]
    exact hdrowsy.2
  | take pc hp hempty hpc =>
    refine h.hold hx hw hp rfl rfl rfl ?_ fun q c' hq hold => Or.inr ?_
    · rcases hpc with rfl | ⟨rfl, -⟩ <;> trivial
    · have hc : c' = .nwrite := by
        rcases hold with hb | howes
        · cases c' with
          | nread => exact absurd hb.1 hempty
          | nwrite => rfl
        · exact howes
      rcases hpc with rfl | ⟨rfl, -⟩
      · exact hc
      · exact ⟨hc, Nat.zero_le _⟩
  | read hp =>
    exact h.go hx hw hp rfl rfl ⟨rfl, rfl⟩ trivial fun q c howes => ⟨howes, Nat.zero_le _⟩
  | @close p w hp hlock =>
    refine ⟨hx, drowsy_goto h rfl (Or.inr fun q hne => ?_) trivial, fun q c hq => ?_⟩
    · refine Bool.eq_false_iff.mpr fun hq => ?_
      exact absurd (hlock.symm.trans ((h.exclusive q).mp hq)) (by simp)
    · have hb := h.blocked_of_free hlock (h.waited hw (Or.inr hlock) hq)
      by_cases hc : c = (Outcome.closed w).chan
      · refine Or.inr ⟨p, rfl, ?_⟩
        change (update s.pc p (.done (.closed w) 0) p).Owes c q
        rw [update_self]
        exact ⟨hc, Nat.zero_le _⟩
      · refine Or.inl ?_
        cases c <;> cases w
        · exact hb
        · exact absurd rfl hc
        · exact absurd rfl hc
        · exact hb
  | @last p o k hp hk hfree =>
    obtain ⟨f, hf⟩ := wakeup_eq s o.chan ⟨k, hk⟩
    refine h.hold hx hw hp (by rw [hf]; rfl) rfl (by rw [hf]; rfl) ?_ fun q c hq hold => ?_
    · trivial
    exact hold.imp (fun hb => by rw [hf]; exact hb) (owes_wakeup hk hfree hq (fun j => by simp))
  | @finish p o k hp hk =>
    cases o <;> exact h.release hx hw hp rfl rfl rfl rfl fun _ _ => Pc.owes_of_loop hk

theorem Start.heard (hs : Start s) : Heard s where
  exclusive p := by simp [hs.pc p, hs.lock, Pc.holds]
  drowsy p := by
    rw [hs.pc p]
    trivial
  waits q c hq := by
    rcases hq with ⟨j, hj, -⟩ | ⟨hsleep, -⟩
    · exact absurd ((hs.pc q).symm.trans hj) (by simp)
    · exact absurd ((hs.sleeping q).symm.trans hsleep) (by simp)

/-- If no writer gives up after it has stored bytes, a process sleeps only for a
reason. -/
theorem pipe_wakeups {s₀ : State n} {es : List (Event n)} (hstart : Start s₀)
    (hok : (system n).Meets Patient s₀ es) (hrun : (system n).run s₀ es = some s)
    (hlock : s.lock = none) (q : Fin n) (hq : s.sleeping q = true) :
    (s.chan q = some .nread → s.pipe.nread = s.pipe.nwrite ∧ s.pipe.writeopen = true) ∧
    (s.chan q = some .nwrite → s.pipe.nwrite = s.pipe.nread + BitVec.ofNat 32 PIPESIZE ∧
      s.pipe.readopen = true) := by
  have hheard : Heard s := hok.invariant
    (fun s e t hs hok hstep => (step_move hstep).heard hs hok) hstart.heard hrun
  exact ⟨fun hc => hheard.blocked_of_free hlock (Or.inr ⟨hq, hc⟩),
    fun hc => hheard.blocked_of_free hlock (Or.inr ⟨hq, hc⟩)⟩

instance decidablePatient (s : State n) : ∀ e, Decidable (Patient s e)
  | .step p =>
    match h : s.pc p with
    | .test (.write c i) true =>
      decidable_of_iff (s.pipe.Full → s.pipe.readopen = true ∧ s.killed p = false)
        ⟨fun hs _ _ _ => hs, fun hs => hs c i h⟩
    | .test (.write ..) false | .test (.read _) _ | .user | .acquire _ | .wake .. |
      .sleep _ | .fall _ | .asleep _ | .copy .. | .close _ | .done .. =>
      .isTrue fun _ _ hp => by rw [h] at hp; cases hp
  | .pipewrite .. | .piperead .. | .pipeclose .. | .kill _ | .fork _ => .isTrue trivial

/-! A reader falls asleep, and a writer fills the pipe. -/

section Filled

def reader : Fin 2 := ⟨1, Nat.one_lt_two⟩

def writer : Fin 2 := ⟨0, Nat.two_pos⟩

/-- One byte is read, and then the writer makes `k` steps with one byte too many for
the pipe. -/
def fill (k : ℕ) : List (Event 2) :=
  .piperead reader (fun _ => true) 1 :: List.replicate 4 (.step reader) ++
    .pipewrite writer (fun _ => some 0) 513 :: List.replicate k (.step writer)

theorem pipe_wakeups_fill : ∃ t, (system 2).run (newPipe 2) (fill 519) = some t ∧ t.lock = none ∧
      t.sleeping writer = true ∧ t.chan writer = some .nwrite ∧
      t.pipe.nwrite = t.pipe.nread + BitVec.ofNat 32 PIPESIZE := by
  have hok : (system 2).Meets Patient (newPipe 2) (fill 519) := by decide +kernel
  have hrun : ((system 2).run (newPipe 2) (fill 519)).any (fun t => decide
      (t.lock = none ∧ t.sleeping writer = true ∧ t.chan writer = some .nwrite)) =
      true := by
    decide +kernel
  obtain ⟨t, ht, hlock, hsleep, hchan⟩ := EventSystem.exists_of_any_run hrun
  have hfull := (pipe_wakeups start_newPipe hok ht hlock writer hsleep).2 hchan
  exact ⟨t, ht, hlock, hsleep, hchan, hfull.1⟩

/-- The writer has been killed.  It stores 512 bytes and returns, and the reader goes
on sleeping next to a full pipe. -/
theorem reader_sleeps_fill : Start (newPipe 2) ∧
    ∃ t, (system 2).run (newPipe 2) (.kill writer :: fill 514) = some t ∧
      t.lock = none ∧ t.sleeping reader = true ∧ t.chan reader = some .nread ∧
      t.pipe.nwrite = t.pipe.nread + BitVec.ofNat 32 PIPESIZE := by
  refine ⟨start_newPipe, ?_⟩
  exact EventSystem.exists_of_any_run (by decide +kernel)

end Filled

end OsCa.Pipes
