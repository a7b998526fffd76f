import OsCa.Kernel.Proc.Model

/-!
# What one step can do

Every event is one of the moves below.  Most places in the code are left by a
jump, which changes nothing but the place and keeps the same locks held; the
other moves say which slots they change.  The invariants of the following
modules go through these moves and never look at the code again.
-/

namespace OsCa.Process

open Function

variable {n : ℕ}

variable {q : Slot} {d : Fin n} {pc : Pc}

namespace State

variable (s : State n) (p : Slot) (c : Fin n)

@[simp] theorem modify_self (f : Proc n → Proc n) : (s.modify p f).proc p = f (s.proc p) :=
  update_self ..

theorem modify_of_ne (f : Proc n → Proc n) (h : q ≠ p) : (s.modify p f).proc q = s.proc q :=
  update_of_ne h ..

/-- A change that keeps the context of a slot. -/
theorem modify_context {f : Proc n → Proc n} (hf : (f (s.proc p)).context = (s.proc p).context) :
    ((s.modify p f).proc q).context = (s.proc q).context := by
  rcases eq_or_ne q p with rfl | hq
  · rw [modify_self, hf]
  · rw [modify_of_ne _ _ _ hq]

@[simp] theorem goto_proc (k : Code) : (s.goto c k).proc = s.proc := rfl

@[simp] theorem setCpu_proc (f : Cpu → Cpu) : (s.setCpu c f).proc = s.proc := rfl

@[simp] theorem record_proc (r : Record) : (s.record r).proc = s.proc := rfl

@[simp] theorem record_cpu (r : Record) : (s.record r).cpu = s.cpu := rfl

@[simp] theorem setCpu_self (f : Cpu → Cpu) : (s.setCpu c f).cpu c = f (s.cpu c) := update_self ..

@[simp] theorem goto_self (k : Code) : ((s.goto c k).cpu c).code = k := by
  simp [goto]

end State

/-- A place is left for another one and no slot changes. -/
inductive Jump (s : State n) (p : Slot) : Event → Pc → Pc → Prop where
  | fork : Jump s p .fork .user (.forkScan 0)
  | exit (st : CInt) (hp : p ≠ initproc) : Jump s p (.exit st) .user (.exitInit st)
  | wait (addr : Bool) : Jump s p (.wait addr) .user (.waitEnter addr)
  | kill (pid : CInt) : Jump s p (.kill pid) .user (.killScan pid 0)
  | forkNext (i : ℕ) : Jump s p .step (.forkScan i) (.forkScan (i + 1))
  | forkFull (i : ℕ) : Jump s p .step (.forkScan i) .user
  | exitParent (st : CInt) : Jump s p .step (.exitParent st) (.exitLockParent st (s.proc p).parent)
  | reparentNext (st : CInt) (o pp : Slot) (hpp : (s.proc pp).parent ≠ some p) :
      Jump s p .step (.reparent st o pp) (.reparent st o (pp + 1))
  | reparentFound (st : CInt) (o pp : Slot) (hpp : (s.proc pp).parent = some p) :
      Jump s p .step (.reparent st o pp) (.reparentChild st o pp)
  | waitNext (addr : Bool) (np : Slot) (havekids : Bool) (hnp : (s.proc np).parent ≠ some p) :
      Jump s p .step (.waitScan addr np havekids) (.waitScan addr (np + 1) havekids)
  | waitFound (addr : Bool) (np : Slot) (havekids : Bool) (hnp : (s.proc np).parent = some p) :
      Jump s p .step (.waitScan addr np havekids) (.waitChild addr np)
  | waitAlive (addr : Bool) (np : Slot) (hnp : (s.proc np).state ≠ .zombie) :
      Jump s p .step (.waitChild addr np) (.waitScan addr (np + 1) true)
  | killNext (pid : CInt) (i : ℕ) : Jump s p .step (.killScan pid i) (.killScan pid (i + 1))
  | killNone (pid : CInt) (i : ℕ) : Jump s p .step (.killScan pid i) .user

/-- A place is left by acquiring the lock of `q`. -/
inductive Acquires (s : State n) (p : Slot) : Slot → Pc → Pc → Prop where
  | forkFound (np : Slot) (hnp : (s.proc np).state = .unused) :
      Acquires s p np (.forkScan np) (.forkFound np)
  | exitParent (st : CInt) (o : Slot) :
      Acquires s p o (.exitLockParent st (some o)) (.exitLockSelf st o)
  | exitSelf (st : CInt) (o : Slot) : Acquires s p p (.exitLockSelf st o) (.reparent st o 0)
  | wait (addr : Bool) : Acquires s p p (.waitEnter addr) (.waitScan addr 0 false)

/-- `wait` returns -1. -/
inductive GivesUp (s : State n) : Pc → Prop where
  | done (addr : Bool) (i : ℕ) (havekids : Bool) : GivesUp s (.waitScan addr i havekids)
  | copyout (np : Slot) : GivesUp s (.waitChild true np)

/-- The place at which a process continues after `sched`, when it gives up its
lock. -/
def Resume.place : Resume → Option Pc
  | .forkret | .sleep => some .user
  | .yield pc => some pc
  | .wait _ | .dead => none

/-- One event on CPU `c`. -/
inductive Move (s : State n) (c : Fin n) : Event → State n → Prop where
  | wakeup (q : Slot) (chan : Chan) (hq : (s.proc q).lock = none) :
      Move s c (.wakeup q chan) (s.modify q (Proc.wakeup chan))
  -- The scheduler.
  | skip (p : Slot) (hc : (s.cpu c).code = .scan p) : Move s c .step (s.goto c (.scan (nextSlot p)))
  | pick (p : Slot) (hc : (s.cpu c).code = .scan p)
      (hlock : (s.proc p).lock = none) (hp : (s.proc p).state = .runnable) :
      Move s c .step ((s.modify p fun q => { q with lock := some c, state := .running }).setCpu
          c fun cpu => { cpu with proc := some p, code := .picked p })
  | saveCpu (p : Slot) (hc : (s.cpu c).code = .picked p) : Move s c .step (s.setCpu c fun cpu =>
      { cpu with context := .saved p, code := .loading p })
  | load (p : Slot) (r : Resume) (hc : (s.cpu c).code = .loading p)
      (hp : (s.proc p).context = .saved r) :
      Move s c .step ((s.modify p fun q => { q with context := .stale }).goto c (.resumed p r))
  | loadStale (p : Slot) (hc : (s.cpu c).code = .loading p) (hp : (s.proc p).context = .stale) :
      Move s c .step (s.goto c .wild)
  | save (p : Slot) (r : Resume) (hc : (s.cpu c).code = .sched p r) :
      Move s c .step ((s.modify p fun q => { q with context := .saved r }).goto c (.leaving p))
  | loadCpu (p q : Slot) (hc : (s.cpu c).code = .leaving p) (hq : (s.cpu c).context = .saved q) :
      Move s c .step (s.setCpu c fun cpu =>
      { cpu with context := .stale, code := .back q })
  | loadCpuStale (p : Slot) (hc : (s.cpu c).code = .leaving p) (hq : (s.cpu c).context = .stale) :
      Move s c .step (s.goto c .wild)
  | back (p : Slot) (hc : (s.cpu c).code = .back p) :
      Move s c .step ((s.modify p Proc.release).setCpu c fun cpu =>
      { cpu with proc := none, code := .scan (nextSlot p) })
  -- Giving up the CPU and coming back.
  | yield (p : Slot) (pc : Pc) (hc : (s.cpu c).code = .run p pc)
      (hpc : pc.Interruptible) (hlock : (s.proc p).lock = none) :
      Move s c .yield ((s.modify p fun q => { q with lock := some c, state := .runnable }).goto
          c (.sched p (.yield pc)))
  | sleep (p : Slot) (k : ℕ) (hc : (s.cpu c).code = .run p .user) (hlock : (s.proc p).lock = none) :
      Move s c (.sleep k) ((s.modify p fun q =>
        { q with
          lock := some c
          chan := some (.other k)
          state := .sleeping }).goto c (.sched p .sleep))
  | waitSleep (p : Slot) (addr : Bool) (i : ℕ) (havekids : Bool)
      (hc : (s.cpu c).code = .run p (.waitScan addr i havekids))
      (hi : NPROC ≤ i) :
      Move s c .step ((s.modify p fun q =>
        { q with chan := some (.proc p), state := .sleeping }).goto c
          (.sched p (.wait addr)))
  | resume (p : Slot) (r : Resume) (pc : Pc) (f : Proc n → Proc n)
      (hc : (s.cpu c).code = .resumed p r) (hpc : r.place = some pc)
      (hf : ∃ chan, f (s.proc p) =
        { s.proc p with chan := chan, lock := none }) :
      Move s c .step ((s.modify p f).goto c (.run p pc))
  | resumeWait (p : Slot) (addr : Bool) (hc : (s.cpu c).code = .resumed p (.wait addr)) :
      Move s c .step ((s.modify p fun q => { q with chan := none }).goto c
        (.run p (.waitScan addr 0 false)))
  -- System calls.
  | jump (p : Slot) (e : Event) (pc pc' : Pc) (hc : (s.cpu c).code = .run p pc)
      (hj : Jump s p e pc pc') : Move s c e (s.goto c (.run p pc'))
  | acquire (p q : Slot) (pc pc' : Pc) (hc : (s.cpu c).code = .run p pc)
      (hlock : (s.proc q).lock = none) (ha : Acquires s p q pc pc') :
      Move s c .step ((s.modify q (Proc.acquire c)).goto c (.run p pc'))
  | allocpid (p np : Slot) (hc : (s.cpu c).code = .run p (.forkFound np)) : Move s c .step
        { (s.modify np fun q => { q with pid := s.nextpid }).goto c
          (.run p (.forkFill np)) with nextpid := s.nextpid + 1 }
  | noTrapframe (p np : Slot) (hc : (s.cpu c).code = .run p (.forkFill np)) :
      Move s c (.alloc .noTrapframe) ((s.modify np Proc.release).goto c (.run p .user))
  | forkFails (p np : Slot) (a : Alloc) (hc : (s.cpu c).code = .run p (.forkFill np)) :
      Move s c (.alloc a) ((s.modify np fun q => q.freeproc.release).goto c (.run p .user))
  | fork (p np : Slot) (hc : (s.cpu c).code = .run p (.forkFill np)) :
      Move s c (.alloc .enough) (((s.modify np fun q =>
        { q with
          context := .saved .forkret
          parent := some p
          state := .runnable
          lock := none }).goto c (.run p .user)).record (.forked p np (s.proc np).pid))
  | wakeInit (p : Slot) (st : CInt) (hc : (s.cpu c).code = .run p (.exitInit st))
      (hlock : (s.proc initproc).lock = none) :
      Move s c .step ((s.modify initproc (Proc.wakeup (.proc initproc))).goto c
        (.run p (.exitParent st)))
  | adopt (p : Slot) (st : CInt) (o pp : Slot)
      (hc : (s.cpu c).code = .run p (.reparentChild st o pp))
      (hlock : (s.proc pp).lock = none) :
      Move s c .step (((s.modify pp fun q => { q with parent := some initproc }).goto c
          (.run p (.reparent st o (pp + 1)))).record (.adopted pp))
  | die (p : Slot) (st : CInt) (o : Slot) (i : ℕ)
      (hc : (s.cpu c).code = .run p (.reparent st o i)) (hi : NPROC ≤ i) :
      Move s c .step ((((s.modify o fun q => (q.wakeup (.proc o)).release).modify p fun q =>
          { q with xstate := st, state := .zombie }).goto c
            (.sched p .dead)).record (.exited p st))
  | giveUp (p : Slot) (e : Event) (pc : Pc) (hc : (s.cpu c).code = .run p pc) (hpc : GivesUp s pc) :
      Move s c e ((s.modify p Proc.release).goto c (.run p .user))
  | reap (p : Slot) (addr : Bool) (np : Slot) (hc : (s.cpu c).code = .run p (.waitChild addr np))
      (hlock : (s.proc np).lock = none) (hnp : (s.proc np).state = .zombie) :
      Move s c .step ((((s.modify np Proc.freeproc).modify p Proc.release).goto c
          (.run p .user)).record (.waited p np (s.proc np).pid
            (if addr then some (s.proc np).xstate else none)))
  | kill (p : Slot) (pid : CInt) (q : Slot) (hc : (s.cpu c).code = .run p (.killScan pid q))
      (hlock : (s.proc q).lock = none) (hpid : (s.proc q).pid = pid) :
      Move s c .step (((s.modify q Proc.kill).goto c (.run p .user)).record (.killed pid))

variable {s t : State n} {c : Fin n} {p : Slot} {e : Event}

@[simp] theorem Proc.wakeup_lock (x : Proc n) (chan : Chan) : (x.wakeup chan).lock = x.lock := by
  unfold Proc.wakeup
  split <;> rfl

@[simp] theorem Proc.wakeup_context (x : Proc n) (chan : Chan) :
    (x.wakeup chan).context = x.context := by
  unfold Proc.wakeup
  split <;> rfl

theorem guarded_eq_some_iff {u : State n} :
    s.guarded p u = some t ↔ (s.proc p).lock = none ∧ u = t := by
  unfold State.guarded
  split
  all_goals simp_all

theorem schedulerStep_move (hc : (s.cpu c).code = .scan p)
    (h : schedulerStep s c p = some t) : Move s c .step t := by
  obtain ⟨hlock, rfl⟩ := guarded_eq_some_iff.mp h
  split
  next hp => exact .pick p hc hlock hp
  next => exact .skip p hc

section

variable (hc : (s.cpu c).code = .run p pc)

include hc

theorem forkStep_move (h : forkStep s c p pc e = some t) : Move s c e t := by
  unfold forkStep at h
  split at h
  · split at h
    next i hi =>
      obtain ⟨hlock, rfl⟩ := guarded_eq_some_iff.mp h
      split
      next hnp => exact .acquire p ⟨i, hi⟩ _ _ hc hlock (.forkFound ⟨i, hi⟩ hnp)
      next => exact .jump p _ _ _ hc (.forkNext i)
    next =>
      cases h
      exact .jump p _ _ _ hc (.forkFull _)
  · cases h
    exact .allocpid p _ hc
  · cases h
    exact .noTrapframe p _ hc
  · cases h
    exact .forkFails p _ _ hc
  · cases h
    exact .forkFails p _ _ hc
  · cases h
    exact .fork p _ hc
  · cases h

theorem exitStep_move (h : exitStep s c p pc = some t) : Move s c .step t := by
  unfold exitStep at h
  split at h
  · obtain ⟨hlock, rfl⟩ := guarded_eq_some_iff.mp h
    exact .wakeInit p _ hc hlock
  · obtain ⟨-, rfl⟩ := guarded_eq_some_iff.mp h
    exact .jump p _ _ _ hc (.exitParent _)
  · obtain ⟨hlock, rfl⟩ := guarded_eq_some_iff.mp h
    exact .acquire p _ _ _ hc hlock (.exitParent _ _)
  · obtain ⟨hlock, rfl⟩ := guarded_eq_some_iff.mp h
    exact .acquire p p _ _ hc hlock (.exitSelf _ _)
  · split at h
    next st o i hi =>
      split at h
      next hpp =>
        cases h
        exact .jump p _ _ _ hc (.reparentFound st o ⟨i, hi⟩ hpp)
      next hpp =>
        cases h
        exact .jump p _ _ _ hc (.reparentNext st o ⟨i, hi⟩ hpp)
    next hi =>
      cases h
      exact .die p _ _ _ hc (Nat.le_of_not_lt hi)
  · obtain ⟨hlock, rfl⟩ := guarded_eq_some_iff.mp h
    exact .adopt p _ _ _ hc hlock
  · cases h

theorem waitStep_move (h : waitStep s c p pc e = some t) : Move s c e t := by
  unfold waitStep at h
  split at h
  · obtain ⟨hlock, rfl⟩ := guarded_eq_some_iff.mp h
    exact .acquire p p _ _ hc hlock (.wait _)
  · split at h
    next addr i havekids hi =>
      split at h
      next hnp =>
        cases h
        exact .jump p _ _ _ hc (.waitFound addr ⟨i, hi⟩ havekids hnp)
      next hnp =>
        cases h
        exact .jump p _ _ _ hc (.waitNext addr ⟨i, hi⟩ havekids hnp)
    next hi =>
      split at h
      next =>
        cases h
        exact .giveUp p _ _ hc (.done _ _ _)
      next =>
        cases h
        exact .waitSleep p _ _ _ hc (Nat.le_of_not_lt hi)
  · obtain ⟨hlock, rfl⟩ := guarded_eq_some_iff.mp h
    split
    next hnp => exact .reap p _ _ hc hlock hnp
    next hnp => exact .jump p _ _ _ hc (.waitAlive _ _ hnp)
  · split at h
    next =>
      obtain ⟨-, rfl⟩ := guarded_eq_some_iff.mp h
      exact .giveUp p _ _ hc (.copyout _)
    next => cases h
  · cases h

theorem killStep_move (h : killStep s c p pc = some t) : Move s c .step t := by
  unfold killStep at h
  split at h
  · split at h
    next pid i hi =>
      obtain ⟨hlock, rfl⟩ := guarded_eq_some_iff.mp h
      split
      next hpid => exact .kill p pid ⟨i, hi⟩ hc hlock hpid
      next => exact .jump p _ _ _ hc (.killNext pid i)
    next =>
      cases h
      exact .jump p _ _ _ hc (.killNone _ _)
  · cases h

end

theorem userStep_move (hc : (s.cpu c).code = .run p .user)
    (h : userStep s c p e = some t) : Move s c e t := by
  unfold userStep at h
  split at h
  · cases h
    exact .jump p _ _ _ hc .fork
  · split at h
    next => cases h
    next hp =>
      cases h
      exact .jump p _ _ _ hc (.exit _ hp)
  · cases h
    exact .jump p _ _ _ hc (.wait _)
  · cases h
    exact .jump p _ _ _ hc (.kill _)
  · obtain ⟨hlock, rfl⟩ := guarded_eq_some_iff.mp h
    exact .sleep p _ hc hlock
  · cases h

theorem runStep_move (hc : (s.cpu c).code = .run p pc)
    (h : runStep s c p pc e = some t) : Move s c e t := by
  unfold runStep at h
  split at h
  · split at h
    next hpc =>
      obtain ⟨hlock, rfl⟩ := guarded_eq_some_iff.mp h
      exact .yield p pc hc hpc hlock
    next => cases h
  · split at h
    · exact userStep_move hc h
    · exact forkStep_move hc h
    · exact forkStep_move hc h
    · exact forkStep_move hc h
    · exact waitStep_move hc h
    · exact waitStep_move hc h
    · exact waitStep_move hc h
    · split at h
      next he => exact he ▸ killStep_move hc h
      next => cases h
    · split at h
      next he => exact he ▸ exitStep_move hc h
      next => cases h

theorem resumeStep_move {r : Resume} (hc : (s.cpu c).code = .resumed p r)
    (h : resumeStep s c p r = some t) : Move s c .step t := by
  unfold resumeStep at h
  split at h
  · cases h
    exact .resume p _ .user _ hc rfl ⟨_, rfl⟩
  · cases h
    exact .resume p _ _ _ hc rfl ⟨_, rfl⟩
  · cases h
    exact .resume p _ .user _ hc rfl ⟨_, rfl⟩
  · cases h
    exact .resumeWait p _ hc
  · cases h

theorem switchStep_move {k : Code} (hc : (s.cpu c).code = k)
    (h : switchStep s c k = some t) : Move s c .step t := by
  unfold switchStep at h
  split at h
  · cases h
    exact .saveCpu _ hc
  · split at h
    next r hp =>
      cases h
      exact .load _ r hc hp
    next hp =>
      cases h
      exact .loadStale _ hc hp
  · cases h
    exact .save _ _ hc
  · split at h
    next q hq =>
      cases h
      exact .loadCpu _ q hc hq
    next hq =>
      cases h
      exact .loadCpuStale _ hc hq
  · cases h
    exact .back _ hc
  · cases h

/-- Every event is one of the moves. -/
theorem step_move (h : step s (c, e) = some t) : Move s c e t := by
  unfold step at h
  dsimp only at h
  split at h
  · obtain ⟨hlock, rfl⟩ := guarded_eq_some_iff.mp h
    exact .wakeup _ _ hlock
  · split at h
    next hc => exact runStep_move hc h
    next hc =>
      split at h
      next he => exact he ▸ schedulerStep_move hc h
      next => cases h
    next hc =>
      split at h
      next he => exact he ▸ resumeStep_move hc h
      next => cases h
    next hc =>
      split at h
      next he => exact he ▸ switchStep_move rfl h
      next => cases h

/-! ## Places -/

theorem Move.cpu_of_ne (hm : Move s c e t) (hd : d ≠ c) : t.cpu d = s.cpu d := by
  cases hm <;> first | rfl | exact update_of_ne hd ..

/-- The place at which a process is, or at which it continues after a timer
interrupt. -/
def Code.place : Code → Option (Slot × Pc)
  | .run p pc | .sched p (.yield pc) | .resumed p (.yield pc) => some (p, pc)
  | _ => none

def At (s : State n) (p : Slot) (pc : Pc) : Prop :=
  (∃ c, (s.cpu c).code.place = some (p, pc)) ∨ (s.proc p).context = .saved (.yield pc)

theorem At.of_code (hc : (s.cpu c).code.place = some (p, pc)) : At s p pc := Or.inl ⟨c, hc⟩

/-- Contexts are saved by `sched`, and `fork` makes one that starts in
`forkret`. -/
theorem Move.at_of_context (hm : Move s c e t)
    (hq : (t.proc q).context = .saved (.yield pc)) : At s q pc := by
  have hmodify : ∀ {x : Slot} {f : Proc n → Proc n},
      ((s.modify x f).proc q).context = .saved (.yield pc) →
      ((f (s.proc x)).context = .saved (.yield pc) → At s x pc) → At s q pc := by
    intro x f hx hf
    rcases eq_or_ne q x with rfl | hqx
    · exact hf (by simpa using hx)
    · rw [State.modify_of_ne _ _ _ hqx] at hx
      exact Or.inr hx
  cases hm with
  | skip | saveCpu | loadStale | loadCpu | loadCpuStale | jump => exact Or.inr hq
  | die | reap =>
    refine Or.inr (Eq.trans ?_ hq)
    rw [State.record_proc, State.goto_proc, State.modify_context, State.modify_context] <;>
      simp [Proc.release, Proc.freeproc]
  | load x r hc _ =>
    rw [State.goto_proc] at hq
    exact hmodify hq (by simp)
  | save x r hc =>
    rw [State.goto_proc] at hq
    refine hmodify hq fun hx => ?_
    cases hx
    exact .of_code (c := c) (by rw [hc]; rfl)
  | fork x np hc =>
    rw [State.record_proc, State.goto_proc] at hq
    exact hmodify hq (by simp)
  | wakeup x chan _ => exact hmodify hq fun hx => Or.inr (by simpa using hx)
  | wakeInit x st hc _ =>
    rw [State.goto_proc] at hq
    exact hmodify hq fun hx => Or.inr (by simpa using hx)
  | resume x r pc' f hc hpc hf =>
    obtain ⟨chan, hf⟩ := hf
    rw [State.goto_proc] at hq
    exact hmodify hq fun hx => Or.inr (by rwa [hf] at hx)
  | _ =>
    simp only [State.goto_proc, State.setCpu_proc, State.record_proc] at hq
    exact hmodify hq fun hx => Or.inr hx

/-- A process that moves on gets a new place; every other place is an old
one. -/
theorem Move.at_of_place (hm : Move s c e t) (hq : (t.cpu c).code.place = some (q, pc)) :
    At s q pc ∨ (t.cpu c).code = .run q pc := by
  cases hk : (t.cpu c).code with
  | run x pc' =>
    rw [hk] at hq
    cases hq
    exact Or.inr rfl
  | sched x r =>
    rw [hk] at hq
    cases r <;> cases hq
    cases hm with
    | wakeup =>
      have hk' : (s.cpu c).code = .sched q (.yield pc) := hk
      exact Or.inl (.of_code (c := c) (by rw [hk']; rfl))
    | yield x pc' hc hpc hlock =>
      rw [State.goto_self] at hk
      cases hk
      exact Or.inl (.of_code (c := c) (by rw [hc]; rfl))
    | _ => simp [State.goto, State.setCpu, State.record] at hk
  | resumed x r =>
    rw [hk] at hq
    cases r <;> cases hq
    cases hm with
    | wakeup =>
      have hk' : (s.cpu c).code = .resumed q (.yield pc) := hk
      exact Or.inl (.of_code (c := c) (by rw [hk']; rfl))
    | load x r hc hp =>
      rw [State.goto_self] at hk
      cases hk
      exact Or.inl (Or.inr hp)
    | _ => simp [State.goto, State.setCpu, State.record] at hk
  | _ =>
    rw [hk] at hq
    cases hq

end OsCa.Process
