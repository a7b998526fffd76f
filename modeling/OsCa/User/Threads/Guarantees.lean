import OsCa.User.Threads.Refinement

/-!
# What the threads library guarantees

The four guarantees of the library hold in every reachable state of the
machine: the ring is a round-robin queue, contexts survive switches, threads
get their first turns in a fixed order, and memory is given back exactly once.
Each is read off the scheduler through the refinement.
-/

namespace OsCa.Threads

open Lib List Option

variable {trace : List Obs} {σ : Sched} {q : List Word} {code : Code} {s s' : State}
  {i : ℕ}

/-! ## A run of two threads

Main creates and adds threads 1 and 2 and starts the library.  Both threads
yield once and exit. -/

def sampleCode : Code := ⟨0x10, 0x20, 0x30, by decide, by decide, by decide⟩

def sampleStart : State := startState (fun _ => ⟨0, 0, 0, 0, fun _ => 0, 0, 0, 0, 0, 0⟩)
    ⟨⟨fun _ => 0, 0, 0⟩, 0, 0⟩ (fun _ => 0)

/-- A frame whose registers all hold `v`. -/
def sampleFrame (v : Word) : (Fin 12 → Word) × Word := (fun _ => v, v)

def sampleSetup : List Event :=
  [.threadCreate 0x100 7 0x1000 0x2000, .threadCreate 0x200 8 0x3000 0x4000,
    .threadAddRunqueue 0x1000, .threadAddRunqueue 0x3000,
    .threadStartThreading (sampleFrame 5)]

def sampleEvents : List Event := sampleSetup ++ [.proceed (sampleFrame 1), .proceed (sampleFrame 1),
      .proceed (sampleFrame 1), .threadYield (sampleFrame 2),
      .proceed (sampleFrame 1), .proceed (sampleFrame 1),
      .proceed (sampleFrame 1), .threadYield (sampleFrame 3),
      .proceed (sampleFrame 1), .proceed (sampleFrame 1),
      .threadExit (sampleFrame 4), .proceed (sampleFrame 1),
      .threadExit (sampleFrame 4), .proceed (sampleFrame 1)]

/-- The state after the first `n` events of the run. -/
def sampleState (n : ℕ) : State :=
  ((system sampleCode).run sampleStart (sampleEvents.take n)).getD sampleStart

theorem sampleState_reachable (n : ℕ) : (system sampleCode).Reachable (sampleState n) := by
  have hall : ((system sampleCode).run sampleStart sampleEvents).isSome := by decide +kernel
  obtain ⟨s, hs⟩ := isSome_iff_exists.mp (EventSystem.isSome_run_take _ hall n)
  refine ⟨sampleStart, sampleEvents.take n, ⟨_, _, _, rfl⟩, ?_⟩
  rw [sampleState, hs]
  rfl

/-! ## The round-robin queue -/

/-- The queue operations: adding appends, `schedule` rotates the head to the
tail, and exiting drops the head. -/
def Obs.onQueue (q : List ℕ) : Obs → List ℕ
  | .add i => q ++ [i]
  | .schedule => q.rotate 1
  | .exit _ => q.tail
  | _ => q

/-- The abstract queue after a sequence of observations. -/
def abstractQueue (trace : List Obs) : List ℕ := trace.foldl Obs.onQueue []

theorem Accepted.queue_eq (h : Accepted trace σ) : σ.queue = abstractQueue trace := by
  refine EventSystem.run_history (P := fun tr σ => σ.queue = abstractQueue tr) rfl ?_ h
  intro tr σ o τ hσ hstep
  obtain ⟨-, rfl⟩ := scheduler_step_eq_some_iff.mp hstep
  rw [abstractQueue, foldl_append, ← abstractQueue, ← hσ]
  cases o <;> rfl

/-- The ring of the library is the abstract queue. -/
structure RingIs (L : Lib) (q : List Word) : Prop where
  current : L.currentThread = q.headD NULL
  empty : L.currentThread = NULL ↔ q = []
  nodup : q.Nodup
  walk : ∀ i (hi : i < q.length), L.next^[i] L.currentThread = q[i]
  back : q ≠ [] → L.next^[q.length] L.currentThread = L.currentThread
  inverse : ∀ t ∈ q, L.previous (L.next t) = t ∧ L.next (L.previous t) = t ∧
    L.next t ∈ q ∧ L.previous t ∈ q

theorem Lib.Queue.ringIs {L : Lib} (h : L.Queue q) : RingIs L q := by
  refine ⟨h.current, h.current_eq_null_iff, h.ring.nodup, ?_, ?_, fun t ht => h.ring.inverse ht⟩
  all_goals rw [h.current]
  · cases q with
    | nil => simp
    | cons x l => exact h.ring.iterate_next.1
  · cases q with
    | nil => simp
    | cons x l => exact fun _ => h.ring.iterate_next.2

/-- In every reachable state, the ring lists the threads of the abstract queue
in order; the three operations on rings act as they do on queues; and between
a thread's yield and its next turn, exactly the other threads of the queue
get a turn, once each and in order. -/
theorem round_robin_refinement {code : Code} {s : State} (h : (system code).Reachable s) :
    (∃ q, RingIs s.lib q ∧ (q.map fun t => (s.lib.mem t).tag) = abstractQueue s.trace) ∧
    (∀ (L : Lib) (q : List Word), L.Queue q → (∀ t, t ∉ q → t ≠ NULL →
        (L.threadAddRunqueue t).Queue (q ++ [t])) ∧
      (q ≠ [] → L.schedule.Queue (q.rotate 1) ∧ L.threadExit.Queue q.tail)) ∧
    (∀ pre i c mid o post, s.trace = pre ++ .yield i c :: (mid ++ o :: post) →
      o.dispatched = some i → (∀ o' ∈ mid, o'.dispatched ≠ some i) →
      abstractQueue pre = i :: mid.filterMap Obs.dispatched ∧
        (mid.filterMap Obs.dispatched).Nodup) := by
  obtain ⟨σ, q, hcoupled⟩ := coupled_reachable h
  refine ⟨⟨q, hcoupled.core.ring.ringIs, ?_⟩, ?_, ?_⟩
  · rw [← hcoupled.core.accepted.queue_eq, hcoupled.core.queue]
  · intro L q hq
    refine ⟨fun t ht hnull => hq.threadAddRunqueue ht hnull, fun hne => ?_⟩
    cases q with
    | nil => exact absurd rfl hne
    | cons x l => exact ⟨by simpa using hq.schedule, hq.threadExit⟩
  · intro pre i c mid o post htrace ho hmid
    have haccepted := hcoupled.core.accepted
    rw [htrace] at haccepted
    obtain ⟨ρ, l, hpre, hqueue, hl⟩ := haccepted.turns ho hmid
    have hnodup := hpre.ok.nodup
    rw [hqueue, nodup_cons] at hnodup
    rw [← hpre.queue_eq, hqueue, hl]
    exact ⟨rfl, hnodup.2⟩

theorem round_robin_refinement_sample :
    (sampleState 19).trace.filterMap Obs.dispatched = [2, 1, 2, 1] ∧
      ∃ q, RingIs (sampleState 12).lib q ∧
        (q.map fun t => ((sampleState 12).lib.mem t).tag) = [1, 2] := by
  refine ⟨by decide +kernel, ?_⟩
  obtain ⟨q, hring, hq⟩ := (round_robin_refinement (sampleState_reachable 12)).1
  exact ⟨q, hring, hq.trans (by decide +kernel)⟩

/-! ## Contexts -/

/-- Saved contexts return to the call of `setjmp` that saved them. -/
def Obs.SavedAt (code : Code) : Obs → Prop
  | .yield _ c => c.ra = code.yieldRet
  | .start c => c.ra = code.startRet
  | _ => True

theorem trace_dispatch (code : Code) (frame : (Fin 12 → Word) × Word)
    (s : State) : (s.dispatch code frame).trace = s.trace := by
  unfold State.dispatch
  split <;> rfl

/-- What the code after a call of `setjmp` does: it leaves the library, chooses
the next thread, or starts a thread that has not run before. -/
theorem proceed_cases {frame : (Fin 12 → Word) × Word} (h : s.proceed code frame = some s') :
    (∃ m o, s' = { s with mode := m }.observe o ∧ m ≠ .returning ∧ o.SavedAt code) ∨
    (s.regs.a0 = 0 ∧ s.regs.pc ≠ code.dispatchRet ∧ s' = s.schedule.dispatch code frame) ∨
    (s.regs.a0 = 0 ∧ s.regs.pc = code.dispatchRet ∧
      ∃ L, s' = { s with lib := L }.longjmpCurrent) := by
  unfold State.proceed at h
  split at h
  next hpc =>
    split at h <;> obtain rfl := some.inj h
    next => exact Or.inl ⟨.thread, _, rfl, nofun, trivial⟩
    next ha0 => exact Or.inr (Or.inl ⟨not_not.mp ha0, hpc ▸ code.yield_ne_dispatch, rfl⟩)
  next =>
    split at h
    next hpc =>
      split at h <;> obtain rfl := some.inj h
      next => exact Or.inl ⟨.thread, _, rfl, nofun, trivial⟩
      next ha0 => exact Or.inr (Or.inr ⟨not_not.mp ha0, hpc, _, rfl⟩)
    next hne =>
      split at h
      next =>
        split at h <;> obtain rfl := some.inj h
        next => exact Or.inl ⟨.main, _, rfl, nofun, trivial⟩
        next ha0 => exact Or.inr (Or.inl ⟨not_not.mp ha0, hne, rfl⟩)
      next => cases h

/-- A step adds at most one observation to the trace. -/
theorem trace_step {e : Event} (h : step code s e = some s') :
    s'.trace = s.trace ∨ ∃ o : Obs, s'.trace = s.trace ++ [o] ∧ o.SavedAt code := by
  cases e
  all_goals
    simp only [step, ite_none_right_eq_some, some.injEq] at h
    obtain ⟨-, h⟩ := h
  case proceed frame =>
    rcases proceed_cases h with ⟨m, o, rfl, -, ho⟩ | ⟨-, -, rfl⟩ | ⟨-, -, L, rfl⟩
    · exact Or.inr ⟨o, rfl, ho⟩
    · exact Or.inr ⟨.schedule, trace_dispatch code frame _, trivial⟩
    · exact Or.inl rfl
  all_goals subst s'
  case threadCreate | threadAddRunqueue => exact Or.inr ⟨_, rfl, trivial⟩
  case threadStartThreading | threadYield => exact Or.inr ⟨_, rfl, rfl⟩
  case threadExit frame =>
    refine Or.inr ⟨.exit s.current.tag, ?_, trivial⟩
    unfold State.threadExit
    dsimp only
    split
    · exact trace_dispatch code frame _
    · rfl

theorem savedAt_reachable (h : (system code).Reachable s) : ∀ o ∈ s.trace, o.SavedAt code := by
  refine h.invariant (P := fun s => ∀ o ∈ s.trace, o.SavedAt code) ?_ ?_
  · rintro s ⟨mem, regs, envSt, rfl⟩
    simp [startState]
  · intro s e s' ih hstep
    rcases trace_step hstep with htrace | ⟨o, htrace, ho⟩
    · rwa [htrace]
    · rw [htrace]
      exact forall_mem_append.mpr ⟨ih, forall_mem_singleton.mpr ho⟩

/-- How many times library code still has to return from `setjmp` or `longjmp`
before main or a thread is in control. -/
def State.rank (code : Code) (s : State) : ℕ := if s.mode ≠ .returning then 0
  else if s.regs.a0 ≠ 0 then 1
  else if s.regs.pc = code.dispatchRet then 2
  else 3

theorem rank_pos (code : Code) (h : s.mode = .returning) : 0 < s.rank code := by
  unfold State.rank
  rw [if_neg (not_not.mpr h)]
  split_ifs <;> omega

theorem rank_longjmpCurrent (code : Code) (s : State) : s.longjmpCurrent.rank code ≤ 1 := by
  have ha0 : s.longjmpCurrent.regs.a0 = 1 := rfl
  unfold State.rank
  rw [ha0]
  split
  · omega
  · rw [if_pos (by decide)]

theorem rank_dispatch (code : Code) (frame : (Fin 12 → Word) × Word)
    (s : State) : (s.dispatch code frame).rank code ≤ 2 := by
  unfold State.dispatch
  split
  · simp [State.rank, State.setjmpCurrent]
  · exact (rank_longjmpCurrent code s).trans (by omega)

theorem rank_proceed {frame : (Fin 12 → Word) × Word} (hmode : s.mode = .returning)
    (h : s.proceed code frame = some s') : s'.rank code < s.rank code := by
  rcases proceed_cases h with ⟨m, o, rfl, hm, -⟩ | ⟨ha0, hpc, rfl⟩ | ⟨ha0, hpc, L, rfl⟩
  · have hrank : ({ s with mode := m }.observe o).rank code = 0 := by
      simp [State.rank, State.observe, hm]
    rw [hrank]
    exact rank_pos code hmode
  · refine (rank_dispatch code frame _).trans_lt ?_
    simp [State.rank, hmode, ha0, hpc]
  · refine (rank_longjmpCurrent code _).trans_lt ?_
    simp [State.rank, hmode, ha0, hpc]

/-- The library always hands control back, after at most three returns. -/
theorem Coupled.settles {s : State} {σ : Sched} {q : List Word} (h : Coupled code s σ q)
    (frame : (Fin 12 → Word) × Word) :
    ∃ n ≤ s.rank code, ∃ s', (system code).run s (replicate n (.proceed frame)) = some s' ∧
        s'.mode ≠ .returning := by
  by_cases hmode : s.mode = .returning
  case neg => exact ⟨0, Nat.zero_le _, s, rfl, hmode⟩
  obtain ⟨s₁, hs₁, σ₁, q₁, hcoupled⟩ := h.proceed frame hmode
  have hlt := rank_proceed hmode hs₁
  obtain ⟨n, hn, s', hrun, hs'⟩ := hcoupled.settles frame
  refine ⟨n + 1, by omega, s', ?_, hs'⟩
  rw [replicate_succ, EventSystem.run_cons]
  have hstep : (system code).step s (.proceed frame) = some s₁ := (if_pos hmode).trans hs₁
  rw [hstep]
  exact hrun
termination_by s.rank code

theorem State.rank_le_three (code : Code) (s : State) : s.rank code ≤ 3 := by
  unfold State.rank
  split_ifs <;> omega

/-- The scheduler goes back to main only right after an exit. -/
theorem Accepted.exit_of_finishing (h : Accepted trace σ)
    (hphase : σ.phase = .finishing) : ∃ u i, trace = u ++ [.exit i] := by
  refine EventSystem.run_history
    (P := fun tr σ => σ.phase = .finishing → ∃ u i, tr = u ++ [.exit i])
    (by simp [Sched.start]) ?_ h hphase
  intro tr σ o τ _ hstep hfinishing
  obtain ⟨hallows, rfl⟩ := scheduler_step_eq_some_iff.mp hstep
  cases o with
  | exit i => exact ⟨tr, i, rfl⟩
  | create | add =>
    have hsame : σ.phase = .finishing := hfinishing
    rcases hallows.1 with hσ | hσ <;> rw [hσ] at hsame <;> cases hsame
  | start | yield | schedule | enter | resume | finish => cases hfinishing

/-- Once the last thread has exited, the next step returns to main. -/
theorem Coupled.finish (h : Coupled code s σ q) {u : List Obs}
    (htrace : s.trace = u ++ [.exit i]) (hnull : s.lib.currentThread = NULL)
    (frame : (Fin 12 → Word) × Word) :
    ∃ s' regs, Threads.step code s (.proceed frame) = some s' ∧
      s'.mode = .main ∧ s'.trace = s.trace ++ [.finish regs 1] := by
  obtain rfl := h.core.ring.current_eq_null_iff.mp hnull
  have haccepted := h.core.accepted
  rw [htrace] at haccepted
  obtain ⟨ρ, -, -, hrun⟩ := haccepted.split
  obtain rfl := some.inj hrun
  cases h.control with
  | main mode phase parked =>
    simp only [Sched.after] at phase
    split at phase <;> cases phase
  | finishing mode phase saved a0 pc =>
    refine ⟨{ s with mode := .main }.observe (.finish s.regs.toContext s.regs.a0), s.regs.toContext,
      (if_pos mode).trans ?_, rfl, ?_⟩
    · rw [State.proceed, pc, if_neg code.yield_ne_start.symm,
        if_neg code.dispatch_ne_start.symm, if_pos rfl,
        if_pos (by rw [a0]; decide)]
    · simp [State.observe, a0]

/-- In every reachable state: a thread's function was entered once, at its
first dispatch, with its own argument and `sp` at the top of its own stack;
every other dispatch of the thread resumed the context of its last
`thread_yield`, with `setjmp` returning 1; control came back to main with the
context that `thread_start_threading` had saved, right after an exit; and the
library never gets stuck on the way to main or a thread. -/
theorem contexts_preserved {code : Code} {s : State} (h : (system code).Reachable s) :
    (∀ pre i f arg sp post, s.trace = pre ++ .enter i f arg sp :: post →
      .create i f arg sp ∈ pre ∧ (∀ o ∈ pre, o.dispatched ≠ some i) ∧
        ∀ f' arg' sp', .enter i f' arg' sp' ∉ post) ∧
    (∀ pre i regs a0 post, s.trace = pre ++ .resume i regs a0 :: post →
      a0 = 1 ∧ regs.ra = code.yieldRet ∧ (∃ f arg sp, .enter i f arg sp ∈ pre) ∧
        ∃ u w, pre = u ++ .yield i regs :: w ∧ ∀ o ∈ w, o.thread ≠ some i) ∧
    (∀ pre regs a0 post, s.trace = pre ++ .finish regs a0 :: post →
      a0 = 1 ∧ regs.ra = code.startRet ∧ (∃ u i, pre = u ++ [.exit i]) ∧
        ∃ u w, pre = u ++ .start regs :: w ∧ ∀ o ∈ w, ¬ o.OfMain) ∧
    (∀ u i, s.trace = u ++ [.exit i] → s.lib.currentThread = NULL →
      ∀ frame, ∃ s' regs, step code s (.proceed frame) = some s' ∧
        s'.mode = .main ∧ s'.trace = s.trace ++ [.finish regs 1]) ∧
    (∀ frame, ∃ n ≤ 3, ∃ s', (system code).run s (replicate n (.proceed frame)) = some s' ∧
        s'.mode ≠ .returning) := by
  obtain ⟨σ, q, hcoupled⟩ := coupled_reachable h
  have haccepted := hcoupled.core.accepted
  have hsavedAt := savedAt_reachable h
  -- What the scheduler says about a thread at the moment it is entered.
  have hentry : ∀ pre i f arg sp post, s.trace = pre ++ .enter i f arg sp :: post →
      .create i f arg sp ∈ pre ∧ ∀ o ∈ pre, o.dispatched ≠ some i := by
    intro pre i f arg sp post htrace
    rw [htrace] at haccepted
    obtain ⟨ρ, hpre, hallows, -⟩ := haccepted.split
    have hlived := hpre.lived i
    rw [hallows.2.2] at hlived
    exact ⟨hlived.1, hlived.2.1⟩
  refine ⟨?_, ?_, ?_, ?_, ?_⟩
  · intro pre i f arg sp post htrace
    obtain ⟨hcreate, hfirst⟩ := hentry pre i f arg sp post htrace
    refine ⟨hcreate, hfirst, ?_⟩
    intro f' arg' sp' hagain
    obtain ⟨u, w, rfl⟩ := append_of_mem hagain
    have hlater := hentry (pre ++ .enter i f arg sp :: u) i f' arg' sp' w (by simp [htrace])
    exact hlater.2 (.enter i f arg sp) (by simp) rfl
  · intro pre i regs a0 post htrace
    rw [htrace] at haccepted
    obtain ⟨ρ, hpre, hallows, -⟩ := haccepted.split
    have hlived := hpre.lived i
    rw [hallows.2.2.1] at hlived
    obtain ⟨⟨f, arg, sp, -, henter⟩, -, u, w, rfl, hw⟩ := hlived
    refine ⟨hallows.2.2.2, ?_, ⟨f, arg, sp, henter⟩, u, w, rfl, hw⟩
    exact hsavedAt (.yield i regs) (by simp [htrace])
  · intro pre regs a0 post htrace
    rw [htrace] at haccepted
    obtain ⟨ρ, hpre, hallows, -⟩ := haccepted.split
    obtain ⟨u, w, rfl, hw⟩ := hpre.saved hallows.2.1
    refine ⟨hallows.2.2, ?_, hpre.exit_of_finishing hallows.1, u, w, rfl, hw⟩
    exact hsavedAt (.start regs) (by simp [htrace])
  · intro u i htrace hnull frame
    exact hcoupled.finish htrace hnull frame
  · intro frame
    obtain ⟨n, hn, hrest⟩ := hcoupled.settles frame
    exact ⟨n, hn.trans (s.rank_le_three code), hrest⟩

theorem contexts_preserved_sample :
    ∃ pre regs a0 post, (sampleState 19).trace = pre ++ .resume 2 regs a0 :: post ∧ a0 = 1 ∧
        ∃ u w, pre = u ++ .yield 2 regs :: w ∧ ∀ o ∈ w, o.thread ≠ some 2 := by
  have hany : (sampleState 19).trace.any (fun o => match o with
      | .resume i _ _ => i == 2
      | _ => false) = true := by
    decide +kernel
  obtain ⟨o, hmem, ho⟩ := any_eq_true.mp hany
  obtain ⟨regs, a0, rfl⟩ : ∃ regs a0, o = .resume 2 regs a0 := by
    cases o <;> simp_all
  obtain ⟨pre, post, htrace⟩ := append_of_mem hmem
  obtain ⟨ha0, -, -, hyield⟩ := (contexts_preserved
    (sampleState_reachable 19)).2.1 pre 2 regs a0 post
    htrace
  exact ⟨pre, regs, a0, post, htrace, ha0, hyield⟩

/-! ## First turns -/

/-- When the library is started with the queue `t :: l`, the threads of `l`
are entered first, in order, then `t`, then the threads added in the
meantime: `thread_start_threading` calls `schedule` before its first
`dispatch`.  When control is back in main, all of them have been entered. -/
theorem first_turns_order {code : Code} {s : State} (h : (system code).Reachable s)
    {old new post rest : List Obs} {c : Context} {t : ℕ} {l : List ℕ}
    (htrace : s.trace = old ++ new ++ .start c :: (post ++ rest))
    (hidle : Idle old)
    (hnew : ∀ c, .start c ∉ new)
    (hadded : new.filterMap Obs.added = t :: l)
    (hpost : ∀ c a, .finish c a ∉ post) :
    post.filterMap Obs.entered <+: l ++ t :: post.filterMap Obs.added ∧
      ∀ c a rest', rest = .finish c a :: rest' →
        post.filterMap Obs.entered = l ++ t :: post.filterMap Obs.added := by
  obtain ⟨σ, q, hcoupled⟩ := coupled_reachable h
  have haccepted := hcoupled.core.accepted
  rw [htrace, ← cons_append, ← append_assoc] at haccepted
  unfold Accepted at haccepted
  rw [EventSystem.run_append, bind_eq_some_iff] at haccepted
  obtain ⟨ρ, hpre, hrest⟩ := haccepted
  have horder := Accepted.firstTurns hpre hidle hnew hadded hpost
  refine ⟨⟨_, horder⟩, ?_⟩
  rintro c a rest' rfl
  rw [EventSystem.run_cons, bind_eq_some_iff] at hrest
  obtain ⟨_, hstep, -⟩ := hrest
  have hphase := (scheduler_step_eq_some_iff.mp hstep).1.1
  simpa [Sched.waiting, hphase] using horder

theorem sampleState_trace_split : ∃ c, (sampleState 19).trace = (sampleState 19).trace.take 4 ++
        .start c :: (sampleState 19).trace.drop 5 := by
  have hstart : (((sampleState 19).trace.drop 4).head?.any fun o => match o with
      | .start _ => true
      | _ => false) = true := by
    decide +kernel
  cases hdrop : (sampleState 19).trace.drop 4 with
  | nil => simp [hdrop] at hstart
  | cons o rest =>
    rw [hdrop] at hstart
    obtain ⟨c, rfl⟩ : ∃ c, o = .start c := by
      cases o <;> simp_all
    refine ⟨c, ?_⟩
    have hrest : (sampleState 19).trace.drop 5 = rest := by
      rw [← tail_drop, hdrop]
      rfl
    rw [hrest, ← hdrop, take_append_drop]

theorem first_turns_order_sample :
    (((sampleState 19).trace.drop 5).take 9).filterMap Obs.entered <+: [2, 1] := by
  obtain ⟨c, hsplit⟩ := sampleState_trace_split
  have htrace : (sampleState 19).trace = [] ++ (sampleState 19).trace.take 4 ++
        .start c :: (((sampleState 19).trace.drop 5).take 9 ++
          ((sampleState 19).trace.drop 5).drop 9) := by
    simpa only [take_append_drop, nil_append] using hsplit
  have hno : ∀ (f : Obs → Bool) (l : List Obs), l.any f = false → ∀ o, f o = true → o ∉ l := by
    intro f l hany o ho hmem
    simp [any_eq_true.mpr ⟨o, hmem, ho⟩] at hany
  have horder := (first_turns_order
    (sampleState_reachable 19) htrace (Or.inl rfl) (t := 1) (l := [2])
    (fun c => hno (fun o => match o with | .start _ => true | _ => false) _
      (by decide +kernel) _ rfl)
    (by decide +kernel)
    (fun c a => hno (fun o => match o with | .finish _ _ => true | _ => false)
      _ (by decide +kernel) _ rfl)).1
  have hnone : (((sampleState 19).trace.drop 5).take 9).filterMap Obs.added = [] := by
    decide +kernel
  rw [hnone] at horder
  exact horder

/-- With two threads, the one that was added second runs first. -/
theorem second_added_runs_first : ∃ (s : State) (new post : List Obs) (c : Context),
      (system sampleCode).Reachable s ∧ s.trace = new ++ .start c :: post ∧
        new.filterMap Obs.added = [1, 2] ∧
        post.filterMap Obs.entered = [2, 1] := by
  obtain ⟨c, hsplit⟩ := sampleState_trace_split
  exact ⟨sampleState 19, _, _, c, sampleState_reachable 19,
    hsplit, by decide +kernel, by decide +kernel⟩

/-! ## Memory -/

/-- Threads that have been added are in the queue until they exit. -/
theorem Accepted.added (h : Accepted trace σ) (hadd : .add i ∈ trace) :
    i ∈ σ.queue ∨ σ.life i = some .exited := by
  refine EventSystem.run_history
    (P := fun tr σ => Obs.add i ∈ tr → i ∈ σ.queue ∨ σ.life i = some .exited)
    (by simp) ?_ h hadd
  intro tr σ o τ ih hstep hmem
  obtain ⟨hallows, rfl⟩ := scheduler_step_eq_some_iff.mp hstep
  by_cases hold : Obs.add i ∈ tr
  · rcases ih hold with hq | hx
    · cases o with
      | add j => exact Or.inl (mem_append_left _ hq)
      | schedule => exact Or.inl (mem_rotate.mpr hq)
      | exit j =>
        obtain ⟨l, hl⟩ := Sched.queue_eq_cons hallows.2.1
        rw [hl, mem_cons] at hq
        rcases hq with rfl | hq
        · exact Or.inr (Function.update_self _ _ _)
        · exact Or.inl (by simpa [Sched.after, hl] using hq)
      | create | start | yield | enter | resume | finish => exact Or.inl hq
    · by_cases ho : o.thread = some i
      · cases o <;> simp_all [Sched.Allows, Obs.thread]
      · exact Or.inr ((Sched.life_after_of_ne ho).trans hx)
  · obtain rfl : Obs.add i = o := by simpa [hold] using hmem
    exact Or.inl (mem_append_right _ (by simp))

/-- A thread is alive when it has been created and has not exited. -/
def Alive (trace : List Obs) (i : ℕ) : Prop :=
  (∃ f arg sp, .create i f arg sp ∈ trace) ∧ .exit i ∉ trace

theorem Accepted.alive_iff (h : Accepted trace σ) (i : ℕ) :
    Alive trace i ↔ ∃ x, σ.life i = some x ∧ x ≠ .exited := by
  have hlived := h.lived i
  unfold Alive
  cases hlife : σ.life i with
  | none =>
    rw [hlife] at hlived
    exact iff_of_false (fun ⟨⟨_, _, _, hcreate⟩, _⟩ => hlived _ hcreate rfl) (by simp)
  | some x =>
    rw [hlife] at hlived
    cases x with
    | fresh f arg stackP =>
      exact iff_of_true ⟨⟨f, arg, stackP, hlived.1⟩, hlived.2.2⟩ ⟨_, rfl, nofun⟩
    | running =>
      obtain ⟨⟨f, arg, sp, hcreate, -⟩, hexit⟩ := hlived
      exact iff_of_true ⟨⟨f, arg, sp, hcreate⟩, hexit⟩ ⟨_, rfl, nofun⟩
    | suspended c =>
      obtain ⟨⟨f, arg, sp, hcreate, -⟩, hexit, -⟩ := hlived
      exact iff_of_true ⟨⟨f, arg, sp, hcreate⟩, hexit⟩ ⟨_, rfl, nofun⟩
    | exited => exact iff_of_false (fun ha => ha.2 hlived.2) (by simp)

theorem Accepted.exit_mem_iff (h : Accepted trace σ) (i : ℕ) :
    .exit i ∈ trace ↔ σ.life i = some .exited := by
  have hlived := h.lived i
  cases hlife : σ.life i with
  | none =>
    rw [hlife] at hlived
    exact iff_of_false (fun hexit => hlived _ hexit rfl) nofun
  | some x =>
    rw [hlife] at hlived
    cases x with
    | fresh f arg stackP => exact iff_of_false hlived.2.2 nofun
    | running => exact iff_of_false hlived.2 nofun
    | suspended c => exact iff_of_false hlived.2.1 nofun
    | exited => exact iff_of_true hlived.2 rfl

theorem Coupled.alive_iff (h : Coupled code s σ q) (i : ℕ) :
    Alive s.trace i ↔ ∃ t ∈ q ++ s.pending, (s.lib.mem t).tag = i := by
  rw [h.core.accepted.alive_iff]
  constructor
  · rintro ⟨x, hx, hne⟩
    exact h.core.members i x hx hne
  · rintro ⟨t, ht, rfl⟩
    cases hlife : σ.life (s.lib.mem t).tag with
    | none =>
      rcases mem_append.mp ht with ht | ht
      · refine absurd hlife (h.core.accepted.ok.known _ ?_)
        rw [h.core.queue]
        exact mem_map.mpr ⟨t, ht, rfl⟩
      · rw [(h.core.pendingFresh t ht).2] at hlife
        cases hlife
    | some x =>
      refine ⟨x, rfl, ?_⟩
      rintro rfl
      have hfreed := (h.core.freed ⟨(s.lib.mem t).tag, .struct⟩).mpr hlife
      exact (h.core.holds.gone _ hfreed).2 t ht rfl

/-- An idle library can be started again. -/
theorem restart (code : Code) (hmode : s.mode = .main)
    (hnull : s.lib.currentThread = NULL) {f arg t newStack : Word}
    (hok : s.lib.MallocOk t newStack) (frame : (Fin 12 → Word) × Word) :
    ((system code).run s [.threadCreate f arg t newStack,
      .threadAddRunqueue t, .threadStartThreading frame]).isSome := by
  have hcreate : (system code).step s (.threadCreate f arg t newStack) =
      some (s.threadCreate f arg t newStack) :=
    if_pos ⟨by simp [hmode], hok⟩
  have hadd : (system code).step (s.threadCreate f arg t newStack) (.threadAddRunqueue t) =
        some ((s.threadCreate f arg t newStack).threadAddRunqueue t) :=
    if_pos ⟨by simp [State.threadCreate, State.observe, hmode],
      by simp [State.threadCreate, State.observe]⟩
  have hcurrent : ((s.threadCreate f arg t newStack).threadAddRunqueue
      t).lib.currentThread = t := by
    have hstill : (s.threadCreate f arg t newStack).lib.currentThread = NULL := hnull
    simp only [State.threadAddRunqueue, State.observe, Lib.threadAddRunqueue, if_pos hstill]
    rfl
  have hstart : ((system code).step ((s.threadCreate f arg t newStack).threadAddRunqueue t)
      (.threadStartThreading frame)).isSome := by
    rw [isSome_iff_exists]
    exact ⟨_, if_pos ⟨hmode, by rw [hcurrent]; exact hok.1⟩⟩
  obtain ⟨s', hs'⟩ := isSome_iff_exists.mp hstart
  simp [EventSystem.run_cons, hcreate, hadd, hs']

/-- In every reachable state: the allocated blocks are exactly the structures
and stacks of the threads that are alive, each at one address; every block of
an exited thread was freed exactly once and nothing else was; `current_thread`
and all links of the ring point to threads that are alive; and when
`thread_start_threading` has returned, every added thread has given back its
memory and the library can be started again. -/
theorem thread_memory_accounting {code : Code} {s : State} (h : (system code).Reachable s) :
    (∀ b, (∃ p, s.lib.heap p = some b) ↔ Alive s.trace b.thread) ∧
    (∀ p p' b, s.lib.heap p = some b → s.lib.heap p' = some b → p = p') ∧
    (s.lib.freed.Nodup ∧ s.lib.badFrees = 0 ∧ ∀ b, b ∈ s.lib.freed ↔ .exit b.thread ∈ s.trace) ∧
    (s.lib.currentThread ≠ NULL → ∀ k, ∀ p ∈ [s.lib.next^[k] s.lib.currentThread,
        s.lib.next (s.lib.next^[k] s.lib.currentThread),
        s.lib.previous (s.lib.next^[k] s.lib.currentThread)],
      ∃ i, Alive s.trace i ∧ s.lib.heap p = some ⟨i, .struct⟩) ∧
    (∀ u c a, s.trace = u ++ [.finish c a] → s.mode = .main ∧ s.lib.currentThread = NULL ∧
        (∀ i, .add i ∈ s.trace → ∀ k, ⟨i, k⟩ ∈ s.lib.freed ∧ ∀ p, s.lib.heap p ≠ some ⟨i, k⟩) ∧
        ∀ f arg t newStack frame, s.lib.MallocOk t newStack →
          ((system code).run s [.threadCreate f arg t newStack,
            .threadAddRunqueue t, .threadStartThreading frame]).isSome) := by
  obtain ⟨σ, q, hcoupled⟩ := coupled_reachable h
  have haccepted := hcoupled.core.accepted
  have hholds := hcoupled.core.holds
  have hlive : ∀ b, (∃ p, s.lib.heap p = some b) ↔ Alive s.trace b.thread := by
    intro b
    rw [hcoupled.alive_iff]
    constructor
    · rintro ⟨p, hp⟩
      obtain ⟨t, ht, -, hID⟩ := (hholds.heap p b).mp hp
      exact ⟨t, ht, hID⟩
    · rintro ⟨t, ht, hID⟩
      exact ⟨_, (hholds.heap _ b).mpr ⟨t, ht, rfl, hID⟩⟩
  have hfreed : ∀ b, b ∈ s.lib.freed ↔ .exit b.thread ∈ s.trace := by
    intro b
    rw [hcoupled.core.freed, haccepted.exit_mem_iff]
  refine ⟨hlive, ?_, ⟨hholds.freed, hholds.badFrees, hfreed⟩, ?_, ?_⟩
  · intro p p' b hp hp'
    obtain ⟨t, ht, haddr, hID⟩ := (hholds.heap p b).mp hp
    obtain ⟨t', ht', haddr', hID'⟩ := (hholds.heap p' b).mp hp'
    obtain rfl : t = t' := inj_on_of_nodup_map hholds.ids ht ht' (hID.trans hID'.symm)
    exact haddr.symm.trans haddr'
  · intro hcurrent k p hp
    have hring := hcoupled.core.ring
    have hhead : s.lib.currentThread ∈ q := by
      cases q with
      | nil => exact absurd (hring.current_eq_null_iff.mpr rfl) hcurrent
      | cons x l => simp [hring.current]
    have hmem := hring.ring.iterate_next_mem hhead k
    obtain ⟨-, -, hnext, hprev⟩ := hring.ring.inverse hmem
    have hpq : p ∈ q := by
      simp only [mem_cons, not_mem_nil, or_false] at hp
      rcases hp with rfl | rfl | rfl
      · exact hmem
      · exact hnext
      · exact hprev
    have hblock := hholds.heap_struct (mem_append_left _ hpq)
    exact ⟨_, (hlive _).mp ⟨_, hblock⟩, hblock⟩
  · intro u c a htrace
    have hidle := Accepted.idle haccepted (Or.inr ⟨u, c, a, htrace⟩)
    have hq : q = [] := by
      have hqueue := hcoupled.core.queue
      rw [hidle.2] at hqueue
      exact map_eq_nil_iff.mp hqueue.symm
    have hmode : s.mode = .main := by
      cases hcoupled.control with
      | main mode => exact mode
      | thread _ phase | choosing _ phase | preparing _ phase
      | entering _ phase | resuming _ phase | finishing _ phase =>
        rw [hidle.1] at phase
        cases phase
    have hnull := hcoupled.core.ring.current_eq_null_iff.mpr hq
    refine ⟨hmode, hnull, ?_, ?_⟩
    · intro i hadd k
      have hexited : σ.life i = some .exited := by
        rcases haccepted.added hadd with hqueue | hexited
        · rw [hidle.2] at hqueue
          cases hqueue
        · exact hexited
      have hexit := (haccepted.exit_mem_iff i).mpr hexited
      refine ⟨(hfreed ⟨i, k⟩).mpr hexit, fun p hp => ?_⟩
      exact ((hlive ⟨i, k⟩).mp ⟨p, hp⟩).2 hexit
    · exact fun f arg t newStack frame hok => restart code hmode hnull hok frame

theorem thread_memory_accounting_sample :
    (sampleState 19).lib.freed = [⟨2, .stack⟩, ⟨2, .struct⟩, ⟨1, .stack⟩, ⟨1, .struct⟩] ∧
      ∀ i, .exit i ∈ (sampleState 19).trace ↔ i = 2 ∨ i = 1 := by
  have hfreed : (sampleState 19).lib.freed =
      [⟨2, .stack⟩, ⟨2, .struct⟩, ⟨1, .stack⟩, ⟨1, .struct⟩] := by
    decide +kernel
  refine ⟨hfreed, fun i => ?_⟩
  have hexit := (thread_memory_accounting (sampleState_reachable 19)).2.2.1.2.2 ⟨i, .stack⟩
  rw [hfreed] at hexit
  simpa using hexit.symm

end OsCa.Threads
