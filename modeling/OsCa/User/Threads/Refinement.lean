import OsCa.User.Threads.Memory
import OsCa.User.Threads.Scheduler

/-!
# The library refines the scheduler

Every run of the threads library, with whatever code the threads execute and
however `malloc` reuses memory, produces observations that the abstract
scheduler accepts.  The proof couples a state of the machine with a state of
the scheduler: `Core` relates the memory, `Control` says for each place of the
library's code where control is and what the registers and buffers hold.
-/

namespace OsCa.Threads

open Lib Function List Option

variable {u newStack f arg : Word} {o : Obs}

/-- A thread that waits for a turn: it has never run, or its buffer holds the
context that its last `thread_yield` saved. -/
def Parked (code : Code) (th : Thread) (x : Option Life) : Prop :=
  (th.bufSet = 0 ∧ x = some (.fresh th.fp th.arg th.stackP)) ∨
    (th.bufSet ≠ 0 ∧ x = some (.suspended th.env.context) ∧ th.env.context.ra = code.yieldRet)

theorem Parked.of_unlinked {code : Code} {a b : Thread} {x : Option Life}
    (h : Parked code a x) (hab : b.unlinked = a.unlinked) :
    Parked code b x := by
  obtain ⟨hfp, harg, -, hstackP, henv, -, hset⟩ := Thread.fields_of_unlinked hab
  unfold Parked
  rw [hfp, harg, hstackP, henv, hset]
  exact h

theorem Parked.after {code : Code} {σ : Sched} {th : Thread}
    (h : Parked code th (σ.life th.tag)) (ho : o.thread ≠ some th.tag) :
    Parked code th ((σ.after o).life th.tag) := by
  rw [Sched.life_after_of_ne ho]
  exact h

/-- The memory of the library and the state of the scheduler agree. -/
structure Core (L : Lib) (pending : List Word) (trace : List Obs) (σ : Sched)
    (q : List Word) : Prop where
  accepted : Accepted trace σ
  queue : σ.queue = q.map fun t => (L.mem t).tag
  ring : L.Queue q
  holds : L.Holds (q ++ pending)
  pendingFresh : ∀ t ∈ pending, (L.mem t).bufSet = 0 ∧ σ.life (L.mem t).tag =
      some (.fresh (L.mem t).fp (L.mem t).arg (L.mem t).stackP)
  unborn : ∀ i, L.tags ≤ i → σ.life i = none
  members : ∀ i x, σ.life i = some x → x ≠ .exited → ∃ t ∈ q ++ pending, (L.mem t).tag = i
  freed : ∀ b, b ∈ L.freed ↔ σ.life b.thread = some .exited

/-- All threads of a list are parked. -/
def AllParked (code : Code) (L : Lib) (σ : Sched) (l : List Word) : Prop :=
  ∀ u ∈ l, Parked code (L.mem u) (σ.life (L.mem u).tag)

/-- The context of main is in `env_st`. -/
def SavedMain (code : Code) (s : State) (σ : Sched) : Prop :=
  σ.saved = some s.envSt.context ∧ s.envSt.context.ra = code.startRet

/-- Where control is. -/
inductive Control (code : Code) (s : State) (σ : Sched) : List Word → Prop
  | main {q : List Word} (mode : s.mode = .main) (phase : σ.phase = .main)
      (parked : ∀ u ∈ q, Parked code (s.lib.mem u) (σ.life (s.lib.mem u).tag)) :
      Control code s σ q
  | thread {t : Word} {l : List Word} (mode : s.mode = .thread) (phase : σ.phase = .running)
      (saved : SavedMain code s σ)
      (bufSet : (s.lib.mem t).bufSet ≠ 0)
      (life : σ.life (s.lib.mem t).tag = some .running)
      (parked : ∀ u ∈ l, Parked code (s.lib.mem u) (σ.life (s.lib.mem u).tag)) :
      Control code s σ (t :: l)
  /-- After the first return of `setjmp` in `thread_yield` or
  `thread_start_threading`. -/
  | choosing {t : Word} {l : List Word} (mode : s.mode = .returning) (phase : σ.phase = .choosing)
      (saved : SavedMain code s σ)
      (a0 : s.regs.a0 = 0)
      (pc : s.regs.pc = code.yieldRet ∨ s.regs.pc = code.startRet)
      (parked : ∀ u ∈ t :: l, Parked code (s.lib.mem u) (σ.life (s.lib.mem u).tag)) :
      Control code s σ (t :: l)
  /-- After the first return of `setjmp` in `dispatch`. -/
  | preparing {t : Word} {l : List Word}
      (mode : s.mode = .returning) (phase : σ.phase = .dispatching)
      (saved : SavedMain code s σ)
      (a0 : s.regs.a0 = 0) (pc : s.regs.pc = code.dispatchRet)
      (ra : (s.lib.mem t).env.context.ra = code.dispatchRet)
      (life : σ.life (s.lib.mem t).tag = some (.fresh (s.lib.mem t).fp
        (s.lib.mem t).arg (s.lib.mem t).stackP))
      (parked : ∀ u ∈ l, Parked code (s.lib.mem u) (σ.life (s.lib.mem u).tag)) :
      Control code s σ (t :: l)
  /-- After the second return of `setjmp` in `dispatch`. -/
  | entering {t : Word} {l : List Word}
      (mode : s.mode = .returning) (phase : σ.phase = .dispatching)
      (saved : SavedMain code s σ)
      (a0 : s.regs.a0 = 1) (pc : s.regs.pc = code.dispatchRet)
      (sp : s.regs.sp = (s.lib.mem t).stackP)
      (bufSet : (s.lib.mem t).bufSet ≠ 0)
      (life : σ.life (s.lib.mem t).tag = some (.fresh (s.lib.mem t).fp
        (s.lib.mem t).arg (s.lib.mem t).stackP))
      (parked : ∀ u ∈ l, Parked code (s.lib.mem u) (σ.life (s.lib.mem u).tag)) :
      Control code s σ (t :: l)
  /-- After the second return of `setjmp` in `thread_yield`. -/
  | resuming {t : Word} {l : List Word}
      (mode : s.mode = .returning) (phase : σ.phase = .dispatching)
      (saved : SavedMain code s σ)
      (a0 : s.regs.a0 = 1) (pc : s.regs.pc = code.yieldRet)
      (ra : s.regs.ra = code.yieldRet)
      (bufSet : (s.lib.mem t).bufSet ≠ 0)
      (life : σ.life (s.lib.mem t).tag = some (.suspended s.regs.toContext))
      (parked : ∀ u ∈ l, Parked code (s.lib.mem u) (σ.life (s.lib.mem u).tag)) :
      Control code s σ (t :: l)
  /-- After the second return of `setjmp` in `thread_start_threading`. -/
  | finishing (mode : s.mode = .returning) (phase : σ.phase = .finishing)
      (saved : σ.saved = some s.regs.toContext)
      (a0 : s.regs.a0 = 1) (pc : s.regs.pc = code.startRet) :
      Control code s σ []

/-- A machine state and a scheduler state that belong together. -/
structure Coupled (code : Code) (s : State) (σ : Sched) (q : List Word) :
    Prop where
  core : Core s.lib s.pending s.trace σ q
  control : Control code s σ q

theorem coupled_startState (code : Code) (mem : Word → Thread) (regs : Regs) (envSt : JmpBuf) :
    Coupled code (startState mem regs envSt) Sched.start [] := by
  refine ⟨⟨rfl, rfl, ⟨rfl, by simp, Ring.isRing_nil⟩, ?_, by simp [startState],
    by simp [Sched.start], by simp [Sched.start],
    by simp [Sched.start, startState]⟩, .main rfl rfl (by simp)⟩
  exact ⟨by simp [startState], by simp [startState], by simp [startState],
    by simp [startState], by simp [startState], by simp [startState], rfl⟩

/-! ## Changing the memory -/

namespace Core

variable {code : Code} {L : Lib} {pending : List Word} {trace : List Obs} {σ : Sched}
variable {t : Word} {q l : List Word}

section

variable (h : Core L pending trace σ (t :: l))

include h

theorem ids_ne (hu : u ∈ l ++ pending) : (L.mem u).tag ≠ (L.mem t).tag := by
  have hids := h.holds.ids
  rw [cons_append, map_cons, nodup_cons] at hids
  exact fun heq => hids.1 (mem_map.mpr ⟨u, hu, heq⟩)

theorem ne_head (hu : u ∈ l ++ pending) : u ≠ t := by
  rintro rfl
  exact h.ids_ne hu rfl

/-- Threads other than the head do not notice when the head's record changes. -/
theorem parked_modify (f : Thread → Thread) (hparked : AllParked code L σ l) :
    AllParked code (L.modify t f) σ l := by
  intro u hu
  rw [mem_modify, if_neg (h.ne_head (mem_append_left _ hu))]
  exact hparked u hu

/-- Nor do they notice what the head does. -/
theorem parked_after (ho : o.thread = some (L.mem t).tag)
    (hparked : AllParked code L σ l) : AllParked code L (σ.after o) l := by
  intro u hu
  refine (hparked u hu).after ?_
  rw [ho]
  exact fun heq => h.ids_ne (mem_append_left _ hu) (some.inj heq).symm

/-- The head of the queue may change its buffer and `buf_set`. -/
theorem modifyHead (e : Thread → JmpBuf) (b : Thread → ℤ) :
    Core (L.modify t fun th => { th with env := e th, bufSet := b th })
      pending trace σ (t :: l) := by
  generalize hL' : (L.modify t fun th => { th with env := e th, bufSet := b th }) = L'
  have hkeep : ∀ u, (L'.mem u).tag = (L.mem u).tag ∧ (L'.mem u).stack = (L.mem u).stack ∧
      L'.next u = L.next u ∧ L'.previous u = L.previous u := by
    intro u
    simp only [← hL', Lib.next, previous, mem_modify]
    split <;> exact ⟨rfl, rfl, rfl, rfl⟩
  subst hL'
  refine ⟨h.accepted, ?_, ?_, ?_, ?_, h.unborn, ?_, h.freed⟩
  · rw [h.queue]
    exact map_congr_left fun u _ => (hkeep u).1.symm
  · exact h.ring.of_links rfl (fun u _ => (hkeep u).2.2.1) (fun u _ => (hkeep u).2.2.2)
  · exact h.holds.congr (fun u _ => (hkeep u).1) (fun u _ => (hkeep u).2.1) rfl rfl rfl rfl
  · intro u hu
    have hne : u ≠ t := h.ne_head (mem_append_right _ hu)
    rw [mem_modify, if_neg hne]
    exact h.pendingFresh u hu
  · intro i x hx hne
    obtain ⟨u, hu, hi⟩ := h.members i x hx hne
    exact ⟨u, hu, (hkeep u).1.trans hi⟩

end

/-- An observation that changes neither the queue nor any thread. -/
theorem observe (h : Core L pending trace σ q) (ho : σ.Allows o)
    (hqueue : (σ.after o).queue = σ.queue) (hlife : (σ.after o).life = σ.life) :
    Core L pending (trace ++ [o]) (σ.after o) q where
  accepted := h.accepted.snoc ho
  queue := hqueue.trans h.queue
  ring := h.ring
  holds := h.holds
  pendingFresh := by
    rw [hlife]
    exact h.pendingFresh
  unborn := by
    rw [hlife]
    exact h.unborn
  members := by
    rw [hlife]
    exact h.members
  freed := by
    rw [hlife]
    exact h.freed

/-- An observation that changes the life of the head of the queue. -/
theorem observeHead {x : Life} (h : Core L pending trace σ (t :: l)) (ho : σ.Allows o)
    (hqueue : (σ.after o).queue = σ.queue)
    (hlife : (σ.after o).life = update σ.life (L.mem t).tag (some x))
    (hx : x ≠ .exited) :
    Core L pending (trace ++ [o]) (σ.after o) (t :: l) where
  accepted := h.accepted.snoc ho
  queue := hqueue.trans h.queue
  ring := h.ring
  holds := h.holds
  pendingFresh := by
    intro u hu
    rw [hlife, update_of_ne (h.ids_ne (mem_append_right _ hu))]
    exact h.pendingFresh u hu
  unborn := by
    intro i hi
    have hlt := h.holds.bound t (by simp)
    rw [hlife, update_of_ne (by omega)]
    exact h.unborn i hi
  members := by
    intro i y hy hne
    by_cases hi : i = (L.mem t).tag
    · exact ⟨t, by simp, hi.symm⟩
    · rw [hlife, update_of_ne hi] at hy
      exact h.members i y hy hne
  freed := by
    intro b
    rw [hlife]
    by_cases hb : b.thread = (L.mem t).tag
    · have hgone : b ∉ L.freed := fun hmem => (h.holds.gone b hmem).2 t (by simp) hb.symm
      simp [hb, hgone, hx]
    · rw [update_of_ne hb]
      exact h.freed b

theorem schedule (h : Core L pending trace σ (t :: l)) (ho : σ.Allows .schedule) :
    Core L.schedule pending (trace ++ [.schedule]) (σ.after .schedule) (l ++ [t]) := by
  have hperm : (t :: l ++ pending).Perm (l ++ [t] ++ pending) :=
    (perm_append_singleton t l).symm.append_right pending
  refine ⟨h.accepted.snoc ho, ?_, h.ring.schedule, ?_, h.pendingFresh, h.unborn, ?_, h.freed⟩
  · change σ.queue.rotate 1 = _
    rw [h.queue]
    simp [Lib.schedule]
  · exact (h.holds.perm hperm).congr (fun _ _ => rfl) (fun _ _ => rfl) rfl rfl rfl rfl
  · intro i x hx hne
    obtain ⟨u, hu, hi⟩ := h.members i x hx hne
    exact ⟨u, hperm.mem_iff.mp hu, hi⟩

theorem threadAddRunqueue (h : Core L pending trace σ q) (ht : t ∈ pending)
    (ho : σ.Allows (.add (L.mem t).tag)) :
    Core (L.threadAddRunqueue t) (pending.erase t)
      (trace ++ [.add (L.mem t).tag]) (σ.after (.add (L.mem t).tag))
      (q ++ [t]) := by
  have hperm : (q ++ pending).Perm (q ++ [t] ++ pending.erase t) := by
    rw [append_assoc]
    exact (perm_cons_erase ht).append_left q
  have htq : t ∉ q := fun hq => disjoint_of_nodup_append h.holds.nodup hq ht
  have hnull : t ≠ NULL := by
    rintro rfl
    exact h.holds.nonnull (mem_append_right _ ht)
  have hfields := fun u => Thread.fields_of_unlinked (L.unlinked_threadAddRunqueue t u)
  have hID : ∀ u, ((L.threadAddRunqueue t).mem u).tag = (L.mem u).tag :=
    fun u => (hfields u).2.2.2.2.2.1
  have hrest : (L.threadAddRunqueue t).tags = L.tags ∧ (L.threadAddRunqueue t).freed = L.freed := by
    unfold Lib.threadAddRunqueue
    split <;> exact ⟨rfl, rfl⟩
  refine ⟨h.accepted.snoc ho, ?_, h.ring.threadAddRunqueue htq hnull, ?_, ?_, ?_, ?_, ?_⟩
  · simp only [hID]
    change σ.queue ++ _ = _
    rw [h.queue, map_append]
    rfl
  · exact h.holds.threadAddRunqueue.perm hperm
  · intro u hu
    obtain ⟨hfp, harg, -, hstackP, -, hid, hset⟩ := hfields u
    rw [hfp, harg, hstackP, hid, hset]
    exact h.pendingFresh u (mem_of_mem_erase hu)
  · rw [hrest.1]
    exact h.unborn
  · intro i x hx hne
    obtain ⟨u, hu, hi⟩ := h.members i x hx hne
    exact ⟨u, hperm.mem_iff.mp hu, (hID u).trans hi⟩
  · rw [hrest.2]
    exact h.freed

/-- A new thread does not disturb the others. -/
theorem mem_threadCreate (h : Core L pending trace σ q) (f arg : Word)
    (hok : L.MallocOk t newStack) (hu : u ∈ q ++ pending) :
    (L.threadCreate f arg t newStack).mem u = L.mem u := by
  apply L.mem_threadCreate_of_ne f arg newStack
  rintro rfl
  have hlive := h.holds.heap_struct hu
  rw [hok.2.2.2.1] at hlive
  cases hlive

theorem threadCreate (h : Core L pending trace σ q) (hok : L.MallocOk t newStack)
    (ho : o = .create L.tags f arg (newStack + 0x100 * 8 - 0x2 * 8))
    (hallows : σ.Allows o) :
    Core (L.threadCreate f arg t newStack) (pending ++ [t]) (trace ++ [o]) (σ.after o) q := by
  have hmem := fun u hu => h.mem_threadCreate f arg (u := u) hok hu
  have hnew := L.mem_threadCreate_self f arg t newStack
  have hlife : (σ.after o).life = update σ.life L.tags
      (some (.fresh f arg (newStack + 0x100 * 8 - 0x2 * 8))) := by
    rw [ho]
    rfl
  refine ⟨h.accepted.snoc hallows, ?_, ?_, ?_, ?_, ?_, ?_, ?_⟩
  · rw [map_congr_left fun u hu => by rw [hmem u (mem_append_left _ hu)], ← h.queue, ho]
    rfl
  · refine h.ring.of_links rfl ?_ ?_
    · intro u hu
      rw [Lib.next, hmem u (mem_append_left _ hu)]
      rfl
    · intro u hu
      rw [previous, hmem u (mem_append_left _ hu)]
      rfl
  · rw [← append_assoc]
    exact h.holds.create hok
  · intro u hu
    rcases mem_append.mp hu with hu | hu
    · have hbound := h.holds.bound u (mem_append_right _ hu)
      rw [hmem u (mem_append_right _ hu), hlife, update_of_ne (by omega)]
      exact h.pendingFresh u hu
    · rw [mem_singleton.mp hu, hnew, hlife]
      exact ⟨rfl, update_self _ _ _⟩
  · intro i hi
    change L.tags + 1 ≤ i at hi
    rw [hlife, update_of_ne (by omega)]
    exact h.unborn i (by omega)
  · intro i x hx hne
    by_cases hi : i = L.tags
    · exact ⟨t, by simp, by rw [hnew, hi]⟩
    · rw [hlife, update_of_ne hi] at hx
      obtain ⟨u, hu, hID⟩ := h.members i x hx hne
      refine ⟨u, ?_, by rw [hmem u hu, hID]⟩
      rw [← append_assoc]
      exact mem_append_left _ hu
  · intro b
    change b ∈ L.freed ↔ _
    by_cases hb : b.thread = L.tags
    · have hgone : b ∉ L.freed := fun hmem => by
        have := (h.holds.gone b hmem).1
        omega
      simp [hlife, hb, hgone]
    · rw [hlife, update_of_ne hb]
      exact h.freed b

theorem threadExit (h : Core L pending trace σ (t :: l)) (ho : σ.Allows (.exit (L.mem t).tag)) :
    Core L.threadExit pending (trace ++ [.exit (L.mem t).tag])
      (σ.after (.exit (L.mem t).tag)) l := by
  obtain ⟨hholds, hfreed⟩ := Holds.threadExit h.holds h.ring.current
  have hfields := fun u => Thread.fields_of_unlinked (L.unlinked_threadExit u)
  have hID : ∀ u, (L.threadExit.mem u).tag = (L.mem u).tag := fun u => (hfields u).2.2.2.2.2.1
  have hid : L.threadExit.tags = L.tags := by
    unfold Lib.threadExit
    dsimp only
    split <;> simp only [tags_free, tags_modify]
  have hlife : (σ.after (.exit (L.mem t).tag)).life =
      update σ.life (L.mem t).tag (some .exited) := rfl
  refine ⟨h.accepted.snoc ho, ?_, h.ring.threadExit, hholds, ?_, ?_, ?_, ?_⟩
  · simp only [hID]
    change σ.queue.tail = _
    rw [h.queue]
    rfl
  · intro u hu
    obtain ⟨hfp, harg, -, hstackP, -, hid, hset⟩ := hfields u
    rw [hfp, harg, hstackP, hid, hset, hlife, update_of_ne (h.ids_ne (mem_append_right _ hu))]
    exact h.pendingFresh u hu
  · intro i hi
    rw [hid] at hi
    have hlt := h.holds.bound t (by simp)
    rw [hlife, update_of_ne (by omega)]
    exact h.unborn i hi
  · intro i x hx hne
    by_cases hi : i = (L.mem t).tag
    · rw [hlife, hi, update_self] at hx
      exact absurd (some.inj hx).symm hne
    · rw [hlife, update_of_ne hi] at hx
      obtain ⟨u, hu, hu'⟩ := h.members i x hx hne
      rw [cons_append, mem_cons] at hu
      rcases hu with rfl | hu
      · exact absurd hu'.symm hi
      · exact ⟨u, hu, (hID u).trans hu'⟩
  · intro b
    rw [hfreed, hlife]
    by_cases hb : b.thread = (L.mem t).tag
    · obtain ⟨i, k⟩ := b
      obtain rfl : i = (L.mem t).tag := hb
      cases k <;> simp
    · rw [update_of_ne hb, ← h.freed b]
      simp only [mem_append, mem_cons, not_mem_nil, or_false]
      apply or_iff_left
      rintro (rfl | rfl)
      · exact hb rfl
      · exact hb rfl

end Core

/-! ## Switching to a thread -/

section Steps

variable {code : Code} {s : State} {σ : Sched} {t : Word} {q l : List Word}
variable {frame : (Fin 12 → Word) × Word}

theorem Coupled.dispatch (hcore : Core s.lib s.pending s.trace σ (t :: l))
    (hphase : σ.phase = .dispatching) (hsaved : SavedMain code s σ)
    (hparked : AllParked code s.lib σ (t :: l)) :
    Coupled code (s.dispatch code frame) σ (t :: l) := by
  have hcur : s.lib.currentThread = t := hcore.ring.current
  have hrest : AllParked code s.lib σ l := fun u hu => hparked u (mem_cons_of_mem _ hu)
  unfold State.dispatch State.current
  rw [hcur]
  rcases hparked t mem_cons_self with ⟨hset, hlife⟩ | ⟨hset, hlife, hra⟩
  · rw [if_pos hset]
    obtain ⟨buf, hbuf, hs⟩ := s.setjmpCurrent_spec ⟨frame.1, code.dispatchRet, frame.2⟩
    rw [hs, hcur]
    refine ⟨hcore.modifyHead (fun _ => buf) Thread.bufSet,
      .preparing rfl hphase hsaved rfl rfl ?_ ?_
        (hcore.parked_modify (fun th => { th with env := buf }) hrest)⟩
    · simp [mem_modify, hbuf]
    · simpa [mem_modify] using hlife
  · rw [if_neg hset]
    have hbuf : s.longjmpCurrent.regs.toContext = (s.lib.mem t).env.context := by
      rw [State.longjmpCurrent, State.current, hcur]
      exact longjmp_context _ _ _
    refine ⟨hcore, .resuming rfl hphase hsaved rfl ?_ ?_ hset ?_ hrest⟩
    · simp only [State.longjmpCurrent, State.current, hcur]
      exact hra
    · rw [hbuf, hra]
    · rw [hbuf]
      exact hlife

/-- `schedule(); dispatch();` -/
theorem Coupled.switch (frame : (Fin 12 → Word) × Word)
    (hcore : Core s.lib s.pending s.trace σ (t :: l))
    (hphase : σ.phase = .choosing) (hsaved : SavedMain code s σ)
    (hparked : AllParked code s.lib σ (t :: l)) :
    ∃ q', Coupled code (s.schedule.dispatch code frame) (σ.after .schedule) q' := by
  have hnext := hcore.schedule hphase
  have hmem : ∀ u ∈ l ++ [t], u ∈ t :: l := by
    intro u hu
    simpa [or_comm] using hu
  obtain ⟨x, l', hl⟩ : ∃ x l', l ++ [t] = x :: l' := by
    cases l with
    | nil => exact ⟨t, [], rfl⟩
    | cons y l => exact ⟨y, l ++ [t], rfl⟩
  rw [hl] at hnext hmem
  exact ⟨x :: l', Coupled.dispatch (s := s.schedule) hnext rfl hsaved
    fun u hu => hparked u (hmem u hu)⟩

/-! ## The events -/

section

variable (h : Coupled code s σ q)

include h

theorem Coupled.threadStartThreading (hmode : s.mode = .main)
    (hcurrent : s.lib.currentThread ≠ NULL) :
    ∃ σ' q', Coupled code (s.threadStartThreading code frame) σ' q' := by
  obtain ⟨hcore, hcontrol⟩ := h
  cases hcontrol with
  | main _ hphase hparked =>
    cases q with
    | nil => exact absurd (hcore.ring.current_eq_null_iff.mpr rfl) hcurrent
    | cons t l =>
      have hallows : σ.Allows (.start ⟨frame.1, code.startRet, frame.2⟩) :=
        ⟨hphase, by simp [hcore.queue]⟩
      refine ⟨_, t :: l, hcore.observe hallows rfl rfl, .choosing rfl rfl
        ⟨?_, ?_⟩ rfl (Or.inr rfl) hparked⟩
      · simp only [State.threadStartThreading, State.observe]
        rw [setjmp_context]
        rfl
      · simp only [State.threadStartThreading, State.observe]
        rw [setjmp_context]
  | thread mode | choosing mode | preparing mode | entering mode
  | resuming mode | finishing mode => rw [mode] at hmode; cases hmode

/-- In a thread, the head of the queue runs and the others are parked. -/
theorem Coupled.running (hmode : s.mode = .thread) : ∃ t l, q = t :: l ∧
    σ.phase = .running ∧ SavedMain code s σ ∧ (s.lib.mem t).bufSet ≠ 0 ∧
    σ.life (s.lib.mem t).tag = some .running ∧ AllParked code s.lib σ l ∧
    s.lib.currentThread = t := by
  obtain ⟨hcore, hcontrol⟩ := h
  cases hcontrol with
  | @thread t l _ hphase hsaved hset hlife hparked =>
    exact ⟨t, l, rfl, hphase, hsaved, hset, hlife, hparked, hcore.ring.current⟩
  | main mode | choosing mode | preparing mode | entering mode
  | resuming mode | finishing mode => rw [mode] at hmode; cases hmode

theorem Coupled.threadYield (hmode : s.mode = .thread) :
    ∃ σ' q', Coupled code (s.threadYield code frame) σ' q' := by
  obtain ⟨t, l, rfl, hphase, hsaved, hset, hlife, hparked, hcur⟩ := h.running hmode
  have hallows : σ.Allows (.yield (s.lib.mem t).tag ⟨frame.1, code.yieldRet, frame.2⟩) :=
    ⟨hphase, by simp [h.core.queue], hlife⟩
  obtain ⟨buf, hbuf, hs⟩ := s.setjmpCurrent_spec ⟨frame.1, code.yieldRet, frame.2⟩
  simp only [State.threadYield, State.current, State.observe, hs, hcur]
  have hcore := h.core.observeHead hallows rfl rfl nofun
  refine ⟨_, t :: l, hcore.modifyHead (fun _ => buf) Thread.bufSet,
    .choosing rfl rfl hsaved rfl (Or.inl rfl) ?_⟩
  intro u hu
  rcases mem_cons.mp hu with rfl | hu
  · right
    simp only [mem_modify, if_pos, hbuf]
    exact ⟨hset, update_self _ _ _, trivial⟩
  · exact hcore.parked_modify (fun th => { th with env := buf })
      (h.core.parked_after rfl hparked) u hu

theorem Coupled.threadExit (hmode : s.mode = .thread) :
    ∃ σ' q', Coupled code (s.threadExit code frame) σ' q' := by
  obtain ⟨t, l, rfl, hphase, hsaved, hset, hlife, hparked, hcur⟩ := h.running hmode
  have hnext := h.core.threadExit ⟨hphase, by simp [h.core.queue], hlife⟩
  have hphase' : (σ.after (.exit (s.lib.mem t).tag)).phase =
      if l = [] then .finishing else .dispatching := by
    simp [Sched.after, h.core.queue]
  have hlast : (s.lib.mem t).next = t ↔ l = [] := h.core.ring.ring.next_eq_self_iff
  simp only [State.threadExit, State.current, hcur]
  cases l with
  | nil =>
    rw [if_neg (not_not.mpr (hlast.mpr rfl))]
    refine ⟨_, [], hnext, .finishing rfl hphase' ?_ rfl hsaved.2⟩
    change σ.saved = some (longjmp s.envSt 1 s.regs).toContext
    rw [longjmp_context]
    exact hsaved.1
  | cons y l =>
    rw [if_pos (fun heq => by simpa using hlast.mp heq)]
    refine ⟨_, y :: l, Coupled.dispatch (s := State.observe
      { s with lib := s.lib.threadExit } (.exit (s.lib.mem t).tag)) hnext
      hphase' hsaved ?_⟩
    intro u hu
    have hunlinked := s.lib.unlinked_threadExit u
    have hID := (Thread.fields_of_unlinked hunlinked).2.2.2.2.2.1
    refine Parked.of_unlinked ?_ hunlinked
    simp only [State.observe]
    rw [hID]
    exact h.core.parked_after rfl hparked u hu

/-- Creating and adding threads is possible for main and for the running
thread, and moves control nowhere. -/
theorem Coupled.threadCreate (hmode : s.mode ≠ .returning) (hok : s.lib.MallocOk t newStack) :
    ∃ σ' q', Coupled code (s.threadCreate f arg t newStack) σ' q' := by
  obtain ⟨hcore, hcontrol⟩ := h
  have hnew := s.lib.mem_threadCreate_self f arg t newStack
  have hunborn : σ.life s.lib.tags = none := hcore.unborn _ le_rfl
  have hmem := fun u hu => hcore.mem_threadCreate f arg (u := u) hok hu
  have hbound := hcore.holds.bound
  simp only [State.threadCreate, State.observe, hnew]
  have hpark : ∀ u ∈ q, Parked code (s.lib.mem u) (σ.life (s.lib.mem u).tag) →
      Parked code ((s.lib.threadCreate f arg t newStack).mem u)
        ((σ.after (.create s.lib.tags f arg (newStack + 0x100 * 8 - 0x2 * 8))).life
            ((s.lib.threadCreate f arg t newStack).mem u).tag) := by
    intro u hu hparked
    rw [hmem u (mem_append_left _ hu)]
    apply hparked.after
    have := hbound u (mem_append_left _ hu)
    simp only [Obs.thread, ne_eq, some.injEq]
    omega
  cases hcontrol with
  | main mode phase parked =>
    exact ⟨_, q, hcore.threadCreate hok rfl ⟨Or.inl phase, hunborn⟩,
      .main mode phase fun u hu => hpark u hu (parked u hu)⟩
  | @thread t₀ l mode phase saved bufSet life parked =>
    have ht₀ := hmem t₀ (by simp)
    have hlt := hbound t₀ (by simp)
    refine ⟨_, t₀ :: l, hcore.threadCreate hok rfl ⟨Or.inr phase, hunborn⟩,
      .thread mode phase saved ?_ ?_ fun u hu => hpark u (mem_cons_of_mem _ hu) (parked u hu)⟩
    · simpa only [ht₀] using bufSet
    · simp only [ht₀]
      rw [Sched.life_after_of_ne (by simp [Obs.thread]; omega)]
      exact life
  | choosing mode | preparing mode | entering mode | resuming mode
  | finishing mode => exact absurd mode hmode

theorem Coupled.threadAddRunqueue (hmode : s.mode ≠ .returning) (ht : t ∈ s.pending) :
    ∃ σ' q', Coupled code (s.threadAddRunqueue t) σ' q' := by
  obtain ⟨hcore, hcontrol⟩ := h
  obtain ⟨hset, hlife⟩ := hcore.pendingFresh t ht
  have hnot : (s.lib.mem t).tag ∉ σ.queue := by
    rw [hcore.queue]
    have hids := hcore.holds.ids
    rw [map_append] at hids
    exact fun hq => (disjoint_of_nodup_append hids) hq (mem_map.mpr ⟨t, ht, rfl⟩)
  have hpark : ∀ u, Parked code (s.lib.mem u) (σ.life (s.lib.mem u).tag) →
      Parked code ((s.lib.threadAddRunqueue t).mem u)
        (σ.life ((s.lib.threadAddRunqueue t).mem u).tag) := by
    intro u hparked
    have hunlinked := s.lib.unlinked_threadAddRunqueue t u
    rw [(Thread.fields_of_unlinked hunlinked).2.2.2.2.2.1]
    exact hparked.of_unlinked hunlinked
  have hnew : Parked code (s.lib.mem t) (σ.life (s.lib.mem t).tag) := Or.inl ⟨hset, hlife⟩
  have hall : ∀ l : List Word, AllParked code s.lib σ l →
      AllParked code (s.lib.threadAddRunqueue t) σ (l ++ [t]) := by
    intro l hl u hu
    rcases mem_append.mp hu with hu | hu
    · exact hpark u (hl u hu)
    · rw [mem_singleton.mp hu]
      exact hpark t hnew
  cases hcontrol with
  | main mode phase parked =>
    exact ⟨_, q ++ [t], hcore.threadAddRunqueue ht ⟨Or.inl phase, hnot, _, _, _, hlife⟩,
      .main mode phase (hall q parked)⟩
  | @thread t₀ l mode phase saved bufSet life parked =>
    obtain ⟨-, -, -, -, -, hID, hbuf⟩ :=
      Thread.fields_of_unlinked (s.lib.unlinked_threadAddRunqueue t t₀)
    refine ⟨_, t₀ :: l ++ [t], hcore.threadAddRunqueue ht ⟨Or.inr phase, hnot, _, _, _, hlife⟩,
      .thread mode phase saved ?_ ?_ (hall l parked)⟩
    · simpa only [State.threadAddRunqueue, State.observe, hbuf] using bufSet
    · simp only [State.threadAddRunqueue, State.observe, hID]
      exact life
  | choosing mode | preparing mode | entering mode | resuming mode
  | finishing mode => exact absurd mode hmode

/-- Whenever the machine is about to return from `setjmp` or `longjmp`, it
returns to one of the three calls of `setjmp`. -/
theorem Coupled.proceed (frame : (Fin 12 → Word) × Word) (hmode : s.mode = .returning) :
    ∃ s', s.proceed code frame = some s' ∧ ∃ σ' q', Coupled code s' σ' q' := by
  obtain ⟨hcore, hcontrol⟩ := h
  have hcur : s.lib.currentThread = q.headD NULL := hcore.ring.current
  unfold State.proceed
  cases hcontrol with
  | main mode | thread mode => rw [mode] at hmode; cases hmode
  | @choosing t l _ phase saved a0 pc parked =>
    obtain ⟨q', hq'⟩ := Coupled.switch frame hcore phase saved parked
    refine ⟨s.schedule.dispatch code frame, ?_, _, q', hq'⟩
    rcases pc with pc | pc
    · simp [pc, a0]
    · simp [pc, a0, code.yield_ne_start.symm, code.dispatch_ne_start.symm]
  | @preparing t l _ phase saved a0 pc ra life parked =>
    rw [headD_cons] at hcur
    rw [pc, if_neg code.yield_ne_dispatch.symm, if_pos rfl, if_neg (not_not.mpr a0)]
    refine ⟨_, rfl, σ, t :: l, ?_, ?_⟩
    · simp only [State.longjmpCurrent, currentThread_modify, hcur]
      exact (hcore.modifyHead (fun th => th.env.setSp th.stackP)
        Thread.bufSet).modifyHead Thread.env fun _ => 1
    · refine .entering rfl phase saved rfl ?_ ?_ ?_ ?_ ?_
      · simp only [State.longjmpCurrent, State.current, currentThread_modify, hcur, longjmp_pc]
        simpa [mem_modify, JmpBuf.context_setSp] using ra
      · simp only [State.longjmpCurrent, State.current, currentThread_modify, hcur, longjmp_context]
        simp [mem_modify, JmpBuf.context_setSp]
      · simp [State.longjmpCurrent, currentThread_modify, hcur, mem_modify]
      · simpa [State.longjmpCurrent, currentThread_modify, hcur, mem_modify] using life
      · intro u hu
        have hne : u ≠ t := hcore.ne_head (mem_append_left _ hu)
        simpa [State.longjmpCurrent, currentThread_modify, hcur, mem_modify, hne] using parked u hu
  | @entering t l _ phase saved a0 pc sp bufSet life parked =>
    rw [headD_cons] at hcur
    rw [pc, if_neg code.yield_ne_dispatch.symm, if_pos rfl, if_pos (by rw [a0]; decide)]
    simp only [State.current, State.observe, hcur, sp]
    have hallows : σ.Allows (.enter (s.lib.mem t).tag (s.lib.mem t).fp
        (s.lib.mem t).arg (s.lib.mem t).stackP) :=
      ⟨phase, by simp [hcore.queue], life⟩
    exact ⟨_, rfl, _, t :: l, hcore.observeHead hallows rfl rfl nofun,
      .thread rfl rfl saved bufSet (update_self _ _ _) (hcore.parked_after rfl parked)⟩
  | @resuming t l _ phase saved a0 pc ra bufSet life parked =>
    rw [headD_cons] at hcur
    rw [if_pos pc, if_pos (by rw [a0]; decide)]
    simp only [State.current, State.observe, hcur]
    have hallows : σ.Allows (.resume (s.lib.mem t).tag s.regs.toContext s.regs.a0) :=
      ⟨phase, by simp [hcore.queue], life, a0⟩
    exact ⟨_, rfl, _, t :: l, hcore.observeHead hallows rfl rfl nofun,
      .thread rfl rfl saved bufSet (update_self _ _ _) (hcore.parked_after rfl parked)⟩
  | finishing _ phase saved a0 pc =>
    rw [pc, if_neg code.yield_ne_start.symm, if_neg code.dispatch_ne_start.symm, if_pos rfl,
      if_pos (by rw [a0]; decide)]
    have hallows : σ.Allows (.finish s.regs.toContext s.regs.a0) := ⟨phase, saved, a0⟩
    exact ⟨_, rfl, _, [], hcore.observe hallows rfl rfl, .main rfl rfl (by simp)⟩

end

end Steps

/-! ## Runs -/

theorem Coupled.step {code : Code} {s s' : State} {σ : Sched}
    {q : List Word} {e : Event} (h : Coupled code s σ q)
    (hstep : step code s e = some s') :
    ∃ σ' q', Coupled code s' σ' q' := by
  cases e
  all_goals simp only [Threads.step, ite_none_right_eq_some, some.injEq] at hstep
  case threadCreate f arg t newStack =>
    obtain ⟨⟨hmode, hok⟩, rfl⟩ := hstep
    exact h.threadCreate hmode hok
  case threadAddRunqueue t =>
    obtain ⟨⟨hmode, ht⟩, rfl⟩ := hstep
    exact h.threadAddRunqueue hmode ht
  case threadStartThreading frame =>
    obtain ⟨⟨hmode, hcurrent⟩, rfl⟩ := hstep
    exact h.threadStartThreading hmode hcurrent
  case threadYield frame =>
    obtain ⟨hmode, rfl⟩ := hstep
    exact h.threadYield hmode
  case threadExit frame =>
    obtain ⟨hmode, rfl⟩ := hstep
    exact h.threadExit hmode
  case proceed frame =>
    obtain ⟨hmode, hproceed⟩ := hstep
    obtain ⟨s'', hs'', hcoupled⟩ := h.proceed frame hmode
    rw [hproceed, some.injEq] at hs''
    exact hs'' ▸ hcoupled

/-- Every reachable state of the machine is coupled with a state of the
scheduler that accepts its trace. -/
theorem coupled_reachable {code : Code} {s : State}
    (h : (system code).Reachable s) : ∃ σ q, Coupled code s σ q := by
  refine h.invariant (P := fun s => ∃ σ q, Coupled code s σ q) ?_ ?_
  · rintro s ⟨mem, regs, envSt, rfl⟩
    exact ⟨_, _, coupled_startState code mem regs envSt⟩
  · rintro s e s' ⟨σ, q, hcoupled⟩ hstep
    exact hcoupled.step hstep

end OsCa.Threads
