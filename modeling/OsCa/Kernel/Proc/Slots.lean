import OsCa.Kernel.Proc.Wait

/-!
# Recycled slots

`kill` looks for its pid in every slot, used or not.  An unused slot should have
pid 0 and not be killed, so that `kill` finds processes only.  Two things break
this: `kill(0)` finds any unused slot and marks it, and `allocproc` returns
without `freeproc` when there is no page for the trapframe, so that the slot
keeps its new pid.
-/

namespace OsCa.Process

open Function

variable {n : ℕ} {s t : State n} {c : Fin n} {p q : Slot} {e : Event}

variable {pid : CInt} {i : ℕ} {f : Proc n → Proc n} {g : Cpu → Cpu}

/-- After the last fork in slot `q`, some process called `kill(pid)`. -/
def KilledSince (q : Slot) (pid : CInt) (rs : List Record) : Prop :=
  ∃ u v, rs = u ++ v ∧ (∀ a pid', .forked a q pid' ∉ v) ∧ .killed pid ∈ v

theorem KilledSince.snoc {rs : List Record} {r : Record} (h : KilledSince q pid rs)
    (hr : ∀ a pid', r ≠ .forked a q pid') : KilledSince q pid (rs ++ [r]) := by
  obtain ⟨u, v, hrs, hfork, hkill⟩ := h
  refine ⟨u, v ++ [r], by simp [hrs], fun a pid' hmem => ?_, List.mem_append_left _ hkill⟩
  rcases List.mem_append.mp hmem with hmem | hmem
  · exact hfork a pid' hmem
  · exact hr a pid' (List.mem_singleton.mp hmem).symm

/-- The invariant of recycled slots. -/
structure Clean (s : State n) : Prop where
  unused : ∀ q, (s.proc q).state = .unused → (s.proc q).killed = false ∧
    ((s.proc q).pid = 0 ∨ ∃ c p, (s.cpu c).code = .run p (.forkFill q))
  since : ∀ q, (s.proc q).state ≠ .unused → (s.proc q).killed = true →
    KilledSince q (s.proc q).pid s.records

/-- The slot that `kill(0)` is at. -/
def Code.killZero : Code → Option ℕ
  | .run _ (.killScan pid i) => if pid = 0 then some i else none
  | _ => none

/-- The steps that keep the slots clean: `kill(0)` is not at an unused slot, and there is a
page for the trapframe. -/
def Careful (s : State n) (ev : Fin n × Event) : Prop :=
  (∀ q : Slot, (s.cpu ev.1).code.killZero = some ↑q → (s.proc q).state ≠ .unused) ∧
    ev.2 ≠ .alloc .noTrapframe

instance (s : State n) (ev : Fin n × Event) : Decidable (Careful s ev) :=
  inferInstanceAs (Decidable (_ ∧ _))

/-- A change of a slot that does not matter for `kill`. -/
structure Proc.Kept (x x' : Proc n) : Prop where
  pid : x'.pid = x.pid
  killed : x'.killed = x.killed
  unused : x'.state = .unused ↔ x.state = .unused

namespace Proc.Kept

variable {x : Proc n}

theorem refl : Kept x x := ⟨rfl, rfl, Iff.rfl⟩

theorem of_isAlive {x' : Proc n} (hpid : x'.pid = x.pid)
    (hkilled : x'.killed = x.killed) (hx : x.state ≠ .unused)
    (hx' : x'.state ≠ .unused) : Kept x x' :=
  ⟨hpid, hkilled, iff_of_false hx' hx⟩

theorem wakeup (chan : Chan) : Kept x (x.wakeup chan) := by
  unfold Proc.wakeup
  split
  next h => exact of_isAlive rfl rfl (by simp [h.1]) (by simp)
  next => exact refl

end Proc.Kept

namespace Clean

/-- What `kill` finds is a process. -/
theorem ne_unused (h : Clean s) (hs : Scheduled s) (hok : Careful s (c, e))
    (hc : (s.cpu c).code = .run p (.killScan pid q)) (hlock : (s.proc q).lock = none)
    (hpid : (s.proc q).pid = pid) : (s.proc q).state ≠ .unused := by
  intro hq
  rcases (h.unused q hq).2 with hzero | ⟨d, x, hd⟩
  · rw [← hpid, hzero] at hc
    exact hok.1 q (by rw [hc]; rfl) hq
  · exact hs.mem_locks hd hlock (by simp [Pc.locks])

/-- The slots that no CPU fills stay clean. -/
theorem unused_of_kept (h : Clean s) (hm : Move s c e t) (hkept : (s.proc q).Kept (t.proc q))
    (hfill : ∀ p, (s.cpu c).code = .run p (.forkFill q) → (t.cpu c).code = .run p (.forkFill q))
    (hq : (t.proc q).state = .unused) : (t.proc q).killed = false ∧
      ((t.proc q).pid = 0 ∨ ∃ c p, (t.cpu c).code = .run p (.forkFill q)) := by
  obtain ⟨hkilled, hpid⟩ := h.unused q (hkept.unused.mp hq)
  rw [hkept.killed, hkept.pid]
  refine ⟨hkilled, hpid.imp_right ?_⟩
  rintro ⟨d, p, hd⟩
  rcases eq_or_ne d c with rfl | hdc
  · exact ⟨d, p, hfill p hd⟩
  · exact ⟨d, p, by rw [hm.cpu_of_ne hdc, hd]⟩

theorem since_of_kept (h : Clean s) (hkept : (s.proc q).Kept (t.proc q))
    (hrecords : t.records = s.records ∨ ∃ r, t.records = s.records ++ [r] ∧
      ∀ a pid, r ≠ .forked a q pid)
    (hq : (t.proc q).state ≠ .unused) (hkilled : (t.proc q).killed = true) :
    KilledSince q (t.proc q).pid t.records := by
  rw [hkept.killed] at hkilled
  have hsince := h.since q (fun hs => hq (hkept.unused.mpr hs)) hkilled
  rw [hkept.pid]
  rcases hrecords with heq | ⟨r, heq, hr⟩
  · rwa [heq]
  · rw [heq]
    exact hsince.snoc hr

/-- A move that changes pid and `killed` of at most one slot. -/
theorem turn (h : Clean s) (hm : Move s c e t) (x : Slot)
    (hfill : ∀ p q, q ≠ x → (s.cpu c).code = .run p (.forkFill q) →
      (t.cpu c).code = .run p (.forkFill q))
    (hkept : ∀ q, q ≠ x → (s.proc q).Kept (t.proc q))
    (hrecords : t.records = s.records ∨ ∃ r, t.records = s.records ++ [r] ∧
      ∀ a q pid, q ≠ x → r ≠ .forked a q pid)
    (hunused : (t.proc x).state = .unused → (t.proc x).killed = false ∧
      ((t.proc x).pid = 0 ∨ ∃ c p, (t.cpu c).code = .run p (.forkFill x)))
    (hsince : (t.proc x).state ≠ .unused → (t.proc x).killed = true →
      KilledSince x (t.proc x).pid t.records) : Clean t := by
  refine ⟨fun q => ?_, fun q => ?_⟩
  · rcases eq_or_ne q x with rfl | hq
    · exact hunused
    · exact h.unused_of_kept hm (hkept q hq) fun p => hfill p q hq
  · rcases eq_or_ne q x with rfl | hq
    · exact hsince
    · refine h.since_of_kept (hkept q hq) (hrecords.imp_right ?_)
      rintro ⟨r, heq, hr⟩
      exact ⟨r, heq, fun a pid => hr a q pid hq⟩

theorem keep (h : Clean s) (hm : Move s c e t)
    (hfill : ∀ p q, (s.cpu c).code = .run p (.forkFill q) → (t.cpu c).code = .run p (.forkFill q))
    (hkept : ∀ q, (s.proc q).Kept (t.proc q))
    (hrecords : t.records = s.records ∨ ∃ r, t.records = s.records ++ [r] ∧
      ∀ a q pid, r ≠ .forked a q pid) : Clean t := by
  have hrecords' : ∀ q, t.records = s.records ∨ ∃ r,
      t.records = s.records ++ [r] ∧ ∀ a pid, r ≠ .forked a q pid := by
    refine fun q => hrecords.imp_right ?_
    rintro ⟨r, heq, hr⟩
    exact ⟨r, heq, fun a pid => hr a q pid⟩
  exact ⟨fun q => h.unused_of_kept hm (hkept q) fun p => hfill p q,
    fun q => h.since_of_kept (hkept q) (hrecords' q)⟩

end Clean

theorem kept_of_ne {x : Proc n} (ht : t.proc = update s.proc p x) (q : Slot)
    (hq : q ≠ p) : (s.proc q).Kept (t.proc q) := by
  rw [ht, update_of_ne hq]
  exact .refl

theorem kept_update {x : Proc n} (ht : t.proc = update s.proc p x)
    (hx : (s.proc p).Kept x) (q : Slot) : (s.proc q).Kept (t.proc q) := by
  rcases eq_or_ne q p with rfl | hq
  · rwa [ht, update_self]
  · exact kept_of_ne ht q hq

namespace Clean

/-- A CPU leaves a place outside `allocproc` and changes a slot in a way that does not
matter. -/
theorem edit (h : Clean s) (hm : Move s c e ((s.modify p f).setCpu c g))
    (hc : ∀ p q, (s.cpu c).code ≠ .run p (.forkFill q))
    (hkept : (s.proc p).Kept (f (s.proc p))) : Clean ((s.modify p f).setCpu c g) :=
  h.keep hm (fun p q hp => absurd hp (hc p q)) (kept_update rfl hkept) (Or.inl rfl)

theorem relay (h : Clean s) (hm : Move s c e (s.setCpu c g))
    (hc : ∀ p q, (s.cpu c).code ≠ .run p (.forkFill q)) : Clean (s.setCpu c g) :=
  h.keep hm (fun p q hp => absurd hp (hc p q)) (fun _ => .refl) (Or.inl rfl)

theorem move (h : Clean s) (hs : Scheduled s) (hok : Careful s (c, e))
    (hm : Move s c e t) : Clean t := by
  have hm' := hm
  cases hm with
  | wakeup q chan hq =>
    exact h.keep hm' (fun _ _ hp => hp) (kept_update rfl (.wakeup chan)) (Or.inl rfl)
  | skip p hc => exact h.relay hm' (by simp [hc])
  | pick p hc hlock hp =>
    exact h.edit hm' (by simp [hc]) (.of_isAlive rfl rfl (by simp [hp]) (by simp))
  | saveCpu p hc => exact h.relay hm' (by simp [hc])
  | load p r hc hp => exact h.edit hm' (by simp [hc]) ⟨rfl, rfl, Iff.rfl⟩
  | loadStale p hc hp => exact h.relay hm' (by simp [hc])
  | save p r hc => exact h.edit hm' (by simp [hc]) ⟨rfl, rfl, Iff.rfl⟩
  | loadCpu p q hc hq => exact h.relay hm' (by simp [hc])
  | loadCpuStale p hc hq => exact h.relay hm' (by simp [hc])
  | back p hc => exact h.edit hm' (by simp [hc]) ⟨rfl, rfl, Iff.rfl⟩
  | yield p pc hc hpc hlock =>
    have hne : (s.proc p).state ≠ .unused := by simp [hs.running hc]
    refine h.edit hm' ?_ (.of_isAlive rfl rfl hne (by simp))
    intro x q hx
    rw [hc] at hx
    cases hx
    exact hpc
  | sleep p k hc hlock =>
    have hne : (s.proc p).state ≠ .unused := by simp [hs.running hc]
    exact h.edit hm' (by simp [hc]) (.of_isAlive rfl rfl hne (by simp))
  | waitSleep p addr i havekids hc hi =>
    have hne : (s.proc p).state ≠ .unused := by simp [hs.running hc]
    exact h.edit hm' (by simp [hc]) (.of_isAlive rfl rfl hne (by simp))
  | resume p r pc f hc hpc hf =>
    obtain ⟨chan, hf⟩ := hf
    exact h.keep hm' (by simp [hc])
      (kept_update rfl ⟨by rw [hf], by rw [hf], by rw [hf]⟩) (Or.inl rfl)
  | resumeWait p addr hc => exact h.edit hm' (by simp [hc]) ⟨rfl, rfl, Iff.rfl⟩
  | jump p e pc pc' hc hj =>
    refine h.keep hm' ?_ (fun _ => .refl) (Or.inl rfl)
    intro x q hx
    rw [hc] at hx
    cases hx
    cases hj
  | acquire p q pc pc' hc hlock ha =>
    refine h.edit hm' ?_ ⟨rfl, rfl, Iff.rfl⟩
    intro x y hx
    rw [hc] at hx
    cases hx
    cases ha
  | allocpid p np hc =>
    have hnp : (s.proc np).state = .unused := hs.holds c p _ hc
    have hcode := State.goto_self
      (s.modify np fun q => { q with pid := s.nextpid }) c (.run p (.forkFill np))
    refine h.turn hm' np (by simp [hc]) (kept_of_ne rfl) (Or.inl rfl) ?_ ?_
    · intro _
      simp only [State.goto_proc, State.modify_self]
      exact ⟨(h.unused np hnp).1, Or.inr ⟨c, p, hcode⟩⟩
    · simp [hnp]
  | noTrapframe p np hc => exact absurd rfl hok.2
  | forkFails p np a hc =>
    refine h.turn hm' np ?_ (kept_of_ne rfl) (Or.inl rfl) ?_ ?_
    · intro x q hq hx
      rw [hc] at hx
      cases hx
      exact absurd rfl hq
    · simp [Proc.release, Proc.freeproc]
    · simp [Proc.release, Proc.freeproc]
  | fork p np hc =>
    have hnp : (s.proc np).state = .unused := hs.holds c p _ hc
    refine h.turn hm' np ?_ (kept_of_ne rfl) (Or.inr ⟨_, rfl, ?_⟩) ?_ ?_
    · intro x q hq hx
      rw [hc] at hx
      cases hx
      exact absurd rfl hq
    · rintro a q pid hq ⟨⟩
      exact hq rfl
    · simp
    · simp [(h.unused np hnp).1]
  | wakeInit p st hc hlock => exact h.edit hm' (by simp [hc]) (.wakeup _)
  | adopt p st o pp hc hlock =>
    exact h.keep hm' (by simp [hc]) (kept_update rfl ⟨rfl, rfl, Iff.rfl⟩) (Or.inr ⟨_, rfl, by simp⟩)
  | die p st o i hc hi =>
    have hop : o ≠ p := hs.holds c p _ hc
    refine h.keep hm' (by simp [hc]) (fun q => ?_) (Or.inr ⟨_, rfl, by simp⟩)
    rw [State.record_proc, State.goto_proc]
    rcases eq_or_ne q p with rfl | hqp
    · rw [State.modify_self, State.modify_of_ne _ _ _ hop.symm]
      exact .of_isAlive rfl rfl (by simp [hs.running hc]) (by simp)
    · rw [State.modify_of_ne _ _ _ hqp]
      have hkept : (s.proc o).Kept ((s.proc o).wakeup (.proc o)) := .wakeup _
      refine kept_update rfl ?_ q
      exact ⟨hkept.pid, hkept.killed, hkept.unused⟩
  | giveUp p e pc hc hpc =>
    refine h.edit hm' ?_ ⟨rfl, rfl, Iff.rfl⟩
    intro x q hx
    rw [hc] at hx
    cases hx
    cases hpc
  | reap p addr np hc hlock hnp =>
    have hne : p ≠ np := by
      rintro rfl
      simp [hs.running hc] at hnp
    refine h.turn hm' np (by simp [hc]) ?_ (Or.inr ⟨_, rfl, by simp⟩) ?_ ?_
    · intro q hq
      rw [State.record_proc, State.goto_proc]
      rcases eq_or_ne q p with rfl | hqp
      · rw [State.modify_self, State.modify_of_ne _ _ _ hq]
        exact ⟨rfl, rfl, Iff.rfl⟩
      · rw [State.modify_of_ne _ _ _ hqp, State.modify_of_ne _ _ _ hq]
        exact .refl
    · simp [State.modify_of_ne _ _ _ hne.symm, Proc.freeproc]
    · simp [State.modify_of_ne _ _ _ hne.symm, Proc.freeproc]
  | kill p pid q hc hlock hpid =>
    have hne : (s.proc q).state ≠ .unused := h.ne_unused hs hok hc hlock hpid
    refine h.turn hm' q (by simp [hc]) (kept_of_ne rfl) (Or.inr ⟨_, rfl, by simp⟩) ?_ ?_
    · intro hq
      rw [State.record_proc, State.goto_proc, State.modify_self] at hq
      simp only [Proc.kill] at hq
      split at hq
      · cases hq
      · exact absurd hq hne
    · intro _ _
      refine ⟨s.records, [.killed pid], rfl, by simp, ?_⟩
      simp [Proc.kill, hpid]

theorem boot : Clean (boot n) := by
  have hkilled : ∀ q, ((Process.boot n).proc q).killed = false :=
    (forall_update_iff _ fun _ (x : Proc n) => x.killed = false).mpr ⟨rfl, fun _ _ => rfl⟩
  refine ⟨fun q hq => ⟨hkilled q, Or.inl ?_⟩, fun q _ hq => ?_⟩
  · rcases eq_or_ne q initproc with rfl | hne
    · simp [Process.boot] at hq
    · simp [Process.boot, hne, freshProc]
  · simp [hkilled] at hq

end Clean

/-- `kill` returns 0 only in the section in which it has found its pid. -/
theorem Move.killed (hm : Move s c e t) (hrecords : t.records = s.records ++ [.killed pid]) :
    ∃ p q : Slot, (s.cpu c).code = .run p (.killScan pid q) ∧
      (s.proc q).lock = none ∧ (s.proc q).pid = pid := by
  cases hm with
  | kill p pid' q hc hlock hpid =>
    have hpid' : pid' = pid := by
      simpa [State.record, State.goto, State.setCpu, State.modify] using hrecords
    subst hpid'
    exact ⟨p, q, hc, hlock, hpid⟩
  | _ => simp [State.record, State.goto, State.setCpu, State.modify] at hrecords

/-- As long as no `kill(0)` comes to an unused slot and every `fork` gets its trapframe: an
unused slot whose lock is free has pid 0 and is not killed, `kill(pid)` returns 0
only if some process has that pid, and a process is killed only if some process
called `kill` with its pid after it was forked. -/
theorem slots_are_recycled_clean {es : List (Fin n × Event)}
    (hok : (system n).Meets Careful (boot n) es)
    (hrun : (system n).run (boot n) es = some s) :
    (∀ q, (s.proc q).lock = none → (s.proc q).state = .unused →
      (s.proc q).pid = 0 ∧ (s.proc q).killed = false) ∧
    (∀ ev t pid, Careful s ev → (system n).step s ev = some t →
      t.records = s.records ++ [.killed pid] →
      ∃ q, (s.proc q).state ≠ .unused ∧ (s.proc q).pid = pid) ∧
    (∀ q, (s.proc q).state ≠ .unused → (s.proc q).killed = true →
      KilledSince q (s.proc q).pid s.records) := by
  obtain ⟨hs, hclean⟩ : Scheduled s ∧ Clean s := by
    refine hok.invariant (P := fun s => Scheduled s ∧ Clean s) ?_ ⟨.boot, .boot⟩ hrun
    rintro s ⟨c, e⟩ t ⟨hs, hclean⟩ hcareful hstep
    have hm := step_move hstep
    exact ⟨hs.move hm, hclean.move hs hcareful hm⟩
  refine ⟨fun q hlock hq => ?_, ?_, hclean.since⟩
  · obtain ⟨hkilled, hpid⟩ := hclean.unused q hq
    refine ⟨hpid.resolve_right ?_, hkilled⟩
    rintro ⟨c, p, hc⟩
    exact hs.mem_locks hc hlock (by simp [Pc.locks])
  · rintro ⟨c, e⟩ t pid hcareful hstep hrecords
    obtain ⟨p, q, hc, hlock, hpid⟩ := (step_move hstep).killed hrecords
    exact ⟨q, hclean.ne_unused hs hcareful hc hlock hpid, hpid⟩

/-- One CPU: `initproc` forks and then calls `kill` with the pid of its child. -/
def forkKill : List (Fin 1 × Event) :=
  stepsThen 4 .fork ++ stepsThen 3 (.alloc .enough) ++ stepsThen 0 (.kill 2) ++ stepsThen 1 .step

theorem slots_are_recycled_clean_forkKill : ∃ s : State 1,
    (system 1).run (boot 1) forkKill = some s ∧
    (s.proc (nextSlot initproc)).killed = true ∧
    KilledSince (nextSlot initproc) 2 s.records := by
  obtain ⟨s, hs, hstate, hkilled, hpid⟩ : ∃ s, (system 1).run (boot 1) forkKill = some s ∧
      (s.proc (nextSlot initproc)).state ≠ .unused ∧
      (s.proc (nextSlot initproc)).killed = true ∧ (s.proc (nextSlot initproc)).pid = 2 :=
    EventSystem.exists_of_any_run (by decide +kernel)
  have hok : (system 1).Meets Careful (boot 1) forkKill := by decide +kernel
  have hsince := (slots_are_recycled_clean hok hs).2.2 _ hstate hkilled
  exact ⟨s, hs, hkilled, hpid ▸ hsince⟩

/-- One CPU: `initproc` calls `kill(0)`. -/
def killZero : List (Fin 1 × Event) := stepsThen 4 (.kill 0) ++ stepsThen 1 .step

/-- One CPU: a fork of `initproc` finds no page for the trapframe, and then it
calls `kill` with the pid of the child it has not got. -/
def failedFork : List (Fin 1 × Event) :=
  stepsThen 4 .fork ++ stepsThen 3 (.alloc .noTrapframe) ++ stepsThen 0 (.kill 2) ++
    stepsThen 1 .step

/-- `kill(0)` returns 0 without a process of that pid and marks an unused slot,
so that the next child is born killed; after a failed `fork` an unused slot has
a pid, and `kill` finds it. -/
theorem recycled_slots_are_not_clean :
    (∃ s : State 1, (system 1).run (boot 1) killZero = some s ∧ s.records = [.killed 0] ∧
      (∀ q, (s.proc q).state ≠ .unused → (s.proc q).pid ≠ 0) ∧
      (s.proc (nextSlot initproc)).lock = none ∧
      (s.proc (nextSlot initproc)).state = .unused ∧
      (s.proc (nextSlot initproc)).killed = true) ∧
    (∃ s : State 1, (system 1).run (boot 1)
        (killZero ++ stepsThen 0 .fork ++ stepsThen 3 (.alloc .enough)) = some s ∧
      s.records = [.killed 0, .forked initproc (nextSlot initproc) 2] ∧
      (s.proc (nextSlot initproc)).pid = 2 ∧
      (s.proc (nextSlot initproc)).killed = true) ∧
    (∃ s : State 1, (system 1).run (boot 1) failedFork = some s ∧ s.records = [.killed 2] ∧
      (∀ q, (s.proc q).state ≠ .unused → (s.proc q).pid ≠ 2) ∧
      (s.proc (nextSlot initproc)).lock = none ∧
      (s.proc (nextSlot initproc)).state = .unused ∧
      (s.proc (nextSlot initproc)).pid = 2) := by
  exact ⟨EventSystem.exists_of_any_run (by decide +kernel),
    EventSystem.exists_of_any_run (by decide +kernel),
    EventSystem.exists_of_any_run (by decide +kernel)⟩

end OsCa.Process
