import OsCa.Kernel.Proc.Steps
import OsCa.Support.LockTable

/-!
# One CPU for each process

`p->lock` is taken by `scheduler` and released by the process, and the other way
round when the process gives up the CPU.  The invariant `Scheduled` says which
locks the CPUs hold at each place, and what is true of the slot a CPU works on
and of the slots that no CPU works on.
-/

namespace OsCa.Process

open Function

variable {n : ℕ}

variable {k k' : Code} {r : Resume} {pc pc' : Pc} {f : Proc n → Proc n} {e : Event}

/-- The locks that process `p` holds at a place of its code. -/
def Pc.locks (p : Slot) : Pc → List Slot
  | .forkFound np | .forkFill np => [np]
  | .exitLockSelf _ o => [o]
  | .reparent _ o _ | .reparentChild _ o _ => [o, p]
  | .waitScan _ _ _ | .waitChild _ _ => [p]
  | _ => []

namespace Code

/-- The slot that a CPU works on. -/
def proc : Code → Option Slot
  | .scan _ | .wild => none
  | .picked p | .loading p | .back p | .run p _ | .sched p _ | .leaving p
  | .resumed p _ => some p

def locks : Code → List Slot
  | .scan _ | .wild => []
  | .run p pc => pc.locks p
  | .picked p | .loading p | .back p | .sched p _ | .leaving p
  | .resumed p _ => [p]

/-- The slot at which the loop of `scheduler` continues, while its registers are
in `c->context`. -/
def away : Code → Option Slot
  | .loading p | .run p _ | .sched p _ | .leaving p | .resumed p _ => some p
  | _ => none

theorem proc_of_away {p : Slot} (h : k.away = some p) : k.proc = some p := by
  cases k <;> simp_all [away, proc]

end Code

namespace Resume

/-- The process comes back, and holds no lock when it does. -/
def Alive : Resume → Prop
  | .yield pc => pc.Interruptible
  | .dead => False
  | _ => True

/-- The states in which a process that continues at `r` may wait for a CPU. -/
inductive Parks : Resume → ProcState → Prop where
  | runnable {r : Resume} (h : r.Alive) : Parks r .runnable
  | sleeping {r : Resume} (h : r.Alive) : Parks r .sleeping
  | dead : Parks .dead .zombie

theorem Parks.alive (h : r.Parks .runnable) : r.Alive := by
  cases h with
  | runnable h => exact h

end Resume

/-- The context of a process that is not running is saved. -/
def Proc.Saved (q : Proc n) : Prop := ∃ r : Resume, q.context = .saved r ∧ r.Parks q.state

/-- What is true of a slot that no CPU works on. -/
def Proc.Parked (q : Proc n) : Prop := q.state = .unused ∨ q.Saved

/-- What is true of the slot that a CPU works on. -/
def Code.Stage (q : Proc n) : Code → Prop
  | .scan _ | .wild => True
  | .picked _ | .loading _ => q.state = .running ∧ ∃ r : Resume, q.context = .saved r ∧ r.Alive
  | .run _ _ => q.state = .running
  | .resumed _ r => q.state = .running ∧ r.Alive
  | .sched _ r => r.Parks q.state
  | .leaving _ | .back _ => q.Saved

/-- What process `p` knows about the slots whose locks it holds. -/
def Pc.Holds (proc : Slot → Proc n) (p : Slot) : Pc → Prop
  | .forkFound np | .forkFill np => (proc np).state = .unused
  | .reparent _ o _ | .reparentChild _ o _ => o ≠ p
  | _ => True

/-- The scheduling invariant. -/
structure Scheduled (s : State n) : Prop where
  locks : LockTable (fun q => (s.proc q).lock) fun c => (s.cpu c).code.locks
  proc : ∀ c, (s.cpu c).proc = (s.cpu c).code.proc
  context : ∀ c p, (s.cpu c).code.away = some p → (s.cpu c).context = .saved p
  unique : ∀ c d p, (s.cpu c).code.proc = some p → (s.cpu d).code.proc = some p → c = d
  stage : ∀ c p, (s.cpu c).code.proc = some p → (s.cpu c).code.Stage (s.proc p)
  parked : ∀ p, (∀ c, (s.cpu c).code.proc ≠ some p) → (s.proc p).Parked
  holds : ∀ c p pc, (s.cpu c).code = .run p pc → pc.Holds s.proc p
  tame : ∀ c, (s.cpu c).code ≠ .wild

/-! ## Turns -/

/-- What a CPU may do to a slot it does not work on. -/
def Touch (q q' : Proc n) : Prop :=
  q'.state = q.state ∧ q'.context = q.context ∨ q.state ≠ .running ∧ (q.Parked → q'.Parked)

namespace Touch

variable {q q' : Proc n}

theorem parked (h : Touch q q') (hq : q.Parked) : q'.Parked := by
  rcases h with ⟨hstate, hcontext⟩ | ⟨-, hparked⟩
  · unfold Proc.Parked Proc.Saved
    rwa [hstate, hcontext]
  · exact hparked hq

theorem running (h : Touch q q') (hq : q.state = .running) : q'.state = .running := by
  rcases h with ⟨hstate, -⟩ | ⟨hne, -⟩
  · rw [hstate, hq]
  · exact absurd hq hne

/-- Waking a process up keeps its context. -/
theorem wake (hq : q.state = .sleeping) (hstate : q'.state = .runnable)
    (hcontext : q'.context = q.context) : Touch q q' := by
  refine Or.inr ⟨by simp [hq], ?_⟩
  rintro (hunused | ⟨r, hr, hparks⟩)
  · simp [hq] at hunused
  · rw [hq] at hparks
    cases hparks with
    | sleeping halive => exact Or.inr ⟨r, hcontext.trans hr, hstate ▸ .runnable halive⟩

theorem of_wakeup (chan : Chan) : Touch q (q.wakeup chan) := by
  unfold Proc.wakeup
  split
  next h => exact wake h.1 rfl rfl
  next => exact Or.inl ⟨rfl, rfl⟩

theorem of_kill : Touch q q.kill := by
  by_cases hq : q.state = .sleeping
  · exact wake hq (by simp [Proc.kill, hq]) rfl
  · exact Or.inl ⟨by simp [Proc.kill, hq], rfl⟩

theorem of_unused (hq : q.state ≠ .running) (hq' : q'.state = .unused) : Touch q q' :=
  Or.inr ⟨hq, fun _ => Or.inl hq'⟩

end Touch

/-- What a turn of CPU `c` from `k` to `k'` may do to the slot `q`. -/
structure SlotTurn (c : Fin n) (k k' : Code) (q : Slot) (x x' : Proc n) :
    Prop where
  lock : LockTurn c q x.lock x'.lock k.locks k'.locks
  change : x' = x ∨ (x.lock = none ∨ q ∈ k.locks) ∧
    (k.proc = some q ∨ k'.proc = some q ∨ Touch x x')

theorem SlotTurn.rfl {c : Fin n} {q : Slot} {x : Proc n}
    (h : q ∈ k'.locks ↔ q ∈ k.locks) : SlotTurn c k k' q x x :=
  ⟨.kept (Eq.refl _) h, Or.inl (Eq.refl _)⟩

variable {s t : State n} {c d : Fin n} {p q : Slot}

/-- A turn that changes the slot `q` only. -/
theorem SlotTurn.of_update {y : Proc n} (ht : t.proc = update s.proc q y)
    (hq : SlotTurn c k k' q (s.proc q) y)
    (hother : ∀ x, x ≠ q → (x ∈ k'.locks ↔ x ∈ k.locks)) (x : Slot) :
    SlotTurn c k k' x (s.proc x) (t.proc x) := by
  rw [ht]
  rcases eq_or_ne x q with rfl | hx
  · rwa [update_self]
  · rw [update_of_ne hx]
    exact .rfl (hother x hx)

theorem Pc.Holds.congr {proc proc' : Slot → Proc n} (h : pc.Holds proc p)
    (heq : ∀ q ∈ pc.locks p, proc' q = proc q) : pc.Holds proc' p := by
  cases pc <;> simp_all [Pc.Holds, Pc.locks]

namespace Scheduled

theorem stage_of_code (h : Scheduled s) (hc : (s.cpu c).code = k)
    (hk : k.proc = some p) : k.Stage (s.proc p) := by
  rw [← hc] at hk ⊢
  exact h.stage c p hk

/-- A slot whose lock is held by another CPU does not change. -/
theorem proc_eq_of_mem (h : Scheduled s)
    (hslot : SlotTurn c (s.cpu c).code k' q (s.proc q) (t.proc q)) (hd : d ≠ c)
    (hq : q ∈ (s.cpu d).code.locks) : t.proc q = s.proc q := by
  rcases hslot.change with heq | ⟨hlock, -⟩
  · exact heq
  · exact absurd hq (h.locks.not_mem_of_free_or_mem hlock hd)

theorem mem_locks_or_run (hk : k.proc = some p) : p ∈ k.locks ∨ ∃ pc, k = .run p pc := by
  cases k <;> simp_all [Code.proc, Code.locks]

section

variable (h : Scheduled s)

include h

theorem stage_of_ne (hslot : SlotTurn c (s.cpu c).code k' p (s.proc p) (t.proc p))
    (hk' : k'.proc ≠ some p) (hd : d ≠ c) (hp : (s.cpu d).code.proc = some p) :
    (s.cpu d).code.Stage (t.proc p) := by
  have hstage := h.stage d p hp
  rcases mem_locks_or_run hp with hmem | ⟨pc, hrun⟩
  · rwa [h.proc_eq_of_mem hslot hd hmem]
  -- A process without its lock is at least running, and stays so.
  · rw [hrun] at hstage ⊢
    rcases hslot.change with heq | ⟨-, hc | hc | htouch⟩
    · rwa [heq]
    · exact absurd (h.unique d c p hp hc) hd
    · exact absurd hc hk'
    · exact htouch.running hstage

/-- One turn of CPU `c`. -/
theorem turn {x : Cpu} (hc : (s.cpu c).code = k) (hcpu : t.cpu = update s.cpu c x)
    (hslot : ∀ q, SlotTurn c k x.code q (s.proc q) (t.proc q))
    (hproc : x.proc = x.code.proc)
    (hcontext : ∀ p, x.code.away = some p → x.context = .saved p)
    (henter : ∀ p, x.code.proc = some p → k.proc = some p ∨ ∀ d, (s.cpu d).code.proc ≠ some p)
    (hleave : ∀ p, k.proc = some p → x.code.proc = some p ∨ (t.proc p).Parked)
    (hstage : ∀ p, x.code.proc = some p → x.code.Stage (t.proc p))
    (hholds : ∀ p pc, x.code = .run p pc → pc.Holds t.proc p) (htame : x.code ≠ .wild) :
    Scheduled t := by
  obtain rfl : t.cpu c = x := by rw [hcpu, update_self]
  subst hc
  replace hcpu : ∀ d, d ≠ c → t.cpu d = s.cpu d := by
    intro d hd
    rw [hcpu, update_of_ne hd]
  have hother : ∀ d p, d ≠ c → (s.cpu d).code.proc = some p → (t.cpu c).code.proc ≠ some p := by
    intro d p hd hp hc
    rcases henter p hc with hs | hnone
    · exact hd (h.unique d c p hp hs)
    · exact hnone d hp
  constructor
  case locks => exact h.locks.turn c (fun d hd => by rw [hcpu d hd]) fun q => (hslot q).lock
  case proc =>
    intro d
    rcases eq_or_ne d c with rfl | hd
    · exact hproc
    · rw [hcpu d hd]
      exact h.proc d
  case context =>
    intro d p hp
    rcases eq_or_ne d c with rfl | hd
    · exact hcontext p hp
    · rw [hcpu d hd] at hp ⊢
      exact h.context d p hp
  case unique =>
    intro d e p hd he
    rcases eq_or_ne d c with rfl | hdc <;> rcases eq_or_ne e d with rfl | hed
    · rfl
    · rw [hcpu e hed] at he
      exact absurd hd (hother e p hed he)
    · rfl
    · rw [hcpu d hdc] at hd
      rcases eq_or_ne e c with rfl | hec
      · exact absurd he (hother d p hdc hd)
      · rw [hcpu e hec] at he
        exact h.unique d e p hd he
  case stage =>
    intro d p hp
    rcases eq_or_ne d c with rfl | hd
    · exact hstage p hp
    · rw [hcpu d hd] at hp ⊢
      exact h.stage_of_ne (hslot p) (hother d p hd hp) hd hp
  case parked =>
    intro p hnone
    have hc := hnone c
    by_cases hs : (s.cpu c).code.proc = some p
    · exact (hleave p hs).resolve_left hc
    · have hparked : (s.proc p).Parked := by
        refine h.parked p fun d => ?_
        rcases eq_or_ne d c with rfl | hd
        · exact hs
        · rw [← hcpu d hd]
          exact hnone d
      rcases (hslot p).change with heq | ⟨-, hp | hp | htouch⟩
      · rwa [heq]
      · exact absurd hp hs
      · exact absurd hp hc
      · exact htouch.parked hparked
  case holds =>
    intro d p pc hd
    rcases eq_or_ne d c with rfl | hdc
    · exact hholds p pc hd
    · rw [hcpu d hdc] at hd
      refine (h.holds d p pc hd).congr fun q hq => ?_
      refine h.proc_eq_of_mem (hslot q) hdc ?_
      rw [hd]
      exact hq
  case tame =>
    intro d
    rcases eq_or_ne d c with rfl | hd
    · exact htame
    · rw [hcpu d hd]
      exact h.tame d

/-- A turn after which the CPU still works on `p`. -/
theorem stay (hc : (s.cpu c).code = k) (hcpu : t.cpu = (s.goto c k').cpu)
    (hk : k.away = some p) (hk' : k'.proc = some p)
    (hslot : ∀ q, SlotTurn c k k' q (s.proc q) (t.proc q))
    (hstage : k'.Stage (t.proc p)) (hholds : ∀ pc, k' = .run p pc → pc.Holds t.proc p) :
    Scheduled t := by
  have hproc : (s.cpu c).code.proc = some p := hc ▸ Code.proc_of_away hk
  refine h.turn hc hcpu hslot ?_ ?_ ?_ ?_ ?_ ?_ ?_
  · exact (h.proc c).trans (hproc.trans hk'.symm)
  · intro q hq
    have hqp : p = q := Option.some.inj (hk'.symm.trans (Code.proc_of_away hq))
    subst hqp
    exact h.context c p (hc ▸ hk)
  · exact fun q hq => Or.inl ((hc ▸ hproc).trans (hk'.symm.trans hq))
  · exact fun q hq => Or.inl (hk'.trans ((hc ▸ hproc).symm.trans hq))
  · intro q hq
    rwa [← Option.some.inj (hk'.symm.trans hq)]
  · rintro q pc rfl
    obtain rfl : q = p := Option.some.inj hk'
    exact hholds pc rfl
  · rintro rfl
    simp [Code.proc] at hk'

/-- Only the slots and the CPUs matter. -/
theorem congr (hproc : t.proc = s.proc) (hcpu : t.cpu = s.cpu) : Scheduled t := by
  obtain ⟨proc, cpu, nextpid, records⟩ := t
  cases hproc
  cases hcpu
  exact ⟨h.locks, h.proc, h.context, h.unique, h.stage, h.parked, h.holds, h.tame⟩

theorem running (hc : (s.cpu c).code = .run p pc) : (s.proc p).state = .running :=
  h.stage_of_code hc rfl

theorem mem_locks (hc : (s.cpu c).code = .run p pc) (hq : (s.proc q).lock = none) :
    q ∉ pc.locks p := by
  intro hmem
  refine h.locks.ne_none_of_mem (c := c) ?_ hq
  rw [hc]
  exact hmem

/-- A process goes on and changes one slot, whose lock is free or its own. -/
theorem edit (pc' : Pc) (hc : (s.cpu c).code = .run p pc)
    (hturn : LockTurn c q (s.proc q).lock (f (s.proc q)).lock (pc.locks p) (pc'.locks p))
    (hlocks : ∀ x, x ≠ q → (x ∈ pc'.locks p ↔ x ∈ pc.locks p))
    (hq : (s.proc q).lock = none ∨ q ∈ pc.locks p)
    (htouch : Touch (s.proc q) (f (s.proc q)))
    (hholds : pc'.Holds (s.modify q f).proc p) :
    Scheduled ((s.modify q f).goto c (.run p pc')) := by
  refine h.stay hc rfl rfl rfl ?_ ?_ ?_
  · exact .of_update rfl ⟨hturn, Or.inr ⟨hq, Or.inr (Or.inr htouch)⟩⟩ hlocks
  · show ((s.modify q f).proc p).state = .running
    rcases eq_or_ne p q with rfl | hpq
    · rw [State.modify_self]
      exact htouch.running (h.running hc)
    · rw [State.modify_of_ne _ _ _ hpq]
      exact h.running hc
  · rintro _ ⟨⟩
    exact hholds

end

end Scheduled

theorem Jump.locks_eq (h : Jump s p e pc pc') : pc'.locks p = pc.locks p := by
  cases h <;> rfl

theorem Jump.holds (h : Jump s p e pc pc') (hpc : pc.Holds s.proc p) : pc'.Holds s.proc p := by
  cases h <;> trivial

theorem Acquires.mem_locks (h : Acquires s p q pc pc') {x : Slot} :
    x ∈ pc'.locks p ↔ x = q ∨ x ∈ pc.locks p := by
  cases h <;> simp [Pc.locks, or_comm]

theorem Pc.Interruptible.locks_eq (h : pc.Interruptible) : pc.locks p = [] := by
  cases pc <;> first | rfl | exact h.elim

theorem Pc.Interruptible.holds (h : pc.Interruptible) (proc : Slot → Proc n) : pc.Holds proc p := by
  cases pc <;> trivial

theorem Resume.interruptible_of_place (h : r.Alive) (hpc : r.place = some pc) :
    pc.Interruptible := by
  cases r <;> cases hpc <;> trivial

theorem GivesUp.locks_eq (h : GivesUp s pc) : pc.locks p = [p] := by
  cases h <;> rfl

namespace Scheduled

section

variable (h : Scheduled s)

include h

theorem jump (hc : (s.cpu c).code = .run p pc) (hj : Jump s p e pc pc') :
    Scheduled (s.goto c (.run p pc')) := by
  refine h.stay hc rfl rfl rfl ?_ (h.running hc) ?_
  · intro q
    refine .rfl ?_
    show q ∈ pc'.locks p ↔ q ∈ pc.locks p
    rw [hj.locks_eq]
  · rintro _ ⟨⟩
    exact hj.holds (h.holds c p pc hc)

theorem acquire (hc : (s.cpu c).code = .run p pc) (hq : (s.proc q).lock = none)
    (ha : Acquires s p q pc pc') :
    Scheduled ((s.modify q (Proc.acquire c)).goto c (.run p pc')) := by
  refine h.edit pc' hc (.acquired hq rfl (ha.mem_locks.mpr (Or.inl rfl))) ?_
    (Or.inl hq) (Or.inl ⟨rfl, rfl⟩) ?_
  · intro x hx
    rw [ha.mem_locks]
    exact or_iff_right hx
  · cases ha with
    | forkFound np hnp =>
      show ((s.modify q (Proc.acquire c)).proc q).state = .unused
      rw [State.modify_self]
      exact hnp
    | exitParent st o => trivial
    -- The lock of the original parent is already held.
    | exitSelf st o =>
      rintro rfl
      exact h.mem_locks hc hq (by simp [Pc.locks])
    | wait addr => trivial

/-- A process gives up the only lock it holds and returns to user code. -/
theorem release (hc : (s.cpu c).code = .run p pc) (hpc : pc.locks p = [q])
    (hlock : (f (s.proc q)).lock = none) (htouch : Touch (s.proc q) (f (s.proc q))) :
    Scheduled ((s.modify q f).goto c (.run p .user)) := by
  have hq : q ∈ pc.locks p := by simp [hpc]
  refine h.edit .user hc (.released hq hlock (by simp [Pc.locks])) ?_ (Or.inr hq) htouch trivial
  intro x hx
  rw [hpc]
  simp [Pc.locks, hx]

/-- A process changes a slot in a section of its own. -/
theorem visit (pc' : Pc) (hc : (s.cpu c).code = .run p pc)
    (hpc : pc'.locks p = pc.locks p) (hq : (s.proc q).lock = none)
    (hlock : (f (s.proc q)).lock = (s.proc q).lock)
    (htouch : Touch (s.proc q) (f (s.proc q)))
    (hholds : pc'.Holds (s.modify q f).proc p) :
    Scheduled ((s.modify q f).goto c (.run p pc')) :=
  h.edit pc' hc (.kept hlock (by rw [hpc])) (fun x _ => by rw [hpc]) (Or.inl hq) htouch hholds

/-- A process gives up the CPU: it keeps or takes its own lock only. -/
theorem park (hc : (s.cpu c).code = .run p pc)
    (hpc : pc.locks p = [p] ∨ (s.proc p).lock = none ∧ pc.locks p = [])
    (hlock : (f (s.proc p)).lock = some c) (hparks : r.Parks (f (s.proc p)).state) :
    Scheduled ((s.modify p f).goto c (.sched p r)) := by
  have hself : ((s.modify p f).goto c (.sched p r)).proc p = f (s.proc p) := update_self ..
  refine h.stay hc rfl rfl rfl ?_ (by rwa [Code.Stage, hself]) (by simp)
  refine .of_update rfl ?_ ?_
  · rcases hpc with hpc | ⟨hfree, -⟩
    · have hmem : p ∈ (s.cpu c).code.locks := by simp [hc, Code.locks, hpc]
      refine ⟨.kept (hlock.trans ((h.locks p c).mpr hmem).symm) ?_, ?_⟩
      · simp [Code.locks, hpc]
      · exact Or.inr ⟨Or.inr (hc ▸ hmem), Or.inl rfl⟩
    · exact ⟨.acquired hfree hlock (by simp [Code.locks]), Or.inr ⟨Or.inl hfree, Or.inl rfl⟩⟩
  · intro x hx
    rcases hpc with hpc | ⟨-, hpc⟩ <;> simp [Code.locks, hpc, hx]

/-- A section that some CPU spends on one slot. -/
theorem wakeup (c : Fin n) (chan : Chan) (hq : (s.proc q).lock = none) :
    Scheduled (s.modify q (Proc.wakeup chan)) := by
  have hslot : SlotTurn c (s.cpu c).code (s.cpu c).code q (s.proc q) ((s.proc q).wakeup chan) :=
    ⟨.kept (Proc.wakeup_lock ..) Iff.rfl, Or.inr ⟨Or.inl hq, Or.inr (Or.inr (.of_wakeup chan))⟩⟩
  have heq : ∀ d x, x ∈ (s.cpu d).code.locks →
      (s.modify q (Proc.wakeup chan)).proc x = s.proc x := by
    intro d x hx
    refine State.modify_of_ne _ _ _ ?_
    rintro rfl
    exact h.locks.ne_none_of_mem hx hq
  refine h.turn rfl (update_eq_self c s.cpu).symm (.of_update rfl hslot fun _ _ => Iff.rfl)
    (h.proc c) (h.context c) (fun _ hp => Or.inl hp) (fun _ hp => Or.inl hp) ?_ ?_ (h.tame c)
  · intro p hp
    have hstage := h.stage c p hp
    rcases mem_locks_or_run hp with hmem | ⟨pc, hrun⟩
    · rwa [heq c p hmem]
    · rw [hrun] at hstage ⊢
      rcases eq_or_ne p q with rfl | hpq
      · rw [State.modify_self]
        exact (Touch.of_wakeup chan).running hstage
      · rwa [State.modify_of_ne _ _ _ hpq]
  · intro p pc hp
    refine (h.holds c p pc hp).congr fun x hx => heq c x ?_
    rw [hp]
    exact hx

theorem skip (hc : (s.cpu c).code = .scan p) : Scheduled (s.goto c (.scan q)) := by
  have hproc := h.proc c
  rw [hc] at hproc
  exact h.turn hc rfl (fun x => .rfl Iff.rfl) hproc (by simp [Code.away])
    (by simp [Code.proc]) (by simp [Code.proc]) (by simp [Code.proc]) (by simp) (by simp)

/-- `scheduler` takes a process that no CPU works on. -/
theorem pick (hc : (s.cpu c).code = .scan p) (hlock : (s.proc p).lock = none)
    (hp : (s.proc p).state = .runnable) :
    Scheduled ((s.modify p fun q =>
      { q with lock := some c, state := .running }).setCpu c fun cpu =>
        { cpu with proc := some p, code := .picked p }) := by
  have hnone : ∀ d, (s.cpu d).code.proc ≠ some p := by
    intro d hd
    rcases mem_locks_or_run hd with hmem | ⟨pc, hrun⟩
    · exact h.locks.ne_none_of_mem hmem hlock
    · simp [h.running hrun] at hp
  have hsaved : ∃ r : Resume, (s.proc p).context = .saved r ∧ r.Alive := by
    rcases h.parked p hnone with hunused | ⟨r, hr, hparks⟩
    · simp [hp] at hunused
    · exact ⟨r, hr, (hp ▸ hparks).alive⟩
  refine h.turn hc rfl (.of_update rfl ?_ ?_) rfl (by simp [Code.away]) ?_
    (by simp [Code.proc]) ?_ (by simp) (by simp)
  · exact ⟨.acquired hlock rfl (by simp [Code.locks]), Or.inr ⟨Or.inl hlock, Or.inr (Or.inl rfl)⟩⟩
  · intro x hx
    simp [Code.locks, hx]
  · rintro q ⟨⟩
    exact Or.inr hnone
  · rintro q ⟨⟩
    rw [State.setCpu_proc, State.modify_self]
    exact ⟨rfl, hsaved⟩

/-- `swtch` saves or loads the registers of the scheduler. -/
theorem relay {x : CpuContext} (hc : (s.cpu c).code = k) (hk : k.proc = some p)
    (hk' : k'.proc = some p) (hlocks : k'.locks = k.locks)
    (haway : ∀ q, k'.away = some q → x = .saved q) (hstage : k'.Stage (s.proc p))
    (hrun : ∀ q pc, k' ≠ .run q pc) :
    Scheduled (s.setCpu c fun cpu => { cpu with context := x, code := k' }) := by
  have hproc := h.proc c
  rw [hc, hk] at hproc
  refine h.turn hc rfl (fun y => .rfl (by rw [hlocks])) (hproc.trans hk'.symm) haway ?_ ?_
    ?_ (fun q pc hq => absurd hq (hrun q pc)) ?_
  · exact fun q hq => Or.inl (hk.trans (hk'.symm.trans hq))
  · exact fun q hq => Or.inl (hk'.trans (hk.symm.trans hq))
  · intro q hq
    rwa [Option.some.inj (hq.symm.trans hk')]
  · rintro rfl
    simp [Code.proc] at hk'

theorem saveCpu (hc : (s.cpu c).code = .picked p) : Scheduled (s.setCpu c fun cpu =>
      { cpu with context := .saved p, code := .loading p }) := by
  have hstage := h.stage_of_code hc rfl
  refine h.relay hc rfl rfl rfl ?_ hstage (by simp)
  rintro q ⟨⟩
  rfl

/-- The scheduler continues at the slot whose process has just left. -/
theorem loadCpu (hc : (s.cpu c).code = .leaving p) (hq : (s.cpu c).context = .saved q) :
    Scheduled (s.setCpu c fun cpu =>
      { cpu with context := .stale, code := .back q }) := by
  have hstage := h.stage_of_code hc rfl
  have hcontext := h.context c p (by rw [hc]; rfl)
  rw [hq] at hcontext
  obtain rfl : q = p := CpuContext.saved.inj hcontext
  exact h.relay hc rfl rfl rfl (by simp [Code.away]) hstage (by simp)

theorem back (hc : (s.cpu c).code = .back p) :
    Scheduled ((s.modify p Proc.release).setCpu c fun cpu =>
      { cpu with proc := none, code := .scan q }) := by
  have hsaved := h.stage_of_code hc rfl
  refine h.turn hc rfl (.of_update rfl ?_ ?_) rfl (by simp [Code.away]) (by simp [Code.proc]) ?_
    (by simp [Code.proc]) (by simp) (by simp)
  · exact ⟨.released (by simp [Code.locks]) rfl (by simp [Code.locks]),
      Or.inr ⟨Or.inr (by simp [Code.locks]), Or.inl rfl⟩⟩
  · intro x hx
    simp [Code.locks, hx]
  · rintro x ⟨⟩
    rw [State.setCpu_proc, State.modify_self]
    exact Or.inr (Or.inr hsaved)

theorem load (hc : (s.cpu c).code = .loading p) (hr : (s.proc p).context = .saved r) :
    Scheduled ((s.modify p fun q => { q with context := .stale }).goto c (.resumed p r)) := by
  obtain ⟨hrunning, r', hr', halive⟩ := h.stage_of_code hc rfl
  obtain rfl : r = r' := Context.saved.inj (hr.symm.trans hr')
  refine h.stay hc rfl rfl rfl ?_ ?_ (by simp)
  · exact .of_update rfl ⟨.kept rfl Iff.rfl,
      Or.inr ⟨Or.inr (by simp [Code.locks]), Or.inl rfl⟩⟩ fun _ _ => Iff.rfl
  · rw [State.goto_proc, State.modify_self]
    exact ⟨hrunning, halive⟩

theorem save (hc : (s.cpu c).code = .sched p r) :
    Scheduled ((s.modify p fun q => { q with context := .saved r }).goto c (.leaving p)) := by
  have hstage := h.stage_of_code hc rfl
  refine h.stay hc rfl rfl rfl ?_ ?_ (by simp)
  · exact .of_update rfl ⟨.kept rfl Iff.rfl,
      Or.inr ⟨Or.inr (by simp [Code.locks]), Or.inl rfl⟩⟩ fun _ _ => Iff.rfl
  · rw [State.goto_proc, State.modify_self]
    exact ⟨r, rfl, hstage⟩

/-- A process comes back from `sched`. -/
theorem resume (hc : (s.cpu c).code = .resumed p r)
    (hturn : LockTurn c p (s.proc p).lock (f (s.proc p)).lock [p] (pc.locks p))
    (hlocks : ∀ x, x ≠ p → x ∉ pc.locks p)
    (hstate : (f (s.proc p)).state = (s.proc p).state)
    (hholds : ∀ proc : Slot → Proc n, pc.Holds proc p) :
    Scheduled ((s.modify p f).goto c (.run p pc)) := by
  have hstage := h.stage_of_code hc rfl
  refine h.stay hc rfl rfl rfl ?_ ?_ ?_
  · exact .of_update rfl ⟨hturn, Or.inr ⟨Or.inr (by simp [Code.locks]), Or.inl rfl⟩⟩
      fun x hx => by simp [Code.locks, hx, hlocks x hx]
  · show (((s.modify p f).goto c (.run p pc)).proc p).state = .running
    rw [State.goto_proc, State.modify_self, hstate]
    exact hstage.1
  · rintro pc' ⟨⟩
    exact hholds _

theorem die {st : CInt} {o : Slot} {i : ℕ} (hc : (s.cpu c).code = .run p (.reparent st o i)) :
    Scheduled (((s.modify o fun q => (q.wakeup (.proc o)).release).modify p
      fun q => { q with xstate := st, state := .zombie }).goto c (.sched p .dead)) := by
  have hop : o ≠ p := h.holds c p _ hc
  refine h.stay hc rfl rfl rfl ?_ ?_ (by simp)
  · intro x
    rw [State.goto_proc]
    rcases eq_or_ne x p with rfl | hx
    · rw [State.modify_self, State.modify_of_ne _ _ _ hop.symm]
      exact ⟨.kept rfl (by simp [Code.locks, Pc.locks]),
        Or.inr ⟨Or.inr (by simp [Code.locks, Pc.locks]), Or.inl rfl⟩⟩
    · rw [State.modify_of_ne _ _ _ hx]
      rcases eq_or_ne x o with rfl | hxo
      · rw [State.modify_self]
        refine ⟨.released (by simp [Code.locks, Pc.locks]) rfl ?_, ?_⟩
        · simp [Code.locks, hx]
        · exact Or.inr ⟨Or.inr (by simp [Code.locks, Pc.locks]),
            Or.inr (Or.inr (Touch.of_wakeup (.proc x)))⟩
      · rw [State.modify_of_ne _ _ _ hxo]
        exact .rfl (by simp [Code.locks, Pc.locks, hx, hxo])
  · rw [State.goto_proc, State.modify_self]
    exact .dead

theorem reap {addr : Bool} {np : Slot} (hc : (s.cpu c).code = .run p (.waitChild addr np))
    (hlock : (s.proc np).lock = none) (hnp : (s.proc np).state = .zombie) :
    Scheduled (((s.modify np Proc.freeproc).modify p Proc.release).goto c (.run p .user)) := by
  have hne : p ≠ np := by
    rintro rfl
    simp [h.running hc] at hnp
  refine h.stay hc rfl rfl rfl ?_ ?_ ?_
  · intro x
    rw [State.goto_proc]
    rcases eq_or_ne x p with rfl | hx
    · rw [State.modify_self, State.modify_of_ne _ _ _ hne]
      exact ⟨.released (by simp [Code.locks, Pc.locks]) rfl (by simp [Code.locks, Pc.locks]),
        Or.inr ⟨Or.inr (by simp [Code.locks, Pc.locks]), Or.inl rfl⟩⟩
    · rw [State.modify_of_ne _ _ _ hx]
      rcases eq_or_ne x np with rfl | hxnp
      · rw [State.modify_self]
        refine ⟨.kept rfl (by simp [Code.locks, Pc.locks, hx]), ?_⟩
        exact Or.inr ⟨Or.inl hlock, Or.inr (Or.inr (.of_unused (by simp [hnp]) rfl))⟩
      · rw [State.modify_of_ne _ _ _ hxnp]
        exact .rfl (by simp [Code.locks, Pc.locks, hx])
  · rw [State.goto_proc, State.modify_self, State.modify_of_ne _ _ _ hne]
    exact h.running hc
  · rintro pc ⟨⟩
    trivial

/-! ## Runs -/

theorem move (hm : Move s c e t) : Scheduled t := by
  cases hm with
  | wakeup q chan hq => exact h.wakeup c chan hq
  | skip p hc => exact h.skip hc
  | pick p hc hlock hp => exact h.pick hc hlock hp
  | saveCpu p hc => exact h.saveCpu hc
  | load p r hc hp => exact h.load hc hp
  | loadStale p hc hp =>
    obtain ⟨-, r, hr, -⟩ := h.stage_of_code hc rfl
    simp [hp] at hr
  | save p r hc => exact h.save hc
  | loadCpu p q hc hq => exact h.loadCpu hc hq
  | loadCpuStale p hc hq =>
    have hcontext := h.context c p (by rw [hc]; rfl)
    simp [hq] at hcontext
  | back p hc => exact h.back hc
  | yield p pc hc hpc hlock => exact h.park hc (Or.inr ⟨hlock, hpc.locks_eq⟩) rfl (.runnable hpc)
  | sleep p k hc hlock => exact h.park hc (Or.inr ⟨hlock, rfl⟩) rfl (.sleeping trivial)
  | waitSleep p addr i havekids hc hi =>
    have hlock : (s.proc p).lock = some c := (h.locks p c).mpr (by simp [hc, Code.locks, Pc.locks])
    exact h.park hc (Or.inl rfl) hlock (.sleeping trivial)
  | resume p r pc f hc hpc hf =>
    have hstage := h.stage_of_code hc rfl
    have hint := Resume.interruptible_of_place hstage.2 hpc
    obtain ⟨chan, hf⟩ := hf
    refine h.resume hc ?_ ?_ (by rw [hf]) fun _ => hint.holds _
    · exact .released (by simp) (by rw [hf]) (by simp [hint.locks_eq])
    · simp [hint.locks_eq]
  | resumeWait p addr hc =>
    exact h.resume hc (.kept rfl Iff.rfl) (by simp [Pc.locks]) rfl fun _ => trivial
  | jump p e pc pc' hc hj => exact h.jump hc hj
  | acquire p q pc pc' hc hlock ha => exact h.acquire hc hlock ha
  | allocpid p np hc =>
    have hnp : (s.proc np).state = .unused := h.holds c p _ hc
    refine Scheduled.congr (h.edit (.forkFill np) (q := np) (f := fun q =>
      { q with pid := s.nextpid }) hc (.kept rfl Iff.rfl) (fun _ _ => Iff.rfl)
      (Or.inr (by simp [Pc.locks])) (Or.inl ⟨rfl, rfl⟩) ?_) rfl rfl
    rw [Pc.Holds, State.modify_self]
    exact hnp
  | noTrapframe p np hc => exact h.release hc rfl rfl (Or.inl ⟨rfl, rfl⟩)
  | forkFails p np a hc =>
    have hnp : (s.proc np).state = .unused := h.holds c p _ hc
    exact h.release hc rfl rfl (.of_unused (by simp [hnp]) rfl)
  | fork p np hc =>
    have hnp : (s.proc np).state = .unused := h.holds c p _ hc
    refine (h.release hc rfl rfl (Or.inr ⟨by simp [hnp], fun _ => ?_⟩)).congr rfl rfl
    exact Or.inr ⟨.forkret, rfl, .runnable trivial⟩
  | wakeInit p st hc hlock =>
    exact h.visit (.exitParent st) hc rfl hlock (Proc.wakeup_lock ..) (.of_wakeup _) trivial
  | adopt p st o pp hc hlock =>
    have hop : o ≠ p := h.holds c p _ hc
    exact (h.visit (.reparent st o (pp + 1)) hc rfl hlock rfl (Or.inl ⟨rfl, rfl⟩) hop).congr rfl rfl
  | die p st o i hc hi => exact (h.die hc).congr rfl rfl
  | giveUp p e pc hc hpc => exact h.release hc hpc.locks_eq rfl (Or.inl ⟨rfl, rfl⟩)
  | reap p addr np hc hlock hnp => exact (h.reap hc hlock hnp).congr rfl rfl
  | kill p pid q hc hlock hpid =>
    exact (h.visit .user hc rfl hlock rfl .of_kill trivial).congr rfl rfl

end

theorem boot : Scheduled (boot n) where
  locks q c := by
    have hlock : ∀ q, ((Process.boot n).proc q).lock = none :=
      (forall_update_iff _ fun _ (x : Proc n) => x.lock = none).mpr ⟨rfl, fun _ _ => rfl⟩
    change ((Process.boot n).proc q).lock = some c ↔ q ∈ []
    simp [hlock]
  proc c := rfl
  context c p hp := by simp [Process.boot, Code.away] at hp
  unique c d p hp := by simp [Process.boot, Code.proc] at hp
  stage c p hp := trivial
  parked p _ := by
    rcases eq_or_ne p initproc with rfl | hp
    · exact Or.inr ⟨.forkret, by simp [Process.boot], by
        simpa [Process.boot] using .runnable trivial⟩
    · exact Or.inl (by simp [Process.boot, freshProc, hp])
  holds c p pc hc := by simp [Process.boot] at hc
  tame c := by simp [Process.boot]

end Scheduled

theorem scheduled_of_reachable (h : (system n).Reachable s) : Scheduled s := by
  refine h.invariant ?_ ?_
  · rintro s rfl
    exact .boot
  · rintro s ⟨c, e⟩ t hs hstep
    exact hs.move (step_move hstep)

/-- A CPU that works on `p` without its lock runs `p`. -/
theorem Scheduled.running_iff (h : Scheduled s) (hlock : (s.proc p).lock = none) :
    (s.proc p).state = .running ↔ ∃ c, (s.cpu c).proc = some p := by
  constructor
  · intro hrunning
    by_contra hnone
    have hparked := h.parked p fun c hc => hnone ⟨c, (h.proc c).trans hc⟩
    rcases hparked with hunused | ⟨r, -, hparks⟩
    · simp [hrunning] at hunused
    · rw [hrunning] at hparks
      cases hparks
  · rintro ⟨c, hc⟩
    rw [h.proc c] at hc
    rcases mem_locks_or_run hc with hmem | ⟨pc, hrun⟩
    · exact absurd hlock (h.locks.ne_none_of_mem hmem)
    · exact h.running hrun

/-- At most one CPU has `c->proc = p`; when `p->lock` is free, `p` is running
exactly if some CPU has; and when `swtch` is about to load the registers of `p`,
they have been saved and no other CPU works on `p`. -/
theorem runs_on_one_cpu (h : (system n).Reachable s) :
    (∀ p c d, (s.cpu c).proc = some p → (s.cpu d).proc = some p → c = d) ∧
      (∀ p, (s.proc p).lock = none →
        ((s.proc p).state = .running ↔ ∃! c, (s.cpu c).proc = some p)) ∧
      ∀ p c, (s.cpu c).code = .loading p → (∃ r, (s.proc p).context = .saved r) ∧
          ∀ d, d ≠ c → (s.cpu d).code.proc ≠ some p := by
  have hs := scheduled_of_reachable h
  have hunique : ∀ p c d, (s.cpu c).proc = some p → (s.cpu d).proc = some p → c = d := by
    intro p c d hc hd
    exact hs.unique c d p ((hs.proc c).symm.trans hc) ((hs.proc d).symm.trans hd)
  refine ⟨hunique, ?_, ?_⟩
  · intro p hlock
    rw [hs.running_iff hlock]
    constructor
    · rintro ⟨c, hc⟩
      exact ⟨c, hc, fun d hd => hunique p d c hd hc⟩
    · rintro ⟨c, hc, -⟩
      exact ⟨c, hc⟩
  · intro p c hc
    obtain ⟨-, r, hr, -⟩ := hs.stage_of_code hc rfl
    exact ⟨⟨r, hr⟩, fun d hd hdp => hd (hs.unique d c p hdp (by rw [hc]; rfl))⟩

/-- The first process on the first of two CPUs. -/
theorem runs_on_one_cpu_init : ∃ s : State 2, (system 2).Reachable s ∧
    (s.cpu 0).proc = some initproc ∧ (s.cpu 1).proc ≠ some initproc := by
  obtain ⟨s, hrun, hproc⟩ : ∃ s, (system 2).run (boot 2) [(0, .step)] = some s ∧
      (s.cpu 0).proc = some initproc := ⟨_, rfl, rfl⟩
  have hs : (system 2).Reachable s := ⟨_, _, rfl, hrun⟩
  refine ⟨s, hs, hproc, fun h => ?_⟩
  exact absurd ((runs_on_one_cpu hs).1 initproc 0 1 hproc h) (by decide)

end OsCa.Process
