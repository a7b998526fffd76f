import OsCa.Kernel.Proc.Scheduler
import OsCa.Kernel.Proc.Family

/-!
# `exit` and `wait`

The history of the process table is a run of the abstract family.  The parent
pointers are read without a lock, so the invariant says what the reader still
knows later: `exit` knows that its parent is the one it read before or
`initproc`, the loop of `reparent` that it has no children in the slots it has
passed, and the loop of `wait`, which holds `p->lock`, that none of those is a
zombie.
-/

namespace OsCa.Process

open Function Option

variable {n : ℕ}

variable {o np : Slot} {i : ℕ} {f : Proc n → Proc n} {pc' : Pc} {g : Cpu → Cpu}
  {st : CInt}

/-! ## What the slots hold -/

def ProcState.isAlive : ProcState → Bool
  | .sleeping | .runnable | .running => true
  | .unused | .zombie => false

def Life.isDead : Life → Bool
  | .dead _ _ _ => true
  | _ => false

namespace Proc

def life (x : Proc n) : Life :=
  match x.state with
  | .unused => .free
  | .zombie => .dead x.pid x.parent x.xstate
  | .sleeping | .runnable | .running => .alive x.pid x.parent

variable {x x' : Proc n}

theorem life_of_isAlive (h : x.state.isAlive) : x.life = .alive x.pid x.parent := by
  unfold life
  split <;> simp_all [ProcState.isAlive]

theorem life_of_zombie (h : x.state = .zombie) : x.life = .dead x.pid x.parent x.xstate := by
  simp [life, h]

@[simp] theorem life_eq_free_iff : x.life = .free ↔ x.state = .unused := by
  unfold life
  split <;> simp_all

@[simp] theorem isAlive_life : x.life.isAlive = x.state.isAlive := by
  unfold life
  split <;> simp_all [Life.isAlive, ProcState.isAlive]

@[simp] theorem isDead_life : x.life.isDead = (x.state == .zombie) := by
  unfold life
  split <;> simp_all [Life.isDead]

theorem life_congr (hstate : x'.state = x.state) (hpid : x'.pid = x.pid)
    (hparent : x'.parent = x.parent) (hxstate : x'.xstate = x.xstate) :
    x'.life = x.life := by
  simp [life, hstate, hpid, hparent, hxstate]

theorem life_congr_of_isAlive (hx : x.state.isAlive) (hx' : x'.state.isAlive)
    (hpid : x'.pid = x.pid) (hparent : x'.parent = x.parent) :
    x'.life = x.life := by
  rw [life_of_isAlive hx, life_of_isAlive hx', hpid, hparent]

theorem life_congr_of_unused (hx : x.state = .unused) (hx' : x'.state = .unused) :
    x'.life = x.life := by
  simp [life, hx, hx']

/-- An unused slot has no parent, whatever has changed elsewhere. -/
theorem orphan_of_life (hlife : x'.life = x.life)
    (hparent : x'.parent = x.parent ∨ x'.parent = none)
    (h : x.state = .unused → x.parent = none) (hx' : x'.state = .unused) :
    x'.parent = none := by
  have hx : x.state = .unused := by
    rw [← life_eq_free_iff, ← hlife]
    exact life_eq_free_iff.mpr hx'
  rcases hparent with heq | hnone
  · rw [heq, h hx]
  · exact hnone

theorem parent_life (h : x.state = .unused → x.parent = none) : x.life.parent = x.parent := by
  unfold life
  split <;> simp_all [Life.parent]

@[simp] theorem life_wakeup (chan : Chan) : (x.wakeup chan).life = x.life := by
  unfold wakeup
  split
  next h =>
    exact life_congr_of_isAlive (by simp [h.1, ProcState.isAlive])
      (by simp [ProcState.isAlive]) rfl rfl
  next => rfl

@[simp] theorem life_kill : x.kill.life = x.life := by
  by_cases h : x.state = .sleeping
  · exact life_congr_of_isAlive (by simp [h, ProcState.isAlive])
      (by simp [kill, h, ProcState.isAlive]) rfl rfl
  · exact life_congr (by simp [kill, h]) rfl rfl rfl

end Proc

def State.lives (s : State n) (q : Slot) : Life := (s.proc q).life

/-! ## What the code knows -/

/-- What a process on its way into `exit` knows, at the places at which it holds
no lock. -/
def Pc.Plan (l : Slot → Life) (p : Slot) : Pc → Prop
  | .exitInit _ | .exitParent _ => p ≠ initproc
  | .exitLockParent _ o => p ≠ initproc ∧ ((l p).parent = o ∨ (l p).parent = some initproc)
  | _ => True

/-- The parent whose lock `exit` holds is the right one, unless that is
`initproc`. -/
def Leaves (l : Slot → Life) (p o : Slot) : Prop :=
  p ≠ initproc ∧ ((l p).parent = some o ∨ (l p).parent = some initproc)

/-- `p` has no zombie child below `i`; nobody waits for this with `initproc`,
which may get one at any time. -/
def NoDead (l : Slot → Life) (p : Slot) (i : ℕ) : Prop :=
  p ≠ initproc → ∀ j : Slot, j < i → (l j).parent = some p → (l j).isDead = false

/-- What a process knows where it holds locks. -/
def Pc.Knows (l : Slot → Life) (p : Slot) : Pc → Prop
  | .exitLockSelf _ o => Leaves l p o
  | .reparent _ o i => Leaves l p o ∧ ∀ j : Slot, j < i → (l j).parent ≠ some p
  | .reparentChild _ o pp =>
    (Leaves l p o ∧ ∀ j : Slot, j < pp → (l j).parent ≠ some p) ∧ (l pp).parent = some p
  | .waitScan _ i _ => NoDead l p i
  | .waitChild _ np => NoDead l p np ∧ (l np).parent = some p
  | _ => True

/-- Changes to the family that process `p` does not notice. -/
structure Calm (p : Slot) (l l' : Slot → Life) : Prop where
  own : (l' p).parent = (l p).parent ∨ (l' p).parent = some initproc
  child : ∀ j, (l j).parent = some p → (l' j).parent = some p
  gain : p ≠ initproc → ∀ j, (l' j).parent = some p → (l j).parent = some p

/-- No child of `p` dies. -/
def Spared (p : Slot) (l l' : Slot → Life) : Prop :=
  p ≠ initproc → ∀ j, (l' j).parent = some p → (l j).isDead = false → (l' j).isDead = false

section Calm

variable {l l' : Slot → Life} {p : Slot} {pc : Pc}

theorem Pc.Plan.calm (h : pc.Plan l p)
    (hown : (l' p).parent = (l p).parent ∨ (l' p).parent = some initproc) :
    pc.Plan l' p := by
  cases pc with
  | exitLockParent st o =>
    refine ⟨h.1, ?_⟩
    rcases hown with heq | hinit
    · rw [heq]
      exact h.2
    · exact Or.inr hinit
  | _ => exact h

theorem Calm.of_update {q : Slot} {x : Life}
    (hown : p = q → x.parent = (l q).parent ∨ x.parent = some initproc)
    (hchild : (l q).parent = some p → x.parent = some p)
    (hgain : p ≠ initproc → x.parent = some p → (l q).parent = some p) :
    Calm p l (update l q x) := by
  refine ⟨?_, fun j hj => ?_, fun hp j hj => ?_⟩
  · rcases eq_or_ne p q with rfl | hpq
    · rw [update_self]
      exact hown rfl
    · exact Or.inl (by rw [update_of_ne hpq])
  · rcases eq_or_ne j q with rfl | hjq
    · rw [update_self]
      exact hchild hj
    · rwa [update_of_ne hjq]
  · rcases eq_or_ne j q with rfl | hjq
    · rw [update_self] at hj
      exact hgain hp hj
    · rwa [update_of_ne hjq] at hj

theorem Spared.of_update {q : Slot} {x : Life}
    (h : p ≠ initproc → x.parent = some p → (l q).isDead = false → x.isDead = false) :
    Spared p l (update l q x) := by
  intro hp j hj hdead
  rcases eq_or_ne j q with rfl | hjq
  · rw [update_self] at hj ⊢
    exact h hp hj hdead
  · rwa [update_of_ne hjq]

theorem Leaves.calm (h : Leaves l p o) (hcalm : Calm p l l') : Leaves l' p o := by
  refine ⟨h.1, ?_⟩
  rcases hcalm.own with heq | hinit
  · rw [heq]
    exact h.2
  · exact Or.inr hinit

theorem NoDead.calm (h : NoDead l p i) (hcalm : Calm p l l') (hspared : Spared p l l') :
    NoDead l' p i :=
  fun hp j hj hparent => hspared hp j hparent (h hp j hj (hcalm.gain hp j hparent))

/-- A process that looks for zombies holds its own lock. -/
theorem Pc.Knows.calm (h : pc.Knows l p) (hcalm : Calm p l l')
    (hspared : p ∈ pc.locks p → Spared p l l') : pc.Knows l' p := by
  cases pc with
  | exitLockSelf st o => exact Leaves.calm h hcalm
  | reparent st o i =>
    exact ⟨h.1.calm hcalm, fun j hj hparent => h.2 j hj (hcalm.gain h.1.1 j hparent)⟩
  | reparentChild st o pp =>
    exact ⟨⟨h.1.1.calm hcalm, fun j hj hparent =>
      h.1.2 j hj (hcalm.gain h.1.1.1 j hparent)⟩, hcalm.child pp h.2⟩
  | waitScan addr i havekids => exact NoDead.calm h hcalm (hspared (by simp [Pc.locks]))
  | waitChild addr np => exact ⟨h.1.calm hcalm (hspared (by simp [Pc.locks])), hcalm.child np h.2⟩
  | _ => exact h

end Calm

/-- The invariant of `exit` and `wait`. -/
structure Aware (s : State n) : Prop where
  orphan : ∀ q, (s.proc q).state = .unused → (s.proc q).parent = none
  plan : ∀ p pc, At s p pc → (s.lives p).isAlive → pc.Plan s.lives p
  knows : ∀ c p pc, (s.cpu c).code = .run p pc → pc.Knows s.lives p
  asleep : ∀ p, (s.proc p).state = .sleeping →
    (s.proc p).chan = some (.proc p) → NoDead s.lives p NPROC
  told : Told s.records s.lives

variable {s t : State n} {c d : Fin n} {p q : Slot} {pc : Pc} {e : Event}

theorem Scheduled.isAlive_of_run (hs : Scheduled s)
    (hc : (s.cpu c).code = .run p pc) : (s.lives p).isAlive := by
  rw [State.lives, Proc.isAlive_life, hs.running hc]
  rfl

/-! ## Moves that keep the family -/

namespace Aware

theorem parent_eq (h : Aware s) (q : Slot) : (s.lives q).parent = (s.proc q).parent :=
  Proc.parent_life (h.orphan q)

theorem plan_of_run (h : Aware s) (hs : Scheduled s)
    (hc : (s.cpu c).code = .run p pc) : pc.Plan s.lives p :=
  h.plan p pc (.of_code (c := c) (by rw [hc]; rfl)) (hs.isAlive_of_run hc)

/-- Nobody is born, adopted, dies or is freed. -/
theorem quiet (h : Aware s) (hm : Move s c e t) (hlife : ∀ q, (t.proc q).life = (s.proc q).life)
    (hparent : ∀ q, (t.proc q).parent = (s.proc q).parent ∨ (t.proc q).parent = none)
    (hplace : ∀ p pc, (t.cpu c).code = .run p pc → pc.Plan s.lives p ∧ pc.Knows s.lives p)
    (hasleep : ∀ q, (t.proc q).state = .sleeping →
      (t.proc q).chan = some (.proc q) → NoDead s.lives q NPROC)
    (htold : Told t.records s.lives) : Aware t := by
  have hlives : t.lives = s.lives := funext hlife
  refine ⟨?_, ?_, ?_, ?_, ?_⟩
  · exact fun q => Proc.orphan_of_life (hlife q) (hparent q) (h.orphan q)
  · rw [hlives]
    rintro p pc (⟨d, hd⟩ | hsaved) halive
    · rcases eq_or_ne d c with rfl | hdc
      · rcases hm.at_of_place hd with hat | hrun
        · exact h.plan p pc hat halive
        · exact (hplace p pc hrun).1
      · rw [hm.cpu_of_ne hdc] at hd
        exact h.plan p pc (.of_code hd) halive
    · exact h.plan p pc (hm.at_of_context hsaved) halive
  · rw [hlives]
    intro d p pc hd
    rcases eq_or_ne d c with rfl | hdc
    · exact (hplace p pc hd).2
    · rw [hm.cpu_of_ne hdc] at hd
      exact h.knows d p pc hd
  · rw [hlives]
    exact hasleep
  · rwa [hlives]

/-- A quiet move that changes one slot. -/
theorem edit (h : Aware s) (hm : Move s c e t) (hproc : t.proc = (s.modify q f).proc)
    (hlife : (f (s.proc q)).life = (s.proc q).life)
    (hparent : (f (s.proc q)).parent = (s.proc q).parent ∨ (f (s.proc q)).parent = none)
    (hplace : ∀ p pc, (t.cpu c).code = .run p pc → pc.Plan s.lives p ∧ pc.Knows s.lives p)
    (hasleep : (f (s.proc q)).state = .sleeping →
      (f (s.proc q)).chan = some (.proc q) → NoDead s.lives q NPROC)
    (htold : Told t.records s.lives) : Aware t := by
  refine h.quiet hm ?_ ?_ hplace ?_ htold
  all_goals
    intro x
    rcases eq_or_ne x q with rfl | hx
    · rw [hproc, State.modify_self]
      assumption
    rw [hproc, State.modify_of_ne _ _ _ hx]
  · exact Or.inl rfl
  · exact h.asleep x

end Aware

/-- A change of slot `q` that no one else in the family notices. -/
structure Proc.Mute (q : Slot) (x x' : Proc n) : Prop where
  life : x'.life = x.life
  parent : x'.parent = x.parent ∨ x'.parent = none
  asleep : x'.state = .sleeping → x'.chan = some (.proc q) →
    x.state = .sleeping ∧ x.chan = some (.proc q)

namespace Proc.Mute

variable {x : Proc n}

theorem refl : Mute q x x := ⟨rfl, Or.inl rfl, fun hstate hchan => ⟨hstate, hchan⟩⟩

theorem acquire (c : Fin n) : Mute q x (x.acquire c) :=
  ⟨rfl, Or.inl rfl, fun hstate hchan => ⟨hstate, hchan⟩⟩

theorem release : Mute q x x.release := ⟨rfl, Or.inl rfl, fun hstate hchan => ⟨hstate, hchan⟩⟩

theorem wakeup (chan : Chan) : Mute q x (x.wakeup chan) := by
  refine ⟨life_wakeup chan, ?_, ?_⟩
  all_goals
    unfold Proc.wakeup
    split
  · exact Or.inl rfl
  · exact Or.inl rfl
  · simp
  · exact fun hstate hchan => ⟨hstate, hchan⟩

theorem kill : Mute q x x.kill := by
  refine ⟨life_kill, Or.inl rfl, fun hstate hchan => ?_⟩
  simp only [Proc.kill] at hstate
  split at hstate
  next => cases hstate
  next hne => exact absurd hstate hne

end Proc.Mute

theorem Jump.plan (hj : Jump s p e pc pc') (h : Aware s) (hpc : pc.Plan s.lives p) :
    pc'.Plan s.lives p := by
  cases hj with
  | exit st hp => exact hp
  | exitParent st => exact ⟨hpc, Or.inl (h.parent_eq p)⟩
  | _ => trivial

/-- The loops learn about one more slot. -/
theorem Jump.knows (hj : Jump s p e pc pc') (h : Aware s) (hpc : pc.Knows s.lives p) :
    pc'.Knows s.lives p := by
  cases hj with
  | reparentNext st o pp hpp =>
    refine ⟨hpc.1, fun j hj => ?_⟩
    rcases Nat.lt_succ_iff_lt_or_eq.mp hj with hlt | heq
    · exact hpc.2 j hlt
    · rw [Fin.ext heq, h.parent_eq]
      exact hpp
  | reparentFound st o pp hpp => exact ⟨hpc, (h.parent_eq pp).trans hpp⟩
  | waitNext addr np havekids hnp =>
    intro hp j hj hparent
    rcases Nat.lt_succ_iff_lt_or_eq.mp hj with hlt | heq
    · exact hpc hp j hlt hparent
    · rw [Fin.ext heq, h.parent_eq] at hparent
      exact absurd hparent hnp
  | waitFound addr np havekids hnp => exact ⟨hpc, (h.parent_eq np).trans hnp⟩
  | waitAlive addr np hnp =>
    intro hp j hj hparent
    rcases Nat.lt_succ_iff_lt_or_eq.mp hj with hlt | heq
    · exact hpc.1 hp j hlt hparent
    · rw [Fin.ext heq, State.lives, Proc.isDead_life]
      simpa using hnp
  | _ => trivial

theorem Acquires.plan (ha : Acquires s p q pc pc') : pc'.Plan s.lives p := by
  cases ha <;> trivial

theorem Acquires.knows (ha : Acquires s p q pc pc') (hplan : pc.Plan s.lives p)
    (hpc : pc.Knows s.lives p) : pc'.Knows s.lives p := by
  cases ha with
  | exitParent st => exact hplan
  | exitSelf st o => exact ⟨hpc, fun j hj => absurd hj (Nat.not_lt_zero _)⟩
  | wait addr => exact fun _ j hj => absurd hj (Nat.not_lt_zero _)
  | forkFound => trivial

theorem Pc.Interruptible.knows (h : pc.Interruptible) (l : Slot → Life) : pc.Knows l p := by
  cases pc <;> trivial

namespace Aware

/-- A slot changes in a way that no one notices. -/
theorem mute (h : Aware s) (hm : Move s c e t) (hproc : t.proc = (s.modify q f).proc)
    (hmute : Proc.Mute q (s.proc q) (f (s.proc q)))
    (hplace : ∀ p pc, (t.cpu c).code = .run p pc → pc.Plan s.lives p ∧ pc.Knows s.lives p)
    (htold : Told t.records s.lives) : Aware t := by
  refine h.edit hm hproc hmute.life hmute.parent hplace (fun hstate hchan => ?_) htold
  obtain ⟨hstate, hchan⟩ := hmute.asleep hstate hchan
  exact h.asleep q hstate hchan

/-- A process goes on, and changes a slot in a way that no one notices. -/
theorem walk (h : Aware s) (hm : Move s c e ((s.modify q f).goto c (.run p pc')))
    (hmute : Proc.Mute q (s.proc q) (f (s.proc q))) (hplan : pc'.Plan s.lives p)
    (hknows : pc'.Knows s.lives p) : Aware ((s.modify q f).goto c (.run p pc')) := by
  refine h.mute hm rfl hmute ?_ h.told
  rw [State.goto_self]
  rintro _ _ ⟨⟩
  exact ⟨hplan, hknows⟩

/-- A CPU goes on in code that is not that of a process. -/
theorem switch (h : Aware s) (hm : Move s c e ((s.modify q f).setCpu c g))
    (hrun : ∀ p pc, (g (s.cpu c)).code ≠ .run p pc)
    (hlife : (f (s.proc q)).life = (s.proc q).life)
    (hparent : (f (s.proc q)).parent = (s.proc q).parent)
    (hasleep : (f (s.proc q)).state = .sleeping →
      (f (s.proc q)).chan = some (.proc q) → NoDead s.lives q NPROC) :
    Aware ((s.modify q f).setCpu c g) := by
  refine h.edit hm rfl hlife (Or.inl hparent) ?_ hasleep h.told
  rw [State.setCpu_self]
  exact fun p pc hp => absurd hp (hrun p pc)

/-- A CPU changes nothing but its own place. -/
theorem relay (h : Aware s) (hm : Move s c e (s.setCpu c g))
    (hplace : ∀ p pc, (g (s.cpu c)).code = .run p pc →
      pc.Plan s.lives p ∧ pc.Knows s.lives p) : Aware (s.setCpu c g) := by
  refine h.quiet hm (fun _ => rfl) (fun _ => Or.inl rfl) ?_ h.asleep h.told
  rwa [State.setCpu_self]

end Aware

/-! ## Moves that change the family -/

theorem Scheduled.isAlive_of_place (hs : Scheduled s)
    (hc : (s.cpu c).code.place = some (p, pc)) : (s.lives p).isAlive := by
  rw [State.lives, Proc.isAlive_life]
  cases hk : (s.cpu c).code with
  | run q pc' =>
    rw [hk] at hc
    cases hc
    rw [hs.running hk]
    rfl
  | sched q r =>
    rw [hk] at hc
    cases r <;> cases hc
    have hstage := hs.stage_of_code hk rfl
    rw [Code.Stage] at hstage
    generalize (s.proc p).state = st at hstage ⊢
    cases hstage <;> rfl
  | resumed q r =>
    rw [hk] at hc
    cases r <;> cases hc
    rw [(hs.stage_of_code hk rfl).1]
    rfl
  | _ =>
    rw [hk] at hc
    cases hc

namespace Aware

section

variable (h : Aware s) (hs : Scheduled s) (hm : Move s c e t)

include h hs hm

/-- A move of process `p` that changes the life in slot `x`. -/
theorem turn {r : Record} {x : Slot} {y : Life} (hc : (s.cpu c).code = .run p pc)
    (hrecords : t.records = s.records ++ [r]) (hlife : (t.proc x).life = y)
    (hmute : ∀ q, q ≠ x → Proc.Mute q (s.proc q) (t.proc q))
    (hstep : FamilyStep s.lives r (update s.lives x y))
    (horphan : (t.proc x).state = .unused → (t.proc x).parent = none)
    (hplace : ∀ q pc, (t.cpu c).code.place = some (q, pc) →
      pc.Plan (update s.lives x y) q ∧ pc.Knows (update s.lives x y) q)
    (hback : ∀ pc, y.isAlive → (t.proc x).context = .saved (.yield pc) → (s.lives x).isAlive)
    (hcalm : ∀ q, q ≠ p → (s.lives q).isAlive → Calm q s.lives (update s.lives x y))
    (hself : (update s.lives x y p).parent = (s.lives p).parent ∨
      (update s.lives x y p).parent = some initproc)
    (hspared : ∀ q, q ≠ p → q ∈ pc.locks p ∨ Spared q s.lives (update s.lives x y))
    (hasleep : (t.proc x).state = .sleeping → (t.proc x).chan = some (.proc x) →
      (s.proc x).state = .sleeping ∧ (s.proc x).chan = some (.proc x))
    (hspare : ∀ q, (t.proc q).state = .sleeping → (t.proc q).chan = some (.proc q) →
      Spared q s.lives (update s.lives x y)) : Aware t := by
  have hlives : t.lives = update s.lives x y := by
    funext q
    rcases eq_or_ne q x with rfl | hq
    · rw [update_self]
      exact hlife
    · rw [update_of_ne hq]
      exact (hmute q hq).life
  rw [← hlives] at hstep hplace hcalm hself hspared hspare
  have hplan : ∀ q pc, At s q pc → (s.lives q).isAlive → pc.Plan t.lives q := by
    intro q pc hat halive
    refine (h.plan q pc hat halive).calm ?_
    rcases eq_or_ne q p with rfl | hq
    · exact hself
    · exact (hcalm q hq halive).own
  refine ⟨?_, ?_, ?_, ?_, ?_⟩
  · intro q
    rcases eq_or_ne q x with rfl | hq
    · exact horphan
    · exact Proc.orphan_of_life (hmute q hq).life (hmute q hq).parent (h.orphan q)
  · rintro q pc' (⟨d, hd⟩ | hsaved) halive
    · rcases eq_or_ne d c with rfl | hdc
      · exact (hplace q pc' hd).1
      · rw [hm.cpu_of_ne hdc] at hd
        exact hplan q pc' (.of_code hd) (hs.isAlive_of_place hd)
    · refine hplan q pc' (hm.at_of_context hsaved) ?_
      rcases eq_or_ne q x with rfl | hq
      · rw [hlives, update_self] at halive
        exact hback pc' halive hsaved
      · rwa [hlives, update_of_ne hq] at halive
  · intro d q pc' hd
    rcases eq_or_ne d c with rfl | hdc
    · exact (hplace q pc' (by rw [hd]; rfl)).2
    · rw [hm.cpu_of_ne hdc] at hd
      have hqp : q ≠ p := by
        rintro rfl
        exact hdc (hs.unique d c q (by rw [hd]; rfl) (by rw [hc]; rfl))
      refine (h.knows d q pc' hd).calm (hcalm q hqp (hs.isAlive_of_run hd)) ?_
      intro hmem
      refine (hspared q hqp).resolve_left fun hmem' => hdc ?_
      exact hs.locks.eq_of_mem (l := q) (by rw [hd]; exact hmem) (by rw [hc]; exact hmem')
  · intro q hstate hchan
    obtain ⟨hstate', hchan'⟩ : (s.proc q).state = .sleeping ∧ (s.proc q).chan = some (.proc q) := by
      rcases eq_or_ne q x with rfl | hq
      · exact hasleep hstate hchan
      · exact (hmute q hq).asleep hstate hchan
    have hqp : q ≠ p := by
      rintro rfl
      simp [hs.running hc] at hstate'
    have halive : (s.lives q).isAlive := by
      rw [State.lives, Proc.isAlive_life, hstate']
      rfl
    exact (h.asleep q hstate' hchan').calm (hcalm q hqp halive) (hspare q hstate hchan)
  · obtain ⟨l₀, h₀, hrun⟩ := h.told
    rw [hrecords]
    exact ⟨l₀, h₀, (EventSystem.run_snoc_eq_some_iff family).mpr
      ⟨s.lives, hrun, family_step_iff.mpr hstep⟩⟩

theorem fork (hc : (s.cpu c).code = .run p (.forkFill np)) (hcode : (t.cpu c).code = .run p .user)
    (hproc : t.proc = (s.modify np fun q =>
      { q with
        context := .saved .forkret
        parent := some p
        state := .runnable
        lock := none }).proc)
    (hrecords : t.records = s.records ++ [.forked p np (s.proc np).pid]) : Aware t := by
  have hunused : (s.proc np).state = .unused := hs.holds c p _ hc
  have hfree : s.lives np = .free := Proc.life_eq_free_iff.mpr hunused
  have hp := hs.isAlive_of_run hc
  have hne : ∀ q, (s.lives q).isAlive → q ≠ np := by
    rintro q hq rfl
    simp [hfree, Life.isAlive] at hq
  have hnp : t.proc np = { s.proc np with
      context := .saved .forkret
      parent := some p
      state := .runnable
      lock := none } := by
    rw [hproc, State.modify_self]
  have hspared : ∀ q, Spared q s.lives (update s.lives np (.alive (s.proc np).pid (some p))) :=
    fun _ => .of_update fun _ _ _ => rfl
  refine h.turn hs hm hc hrecords (by rw [hnp]; rfl) ?_ (.forked p np _ hp hfree) ?_ ?_ ?_
    ?_ (Or.inl (by rw [update_of_ne (hne p hp)])) (fun q _ => Or.inr (hspared q)) ?_
    fun q _ _ => hspared q
  · intro q hq
    rw [hproc, State.modify_of_ne _ _ _ hq]
    exact .refl
  · simp [hnp]
  · rw [hcode]
    rintro _ _ ⟨⟩
    exact ⟨trivial, trivial⟩
  · simp [hnp]
  -- The slot that changes was free, and becomes a child of `p`.
  · intro q hqp halive
    refine .of_update (fun heq => absurd heq (hne q halive)) ?_ ?_
    · simp [hfree, Life.parent]
    · exact fun _ heq => absurd (some.inj heq).symm hqp
  · simp [hnp]

theorem adopt {pp : Slot} (hc : (s.cpu c).code = .run p (.reparentChild st o pp))
    (hcode : (t.cpu c).code = .run p (.reparent st o (pp + 1)))
    (hproc : t.proc = (s.modify pp fun q => { q with parent := some initproc }).proc)
    (hrecords : t.records = s.records ++ [.adopted pp]) : Aware t := by
  obtain ⟨⟨hleaves, hbelow⟩, hparent⟩ := h.knows c p _ hc
  have hpp : t.proc pp = { s.proc pp with parent := some initproc } := by
    rw [hproc, State.modify_self]
  have hlife : (t.proc pp).life = (s.lives pp).adopt := by
    rw [hpp]
    simp only [State.lives, Proc.life]
    split <;> simp_all [Life.adopt]
  have hparent' : (s.lives pp).parent ≠ none := by simp [hparent]
  have hinit := Life.parent_adopt hparent'
  have hown : ∀ q, (update s.lives pp (s.lives pp).adopt q).parent = (s.lives q).parent ∨
      (update s.lives pp (s.lives pp).adopt q).parent = some initproc := by
    intro q
    rcases eq_or_ne q pp with rfl | hq
    · rw [update_self]
      exact Or.inr hinit
    · exact Or.inl (by rw [update_of_ne hq])
  have hspared : ∀ q, Spared q s.lives (update s.lives pp (s.lives pp).adopt) := by
    refine fun q => .of_update fun _ _ hdead => ?_
    generalize s.lives pp = x at hdead ⊢
    cases x <;> simp_all [Life.adopt]
  refine h.turn hs hm hc hrecords hlife ?_ (.adopted pp hparent') ?_ ?_ ?_ ?_ (hown p)
    (fun q _ => Or.inr (hspared q)) ?_ fun q _ _ => hspared q
  · intro q hq
    rw [hproc, State.modify_of_ne _ _ _ hq]
    exact .refl
  · intro hq
    rw [hpp] at hq
    rw [h.parent_eq, h.orphan pp hq] at hparent
    cases hparent
  · rw [hcode]
    rintro _ _ ⟨⟩
    refine ⟨trivial, ⟨hleaves.1, ?_⟩, fun j hj hjp => ?_⟩
    · rcases hown p with heq | heq
      · rw [heq]
        exact hleaves.2
      · exact Or.inr heq
    · rcases eq_or_ne j pp with rfl | hne
      · rw [update_self, hinit] at hjp
        exact hleaves.1 (some.inj hjp).symm
      · rw [update_of_ne hne] at hjp
        rcases Nat.lt_succ_iff_lt_or_eq.mp hj with hlt | heq
        · exact hbelow j hlt hjp
        · exact hne (Fin.ext heq)
  · intro pc hq _
    rwa [Life.isAlive_adopt] at hq
  · intro q hqp _
    refine .of_update (fun _ => Or.inr hinit) ?_ ?_
    · intro hq
      rw [hparent] at hq
      exact absurd (some.inj hq).symm hqp
    · intro hq heq
      rw [hinit] at heq
      exact absurd (some.inj heq).symm hq
  · rw [hpp]
    exact fun hsleep hchan => ⟨hsleep, hchan⟩

/-- The exiting process has woken up the only parent that could miss it. -/
theorem die (hc : (s.cpu c).code = .run p (.reparent st o i)) (hi : NPROC ≤ i)
    (hcode : (t.cpu c).code = .sched p .dead)
    (hproc : t.proc = ((s.modify o fun q => (q.wakeup (.proc o)).release).modify
      p fun q => { q with xstate := st, state := .zombie }).proc)
    (hrecords : t.records = s.records ++ [.exited p st]) : Aware t := by
  obtain ⟨hleaves, hbelow⟩ := h.knows c p _ hc
  have hop : o ≠ p := hs.holds c p _ hc
  have hself : t.proc p = { s.proc p with xstate := st, state := .zombie } := by
    rw [hproc, State.modify_self, State.modify_of_ne _ _ _ hop.symm]
  have ho : t.proc o = ((s.proc o).wakeup (.proc o)).release := by
    rw [hproc, State.modify_of_ne _ _ _ hop, State.modify_self]
  have hwakeup : Proc.Mute o (s.proc o) ((s.proc o).wakeup (.proc o)) := .wakeup _
  have halive : (s.proc p).state.isAlive := by
    rw [hs.running hc]
    rfl
  have hparent := h.parent_eq p
  have hspared : ∀ q, q ≠ o → Spared q s.lives
      (update s.lives p (.dead (s.proc p).pid (s.proc p).parent st)) := by
    refine fun q hqo => .of_update fun hq hj _ => ?_
    have heq : (s.lives p).parent = some q := hparent.trans hj
    rw [Leaves, heq] at hleaves
    rcases hleaves.2 with heq | heq
    · exact absurd (some.inj heq) hqo
    · exact absurd (some.inj heq) hq
  have hlife : (t.proc p).life = .dead (s.proc p).pid (s.proc p).parent st := by
    rw [hself]
    rfl
  refine h.turn hs hm hc hrecords hlife ?_ ?_ ?_ ?_ ?_ ?_
    (Or.inl (by rw [update_self, hparent]; rfl)) ?_ ?_ ?_
  · intro q hqp
    rcases eq_or_ne q o with rfl | hqo
    · rw [ho]
      exact ⟨hwakeup.life, hwakeup.parent, hwakeup.asleep⟩
    · rw [hproc, State.modify_of_ne _ _ _ hqp, State.modify_of_ne _ _ _ hqo]
      exact .refl
  · exact .exited p st _ _ hleaves.1 (Proc.life_of_isAlive halive)
      fun q => hbelow q (lt_of_lt_of_le q.isLt hi)
  · simp [hself]
  · rw [hcode]
    rintro _ _ ⟨⟩
  · simp [Life.isAlive]
  · intro q hqp _
    exact .of_update (fun heq => absurd heq hqp) (fun hq => hparent.symm.trans hq)
      fun _ hq => hparent.trans hq
  · intro q hqp
    rcases eq_or_ne q o with rfl | hqo
    · exact Or.inl (by simp [Pc.locks])
    · exact Or.inr (hspared q hqo)
  · simp [hself]
  · intro q hsleep hchan
    refine hspared q ?_
    rintro rfl
    rw [ho] at hsleep hchan
    obtain ⟨hstate, hchan'⟩ := hwakeup.asleep hsleep hchan
    simp [Proc.release, Proc.wakeup, hstate, hchan'] at hsleep

theorem reap {addr : Bool} (hc : (s.cpu c).code = .run p (.waitChild addr np))
    (hnp : (s.proc np).state = .zombie) (hcode : (t.cpu c).code = .run p .user)
    (hproc : t.proc = ((s.modify np Proc.freeproc).modify p Proc.release).proc)
    (hrecords : t.records = s.records ++ [.waited p np (s.proc np).pid (if addr then
      some (s.proc np).xstate else none)]) : Aware t := by
  obtain ⟨-, hparent⟩ := h.knows c p _ hc
  have hne : p ≠ np := by
    rintro rfl
    simp [hs.running hc] at hnp
  have hchild : t.proc np = (s.proc np).freeproc := by
    rw [hproc, State.modify_of_ne _ _ _ hne.symm, State.modify_self]
  have hlife : s.lives np = .dead (s.proc np).pid (some p) (s.proc np).xstate := by
    rw [State.lives, Proc.life_of_zombie hnp, ← h.parent_eq np, hparent]
  have hspared : ∀ q, Spared q s.lives (update s.lives np .free) :=
    fun _ => .of_update (by simp [Life.parent])
  refine h.turn hs hm hc hrecords (by rw [hchild]; rfl) ?_ ?_ ?_ ?_ ?_ ?_
    (Or.inl (by rw [update_of_ne hne])) (fun q _ => Or.inr (hspared q)) ?_
    fun q _ _ => hspared q
  · intro q hq
    rcases eq_or_ne q p with rfl | hqp
    · rw [hproc, State.modify_self, State.modify_of_ne _ _ _ hq]
      exact .release
    · rw [hproc, State.modify_of_ne _ _ _ hqp, State.modify_of_ne _ _ _ hq]
      exact .refl
  · exact .waited p np _ _ _ hlife (by cases addr <;> simp)
  · rw [hchild]
    exact fun _ => rfl
  · rw [hcode]
    rintro _ _ ⟨⟩
    exact ⟨trivial, trivial⟩
  · simp [Life.isAlive]
  · intro q hqp halive
    refine .of_update ?_ ?_ ?_
    · rintro rfl
      simp [hlife, Life.isAlive] at halive
    · intro hq
      rw [hparent] at hq
      exact absurd (some.inj hq).symm hqp
    · simp [Life.parent]
  · simp [hchild, Proc.freeproc]

/-! ## Runs -/

theorem move : Aware t := by
  have hm' := hm
  cases hm with
  | wakeup q chan hq =>
    exact h.mute hm' rfl (.wakeup chan)
      (fun p pc hc => ⟨h.plan_of_run hs hc, h.knows c p pc hc⟩) h.told
  | skip p hc => exact h.relay hm' (by simp)
  | pick p hc hlock hp =>
    refine h.switch hm' (by simp) ?_ rfl (by simp)
    exact Proc.life_congr_of_isAlive (by simp [hp, ProcState.isAlive])
      (by simp [ProcState.isAlive]) rfl rfl
  | saveCpu p hc => exact h.relay hm' (by simp)
  | load p r hc hp => exact h.switch hm' (by simp) rfl rfl (h.asleep p)
  | loadStale p hc hp => exact h.relay hm' (by simp)
  | save p r hc => exact h.switch hm' (by simp) rfl rfl (h.asleep p)
  | loadCpu p q hc hq => exact h.relay hm' (by simp)
  | loadCpuStale p hc hq => exact h.relay hm' (by simp)
  | back p hc => exact h.switch hm' (by simp) rfl rfl (h.asleep p)
  | yield p pc hc hpc hlock =>
    refine h.switch hm' (by simp) ?_ rfl (by simp)
    exact Proc.life_congr_of_isAlive (by simp [hs.running hc, ProcState.isAlive])
      (by simp [ProcState.isAlive]) rfl rfl
  | sleep p k hc hlock =>
    refine h.switch hm' (by simp) ?_ rfl (by simp)
    exact Proc.life_congr_of_isAlive (by simp [hs.running hc, ProcState.isAlive])
      (by simp [ProcState.isAlive]) rfl rfl
  | waitSleep p addr i havekids hc hi =>
    refine h.switch hm' (by simp) ?_ rfl ?_
    · exact Proc.life_congr_of_isAlive (by simp [hs.running hc, ProcState.isAlive])
        (by simp [ProcState.isAlive]) rfl rfl
    · -- The loop has seen every slot.
      intro _ _ hp j hj
      exact h.knows c p _ hc hp j (lt_of_lt_of_le hj hi)
  | resume p r pc f hc hpc hf =>
    have hstage := hs.stage_of_code hc rfl
    have hint := Resume.interruptible_of_place hstage.2 hpc
    obtain ⟨chan, hf⟩ := hf
    refine h.walk hm' ⟨by rw [hf]; rfl, Or.inl (by rw [hf]), ?_⟩ ?_ (hint.knows _)
    · rw [hf]
      intro hstate
      simp [hstage.1] at hstate
    · cases r with
      | yield pc' =>
        cases hpc
        refine h.plan p pc (.of_code (c := c) (by rw [hc]; rfl)) ?_
        rw [State.lives, Proc.isAlive_life, hstage.1]
        rfl
      | forkret | sleep =>
        cases hpc
        trivial
      | wait | dead => cases hpc
  | resumeWait p addr hc =>
    refine h.walk hm' ⟨rfl, Or.inl rfl, by simp⟩ trivial ?_
    exact fun _ j hj => absurd hj (Nat.not_lt_zero _)
  | jump p e pc pc' hc hj =>
    refine h.relay hm' ?_
    rintro _ _ ⟨⟩
    exact ⟨hj.plan h (h.plan_of_run hs hc), hj.knows h (h.knows c p pc hc)⟩
  | acquire p q pc pc' hc hlock ha =>
    exact h.walk hm' (.acquire c) ha.plan (ha.knows (h.plan_of_run hs hc) (h.knows c p pc hc))
  | allocpid p np hc =>
    have hnp : (s.proc np).state = .unused := hs.holds c p _ hc
    refine h.edit (q := np) (f := fun q => { q with pid := s.nextpid }) hm' rfl
      (Proc.life_congr_of_unused hnp hnp) (Or.inl rfl) ?_ (h.asleep np) h.told
    simp only [State.goto_self]
    rintro q pc' ⟨⟩
    exact ⟨trivial, trivial⟩
  | noTrapframe p np hc => exact h.walk hm' .release trivial trivial
  | forkFails p np a hc =>
    have hnp : (s.proc np).state = .unused := hs.holds c p _ hc
    exact h.walk hm' ⟨Proc.life_congr_of_unused hnp rfl, Or.inr rfl,
      by simp [Proc.release, Proc.freeproc]⟩ trivial trivial
  | fork p np hc => exact h.fork hs hm' hc (State.goto_self ..) rfl rfl
  | wakeInit p st hc hlock =>
    have hp : p ≠ initproc := h.plan_of_run hs hc
    exact h.walk hm' (.wakeup _) hp trivial
  | adopt p st o pp hc hlock => exact h.adopt hs hm' hc (State.goto_self ..) rfl rfl
  | die p st o i hc hi => exact h.die hs hm' hc hi (State.goto_self ..) rfl rfl
  | giveUp p e pc hc hpc => exact h.walk hm' .release trivial trivial
  | reap p addr np hc hlock hnp => exact h.reap hs hm' hc hnp (State.goto_self ..) rfl rfl
  | kill p pid q hc hlock hpid =>
    refine h.mute hm' rfl .kill ?_ ?_
    · rw [State.record_cpu, State.goto_self]
      rintro _ _ ⟨⟩
      exact ⟨trivial, trivial⟩
    · obtain ⟨l₀, h₀, hrun⟩ := h.told
      exact ⟨l₀, h₀, (EventSystem.run_snoc_eq_some_iff family).mpr ⟨s.lives, hrun, rfl⟩⟩

end

theorem boot : Aware (boot n) := by
  have hlives : (Process.boot n).lives =
      update (fun _ => .free) initproc (.alive 1 none) := by
    funext q
    rcases eq_or_ne q initproc with rfl | hq
    · simp [State.lives, Process.boot, Proc.life, freshProc]
    · simp [State.lives, Process.boot, hq, freshProc]
  have hsaved : ∀ q, ∀ pc, ((Process.boot n).proc q).context ≠ .saved (.yield pc) :=
    (forall_update_iff _ fun _ (x : Proc n) => ∀ pc, x.context ≠ .saved (.yield pc)).mpr
      ⟨by simp, by simp [freshProc]⟩
  have hchan : ∀ q, ((Process.boot n).proc q).chan = none :=
    (forall_update_iff _ fun _ (x : Proc n) => x.chan = none).mpr ⟨rfl, fun _ _ => rfl⟩
  refine ⟨?_, ?_, ?_, ?_, ?_⟩
  · exact (forall_update_iff _ fun _ (x : Proc n) => x.state = .unused → x.parent = none).mpr
      ⟨by simp, fun _ _ _ => rfl⟩
  · rintro p pc (⟨c, hc⟩ | hcontext)
    · cases hc
    · exact absurd hcontext (hsaved p pc)
  · intro c p pc hc
    cases hc
  · intro p _ hp
    simp [hchan] at hp
  · exact ⟨_, rfl, hlives ▸ rfl⟩

end Aware

theorem aware_of_reachable (h : (system n).Reachable s) : Aware s := by
  suffices hall : Scheduled s ∧ Aware s from hall.2
  refine h.invariant (P := fun s => Scheduled s ∧ Aware s) ?_ ?_
  · rintro s rfl
    exact ⟨.boot, .boot⟩
  · rintro s ⟨c, e⟩ t ⟨hs, ha⟩ hstep
    exact ⟨hs.move (step_move hstep), ha.move hs (step_move hstep)⟩

/-- `wait` never misses an exit: while a process other than `initproc` sleeps in
`wait`, it has no zombie child. -/
theorem wait_misses_no_exit (h : (system n).Reachable s) (hp : p ≠ initproc)
    (hstate : (s.proc p).state = .sleeping)
    (hchan : (s.proc p).chan = some (.proc p)) (q : Slot)
    (hq : (s.proc q).parent = some p) : (s.proc q).state ≠ .zombie := by
  have ha := aware_of_reachable h
  have hdead := ha.asleep p hstate hchan hp q q.isLt ((ha.parent_eq q).trans hq)
  rw [State.lives, Proc.isDead_life] at hdead
  simpa using hdead

/-- One CPU makes `k` steps and then something happens. -/
def stepsThen (k : ℕ) (e : Event) : List (Fin 1 × Event) := List.replicate k (0, .step) ++ [(0, e)]

/-- One CPU: `initproc` forks and waits, and then so does its child. -/
def twoWaits : List (Fin 1 × Event) :=
  stepsThen 4 .fork ++ stepsThen 3 (.alloc .enough) ++ stepsThen 0 (.wait true) ++
    stepsThen 74 .fork ++ stepsThen 4 (.alloc .enough) ++
    stepsThen 0 (.wait true) ++ stepsThen 69 .step

theorem wait_misses_no_exit_twoWaits : ∃ s : State 1, (system 1).Reachable s ∧
    (s.proc (nextSlot initproc)).state = .sleeping ∧
    (s.proc (nextSlot (nextSlot initproc))).parent = some (nextSlot initproc) ∧
    (s.proc (nextSlot (nextSlot initproc))).state ≠ .zombie := by
  obtain ⟨s, hs, hstate, hchan, hparent⟩ : ∃ s, (system 1).run (boot 1) twoWaits = some s ∧
      (s.proc (nextSlot initproc)).state = .sleeping ∧
      (s.proc (nextSlot initproc)).chan = some (.proc (nextSlot initproc)) ∧
      (s.proc (nextSlot (nextSlot initproc))).parent = some (nextSlot initproc) :=
    EventSystem.exists_of_any_run (by decide +kernel)
  have hreach : (system 1).Reachable s := ⟨_, _, rfl, hs⟩
  exact ⟨s, hreach, hstate, hparent, wait_misses_no_exit hreach (by decide) hstate hchan _ hparent⟩

/-- Every process but the first has a parent that is neither unused nor a
zombie.  A `wait` that returns `pid` returns a child of its caller, which was
forked with that pid and has exited with that status since.  Between two waits
for one slot there is a fork, so no exit is returned twice, and between the exit
of a process and the next fork in its slot there is the wait for it. -/
theorem wait_reaps_children (h : (system n).Reachable s) :
    (∀ q, q ≠ initproc → (s.proc q).state ≠ .unused →
      ∃ a, (s.proc q).parent = some a ∧ (s.proc a).state ≠ .unused ∧ (s.proc a).state ≠ .zombie) ∧
    (∀ rs rs' a q pid status, s.records = rs ++ .waited a q pid status :: rs' →
      ∃ u b v st w, rs = u ++ .forked b q pid :: (v ++ .exited q st :: w) ∧
        Silent q v ∧ Silent q w ∧ a = parentAfter q b (v ++ w) ∧
        (status = none ∨ status = some st)) ∧
    (∀ rs v rs' a a' q pid pid' status status', s.records = rs ++ .waited a q pid status ::
        (v ++ .waited a' q pid' status' :: rs') →
      ∃ b pid'', .forked b q pid'' ∈ v) ∧
    (∀ rs v rs' q st b pid, s.records = rs ++ .exited q st :: (v ++ .forked b q pid :: rs') →
      ∃ a pid' status, .waited a q pid' status ∈ v) := by
  have ha := aware_of_reachable h
  have htold := ha.told
  refine ⟨?_, ?_, ?_, ?_⟩
  · intro q hq hunused
    have hlife : s.lives q ≠ .free := fun hfree => hunused (Proc.life_eq_free_iff.mp hfree)
    obtain ⟨a, hparent, halive⟩ := htold.kinship.parent q hq hlife
    rw [State.lives, Proc.isAlive_life] at halive
    refine ⟨a, (ha.parent_eq q).symm.trans hparent, ?_, ?_⟩
    · intro hstate
      simp [hstate, ProcState.isAlive] at halive
    · intro hstate
      simp [hstate, ProcState.isAlive] at halive
  · intro rs rs' a q pid status hrecords
    rw [hrecords] at htold
    obtain ⟨l₁, l₂, hl₁, hstep, -⟩ := htold.of_append_cons
    cases hstep with
    | waited _ _ _ st _ hl hstatus =>
      have hq : q ≠ initproc := by
        rintro rfl
        have halive := hl₁.kinship.init
        simp [hl, Life.isAlive] at halive
      have hpast := hl₁.past hq
      rw [hl] at hpast
      obtain ⟨u, b, v, w, hrs, hv, hw, hparent⟩ := hpast
      exact ⟨u, b, v, st, w, hrs, hv, hw, some.inj hparent, hstatus⟩
  · intro rs v rs' a a' q pid pid' status status' hrecords
    rw [hrecords] at htold
    obtain ⟨l₁, l₂, l₃, l₄, hstep, hrun, hstep'⟩ := htold.between
    refine exists_forked_of_run hrun ?_ ?_
    · cases hstep
      exact update_self ..
    · cases hstep' with
      | waited _ _ _ st _ hl hstatus => simp [hl]
  · intro rs v rs' q st b pid hrecords
    rw [hrecords] at htold
    obtain ⟨l₁, l₂, l₃, l₄, hstep, hrun, hstep'⟩ := htold.between
    have hdead : ∃ x, l₂ q = x ∧ x ≠ .free ∧ x.isAlive = false := by
      cases hstep
      exact ⟨_, update_self .., by simp, rfl⟩
    obtain ⟨x, hx, hfree, halive⟩ := hdead
    refine exists_waited_of_run hrun (hx ▸ hfree) (hx ▸ halive) ?_
    cases hstep' with
    | forked _ _ _ _ hq => exact hq

/-- One CPU: `initproc` forks and waits, its child exits with status 7. -/
def forkExitWait : List (Fin 1 × Event) :=
  stepsThen 4 .fork ++ stepsThen 3 (.alloc .enough) ++ stepsThen 0 (.wait true) ++
    stepsThen 74 (.exit 7) ++ stepsThen 140 .step

theorem wait_reaps_children_forkExitWait : ∃ s : State 1, (system 1).Reachable s ∧
    s.records = [.forked initproc (nextSlot initproc) 2, .exited (nextSlot initproc) 7] ++
        .waited initproc (nextSlot initproc) 2 (some 7) :: [] ∧
    ∃ u b v st w, [Record.forked initproc (nextSlot initproc) 2,
      .exited (nextSlot initproc) 7] = u ++ .forked b (nextSlot initproc) 2 ::
        (v ++ .exited (nextSlot initproc) st :: w) := by
  obtain ⟨s, hs, hrecords⟩ : ∃ s, (system 1).run (boot 1) forkExitWait = some s ∧
      s.records = [.forked initproc (nextSlot initproc) 2, .exited (nextSlot initproc) 7] ++
        .waited initproc (nextSlot initproc) 2 (some 7) :: [] :=
    EventSystem.exists_of_any_run (by decide +kernel)
  have hreach : (system 1).Reachable s := ⟨_, _, rfl, hs⟩
  obtain ⟨u, b, v, st, w, hrs, -⟩ := (wait_reaps_children hreach).2.1 _ _ _ _ _ _ hrecords
  exact ⟨s, hreach, hrecords, u, b, v, st, w, hrs⟩

end OsCa.Process
