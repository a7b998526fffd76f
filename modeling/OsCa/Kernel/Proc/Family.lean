import OsCa.Kernel.Proc.Model

/-!
# Families of processes

An abstract model of `fork`, `exit` and `wait`: each slot is free, or holds a
process that is alive or dead, and the calls take effect one after the other.  A
process that exits has no children left, and only its parent can free its slot.
The history of the process table is shown to be a run of this model later; here
are the properties of such runs.
-/

namespace OsCa.Process

open Function

/-- What is in a slot. -/
inductive Life where
  | free
  | alive (pid : CInt) (parent : Option Slot)
  | dead (pid : CInt) (parent : Option Slot) (status : CInt)
  deriving DecidableEq

namespace Life

def parent : Life → Option Slot
  | .free => none
  | .alive _ a | .dead _ a _ => a

def isAlive : Life → Bool
  | .alive _ _ => true
  | _ => false

/-- The process gets the parent `initproc`. -/
def adopt : Life → Life
  | .free => .free
  | .alive pid _ => .alive pid (some initproc)
  | .dead pid _ st => .dead pid (some initproc) st

@[simp] theorem isAlive_adopt (l : Life) : l.adopt.isAlive = l.isAlive := by
  cases l <;> rfl

theorem parent_adopt {l : Life} (h : l.parent ≠ none) : l.adopt.parent = some initproc := by
  cases l <;> simp_all [parent, adopt]

theorem ne_free_of_parent {l : Life} (h : l.parent ≠ none) : l ≠ .free := by
  rintro rfl
  exact h rfl

end Life

/-- The effect of one call. -/
def family : EventSystem (Slot → Life) Record where
  init l := l = update (fun _ => .free) initproc (.alive 1 none)
  step l
    | .forked a q pid =>
      if (l a).isAlive ∧ l q = .free then
        some (update l q (.alive pid (some a)))
      else none
    | .adopted q => if (l q).parent ≠ none then some (update l q (l q).adopt) else none
    | .exited p st =>
      match l p with
      | .alive pid a =>
        if p ≠ initproc ∧ ∀ q, (l q).parent ≠ some p then
          some (update l p (.dead pid a st))
        else none
      | _ => none
    | .waited a q pid status =>
      match l q with
      | .dead pid' a' st =>
        if pid' = pid ∧ a' = some a ∧ (status = none ∨ status = some st) then
          some (update l q .free)
        else none
      | _ => none
    | .killed _ => some l

/-- The same with one constructor for each call. -/
inductive FamilyStep (l : Slot → Life) : Record → (Slot → Life) → Prop where
  | forked (a q : Slot) (pid : CInt) (ha : (l a).isAlive) (hq : l q = .free) :
      FamilyStep l (.forked a q pid) (update l q (.alive pid (some a)))
  | adopted (q : Slot) (hq : (l q).parent ≠ none) :
      FamilyStep l (.adopted q) (update l q (l q).adopt)
  | exited (p : Slot) (st pid : CInt) (a : Option Slot) (hp : p ≠ initproc)
      (hl : l p = .alive pid a) (hnone : ∀ q, (l q).parent ≠ some p) :
      FamilyStep l (.exited p st) (update l p (.dead pid a st))
  | waited (a q : Slot) (pid st : CInt) (status : Option CInt) (hl : l q = .dead pid (some a) st)
      (hstatus : status = none ∨ status = some st) :
      FamilyStep l (.waited a q pid status) (update l q .free)
  | killed (pid : CInt) : FamilyStep l (.killed pid) l

variable {l l' : Slot → Life} {r : Record} {rs : List Record} {q : Slot}

theorem family_step_iff : family.step l r = some l' ↔ FamilyStep l r l' := by
  constructor
  · intro h
    simp only [family] at h
    split at h
    · obtain ⟨hg, ⟨⟩⟩ := Option.ite_none_right_eq_some.mp h
      exact .forked _ _ _ hg.1 hg.2
    · obtain ⟨hg, ⟨⟩⟩ := Option.ite_none_right_eq_some.mp h
      exact .adopted _ hg
    · split at h
      next pid a hl =>
        obtain ⟨hg, ⟨⟩⟩ := Option.ite_none_right_eq_some.mp h
        exact .exited _ _ pid a hg.1 hl hg.2
      next => cases h
    · split at h
      next pid a st hl =>
        obtain ⟨hg, ⟨⟩⟩ := Option.ite_none_right_eq_some.mp h
        obtain ⟨rfl, rfl, hstatus⟩ := hg
        exact .waited _ _ _ st _ hl hstatus
      next => cases h
    · cases h
      exact .killed _
  · rintro (⟨a, q, pid, ha, hq⟩ | ⟨q, hq⟩ | ⟨p, st, pid, a, hp, hl, hnone⟩ |
      ⟨a, q, pid, st, status, hl, hstatus⟩ | pid)
    · simp [family, ha, hq]
    · simp [family, hq]
    · simp [family, hp, hl, hnone]
    · simp [family, hl, hstatus]
    · rfl

/-! ## Parents -/

/-- Every process but the first has a living parent. -/
structure Kinship (l : Slot → Life) : Prop where
  init : (l initproc).isAlive
  parent : ∀ q, q ≠ initproc → l q ≠ .free → ∃ a, (l q).parent = some a ∧ (l a).isAlive

theorem Kinship.step (h : Kinship l) (hstep : FamilyStep l r l') : Kinship l' := by
  cases hstep with
  | forked a q pid ha hq =>
    have halive : ∀ x, (l x).isAlive → (update l q (.alive pid (some a)) x).isAlive := by
      intro x hx
      rcases eq_or_ne x q with rfl | hne
      · simp [Life.isAlive]
      · rwa [update_of_ne hne]
    refine ⟨halive _ h.init, fun x hx hfree => ?_⟩
    rcases eq_or_ne x q with rfl | hne
    · exact ⟨a, by simp [Life.parent], halive a ha⟩
    · rw [update_of_ne hne] at hfree ⊢
      obtain ⟨b, hb, hbalive⟩ := h.parent x hx hfree
      exact ⟨b, hb, halive b hbalive⟩
  | adopted q hq =>
    have halive : ∀ x, (update l q (l q).adopt x).isAlive = (l x).isAlive := by
      intro x
      rcases eq_or_ne x q with rfl | hne
      · simp
      · rw [update_of_ne hne]
    refine ⟨(halive _).trans h.init, fun x hx hfree => ?_⟩
    rcases eq_or_ne x q with rfl | hne
    · refine ⟨initproc, ?_, (halive _).trans h.init⟩
      rw [update_self]
      exact Life.parent_adopt hq
    · rw [update_of_ne hne] at hfree ⊢
      obtain ⟨b, hb, hbalive⟩ := h.parent x hx hfree
      exact ⟨b, hb, (halive b).trans hbalive⟩
  | exited p st pid a hp hl hnone =>
    refine ⟨?_, fun x hx hfree => ?_⟩
    · rw [update_of_ne hp.symm]
      exact h.init
    · have hx' : l x ≠ .free ∧ (update l p (.dead pid a st) x).parent = (l x).parent := by
        rcases eq_or_ne x p with rfl | hne
        · simp [hl, Life.parent]
        · rw [update_of_ne hne] at hfree ⊢
          exact ⟨hfree, rfl⟩
      obtain ⟨b, hb, hbalive⟩ := h.parent x hx hx'.1
      have hbp : b ≠ p := fun hbp => hnone x (hbp ▸ hb)
      refine ⟨b, hx'.2.trans hb, ?_⟩
      rwa [update_of_ne hbp]
  | waited a q pid st status hl hstatus =>
    have hq : ¬(l q).isAlive := by simp [hl, Life.isAlive]
    have halive : ∀ x, (l x).isAlive → (update l q .free x).isAlive := by
      intro x hx
      have hxq : x ≠ q := by
        rintro rfl
        exact hq hx
      rwa [update_of_ne hxq]
    refine ⟨halive _ h.init, fun x hx hfree => ?_⟩
    rcases eq_or_ne x q with rfl | hne
    · simp at hfree
    · rw [update_of_ne hne] at hfree ⊢
      obtain ⟨b, hb, hbalive⟩ := h.parent x hx hfree
      exact ⟨b, hb, halive b hbalive⟩
  | killed pid => exact h

/-- The lives that a history leads to. -/
def Told (rs : List Record) (l : Slot → Life) : Prop :=
  ∃ l₀, family.init l₀ ∧ family.run l₀ rs = some l

theorem Told.kinship (h : Told rs l) : Kinship l := by
  refine EventSystem.Reachable.invariant (S := family) ?_ ?_ ?_
  · obtain ⟨l₀, h₀, hrun⟩ := h
    exact ⟨l₀, rs, h₀, hrun⟩
  · rintro l rfl
    refine ⟨by simp [Life.isAlive], fun q hq hfree => ?_⟩
    simp [hq] at hfree
  · exact fun l r l' hl hstep => hl.step (family_step_iff.mp hstep)

/-- Every beginning of a history is a history. -/
theorem Told.of_append {us vs : List Record} (h : Told (us ++ vs) l) :
    ∃ l₁, Told us l₁ ∧ family.run l₁ vs = some l := by
  obtain ⟨l₀, h₀, hrun⟩ := h
  rw [EventSystem.run_append, Option.bind_eq_some_iff] at hrun
  obtain ⟨l₁, hl₁, hrest⟩ := hrun
  exact ⟨l₁, ⟨l₀, h₀, hl₁⟩, hrest⟩

theorem Told.of_append_cons {us vs : List Record} (h : Told (us ++ r :: vs) l) :
    ∃ l₁ l₂, Told us l₁ ∧ FamilyStep l₁ r l₂ ∧ family.run l₂ vs = some l := by
  obtain ⟨l₁, hl₁, hrun⟩ := h.of_append
  rw [EventSystem.run_cons, Option.bind_eq_some_iff] at hrun
  obtain ⟨l₂, hl₂, hrest⟩ := hrun
  exact ⟨l₁, l₂, hl₁, family_step_iff.mp hl₂, hrest⟩

theorem Told.between {r' : Record} {us vs ws : List Record}
    (h : Told (us ++ r :: (vs ++ r' :: ws)) l) :
    ∃ l₁ l₂ l₃ l₄, FamilyStep l₁ r l₂ ∧ family.run l₂ vs = some l₃ ∧ FamilyStep l₃ r' l₄ := by
  obtain ⟨l₁, l₂, -, hstep, hrun⟩ := h.of_append_cons
  rw [EventSystem.run_append, Option.bind_eq_some_iff] at hrun
  obtain ⟨l₃, hl₃, hrest⟩ := hrun
  rw [EventSystem.run_cons, Option.bind_eq_some_iff] at hrest
  obtain ⟨l₄, hl₄, -⟩ := hrest
  exact ⟨l₁, l₂, l₃, l₄, hstep, hl₃, family_step_iff.mp hl₄⟩

/-! ## Between two calls -/

/-- A free slot is filled by a fork. -/
theorem exists_forked_of_run (hrun : family.run l rs = some l')
    (hfree : l q = .free) (hq : l' q ≠ .free) :
    ∃ a pid, .forked a q pid ∈ rs := by
  induction rs generalizing l with
  | nil =>
    cases hrun
    exact absurd hfree hq
  | cons r rs ih =>
    rw [EventSystem.run_cons, Option.bind_eq_some_iff] at hrun
    obtain ⟨l₁, hl₁, hrest⟩ := hrun
    by_cases hl : l₁ q = .free
    · obtain ⟨a, pid, hmem⟩ := ih hrest hl
      exact ⟨a, pid, List.mem_cons_of_mem r hmem⟩
    · have hx : ∀ x y, update l x y q ≠ .free → q = x := by
        intro x y hne
        by_contra hqx
        exact hne (by rw [update_of_ne hqx, hfree])
      cases family_step_iff.mp hl₁ with
      | forked a x pid ha hx' =>
        obtain rfl := hx x _ hl
        exact ⟨a, pid, List.mem_cons_self⟩
      | adopted x hx' =>
        obtain rfl := hx x _ hl
        exact absurd hfree (Life.ne_free_of_parent hx')
      | exited x st pid a hp hlx hnone =>
        obtain rfl := hx x _ hl
        simp [hfree] at hlx
      | waited a x pid st status hlx hstatus =>
        obtain rfl := hx x _ hl
        simp [hfree] at hlx
      | killed pid => exact absurd hfree hl

/-- A dead process leaves its slot by a wait. -/
theorem exists_waited_of_run (hrun : family.run l rs = some l')
    (hdead : l q ≠ .free) (halive : (l q).isAlive = false) (hq : l' q = .free) :
    ∃ a pid status, .waited a q pid status ∈ rs := by
  induction rs generalizing l with
  | nil =>
    cases hrun
    exact absurd hq hdead
  | cons r rs ih =>
    rw [EventSystem.run_cons, Option.bind_eq_some_iff] at hrun
    obtain ⟨l₁, hl₁, hrest⟩ := hrun
    by_cases hl : l₁ q ≠ .free ∧ (l₁ q).isAlive = false
    · obtain ⟨a, pid, status, hmem⟩ := ih hrest hl.1 hl.2
      exact ⟨a, pid, status, List.mem_cons_of_mem r hmem⟩
    · have hx : ∀ x y, ¬(update l x y q ≠ .free ∧ (update l x y q).isAlive = false) → q = x := by
        intro x y hne
        by_contra hqx
        rw [update_of_ne hqx] at hne
        exact hne ⟨hdead, halive⟩
      cases family_step_iff.mp hl₁ with
      | forked a x pid ha hx' =>
        obtain rfl := hx x _ hl
        exact absurd hx' hdead
      | adopted x hx' =>
        obtain rfl := hx x _ hl
        rw [update_self, Life.isAlive_adopt] at hl
        refine absurd ⟨?_, halive⟩ hl
        exact Life.ne_free_of_parent (by simp [Life.parent_adopt hx'])
      | exited x st pid a hp hlx hnone =>
        obtain rfl := hx x _ hl
        simp [hlx, Life.isAlive] at halive
      | waited a x pid st status hlx hstatus =>
        obtain rfl := hx x _ hl
        exact ⟨a, pid, status, List.mem_cons_self⟩
      | killed pid => exact absurd ⟨hdead, halive⟩ hl

/-! ## The past of a process -/

/-- The record changes what is in slot `q`. -/
def Record.About (q : Slot) : Record → Prop
  | .forked _ child _ | .waited _ child _ _ => child = q
  | .exited p _ => p = q
  | .adopted _ | .killed _ => False

def Silent (q : Slot) (rs : List Record) : Prop := ∀ r ∈ rs, ¬r.About q

/-- The parent of `q` after `rs` if it was `a` before. -/
def parentAfter (q a : Slot) (rs : List Record) : Slot := if .adopted q ∈ rs then initproc else a

/-- How the process in slot `q` got there, and how it died. -/
def Past (q : Slot) (rs : List Record) : Life → Prop
  | .free => True
  | .alive pid parent => ∃ u a v, rs = u ++ .forked a q pid :: v ∧
      Silent q v ∧ parent = some (parentAfter q a v)
  | .dead pid parent st => ∃ u a v w, rs = u ++ .forked a q pid :: (v ++ .exited q st :: w) ∧
      Silent q v ∧ Silent q w ∧ parent = some (parentAfter q a (v ++ w))

theorem Silent.snoc (h : Silent q rs) (hr : ¬r.About q) : Silent q (rs ++ [r]) := by
  intro x hx
  rcases List.mem_append.mp hx with hx | hx
  · exact h x hx
  · rwa [List.mem_singleton.mp hx]

theorem parentAfter_snoc (hr : r ≠ .adopted q) (a : Slot) :
    parentAfter q a (rs ++ [r]) = parentAfter q a rs := by
  simp [parentAfter, hr.symm]

theorem parentAfter_adopted (a : Slot) : parentAfter q a (rs ++ [.adopted q]) = initproc := by
  simp [parentAfter]

theorem Past.snoc {x : Life} (h : Past q rs x) (hr : ¬r.About q)
    (hne : r ≠ .adopted q) : Past q (rs ++ [r]) x := by
  match x, h with
  | .free, _ => trivial
  | .alive pid parent, ⟨u, a, v, hrs, hv, hparent⟩ =>
    refine ⟨u, a, v ++ [r], by simp [hrs], hv.snoc hr, ?_⟩
    rw [parentAfter_snoc hne, hparent]
  | .dead pid parent st, ⟨u, a, v, w, hrs, hv, hw, hparent⟩ =>
    refine ⟨u, a, v, w ++ [r], by simp [hrs], hv, hw.snoc hr, ?_⟩
    rw [← List.append_assoc, parentAfter_snoc hne, hparent]

theorem Past.adopted {x : Life} (h : Past q rs x) : Past q (rs ++ [.adopted q]) x.adopt := by
  have hr : ¬(Record.adopted q).About q := id
  match x, h with
  | .free, _ => trivial
  | .alive pid parent, ⟨u, a, v, hrs, hv, hparent⟩ =>
    refine ⟨u, a, v ++ [.adopted q], by simp [hrs], hv.snoc hr, ?_⟩
    rw [parentAfter_adopted]
  | .dead pid parent st, ⟨u, a, v, w, hrs, hv, hw, hparent⟩ =>
    refine ⟨u, a, v, w ++ [.adopted q], by simp [hrs], hv, hw.snoc hr, ?_⟩
    rw [← List.append_assoc, parentAfter_adopted]

theorem Past.step (h : ∀ q, q ≠ initproc → Past q rs (l q))
    (hstep : FamilyStep l r l') (q : Slot) (hq : q ≠ initproc) :
    Past q (rs ++ [r]) (l' q) := by
  cases hstep with
  | forked a x pid ha hx =>
    rcases eq_or_ne q x with rfl | hqx
    · rw [update_self]
      exact ⟨rs, a, [], rfl, by simp [Silent], by simp [parentAfter]⟩
    · rw [update_of_ne hqx]
      exact (h q hq).snoc hqx.symm (by simp)
  | adopted x hx =>
    rcases eq_or_ne q x with rfl | hqx
    · rw [update_self]
      exact (h q hq).adopted
    · rw [update_of_ne hqx]
      exact (h q hq).snoc id (by simpa using hqx.symm)
  | exited x st pid a hp hlx hnone =>
    rcases eq_or_ne q x with rfl | hqx
    · rw [update_self]
      have hpast := h q hq
      rw [hlx] at hpast
      obtain ⟨u, b, v, hrs, hv, hparent⟩ := hpast
      refine ⟨u, b, v, [], by simp [hrs], hv, by simp [Silent], ?_⟩
      rw [hparent, List.append_nil]
    · rw [update_of_ne hqx]
      exact (h q hq).snoc hqx.symm (by simp)
  | waited a x pid st status hlx hstatus =>
    rcases eq_or_ne q x with rfl | hqx
    · rw [update_self]
      trivial
    · rw [update_of_ne hqx]
      exact (h q hq).snoc hqx.symm (by simp)
  | killed pid => exact (h q hq).snoc id (by simp)

theorem Told.past (h : Told rs l) (hq : q ≠ initproc) : Past q rs (l q) := by
  obtain ⟨l₀, h₀, hrun⟩ := h
  suffices hall : ∀ q, q ≠ initproc → Past q rs (l q) from hall q hq
  refine EventSystem.run_history (S := family) (P := fun rs l =>
    ∀ q, q ≠ initproc → Past q rs (l q)) ?_ ?_ hrun
  · intro q hq
    rw [h₀, update_of_ne hq]
    trivial
  · exact fun rs l r l' hl hstep => Past.step hl (family_step_iff.mp hstep)

end OsCa.Process
