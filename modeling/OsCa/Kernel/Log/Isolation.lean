import OsCa.Kernel.Log.Group
import Mathlib.Data.Finset.Card

/-!
# Group-commit isolation

For the safety of the log a process is in one of three roles: idle, inside an
operation, or running `commit()`.  The invariant `GroupInv` relates the roles
of all processes to `log.outstanding`, `log.committing` and `log.lh`; the
invariant `History` relates the recorded `log_write`s to the transactions they
ended up in.
-/

namespace OsCa.Log

open Function Finset

variable {Pid : Type*}

variable {pc : Pc} {c : CommitPc} {s t : State Pid} {p : Pid} {L : LogArea} {b : Uint}
  {e : Event Pid}

/-! ## Roles -/

inductive Role where
  | idle
  | inside
  | commit (c : CommitPc)
  deriving DecidableEq

def Pc.role : Pc → Role
  | .outside | .beginOp | .sleeping => .idle
  | .inOp | .logWrite _ => .inside
  | .commit c => .commit c

def State.role (s : State Pid) (p : Pid) : Role := (s.pc p).role

theorem Pc.inside_iff_role : pc.Inside ↔ pc.role = .inside := by
  cases pc <;> simp [Pc.Inside, Pc.role]

theorem Pc.role_eq_commit_iff : pc.role = .commit c ↔ pc = .commit c := by
  cases pc <;> simp [Pc.role]

theorem role_wakeup (pc : Pid → Pc) (q : Pid) : (wakeup pc q).role = (pc q).role := by
  unfold wakeup
  split
  next h => rw [h]; rfl
  next h => rfl

theorem role_update [DecidableEq Pid] (pc : Pid → Pc) (p q : Pid) (c : Pc) :
    (update pc p c q).role = if q = p then c.role else (pc q).role := by
  by_cases h : q = p
  · subst q
    simp
  · simp [h]

/-- A process goes on in the same role. -/
theorem role_update_eq [DecidableEq Pid] {pcs : Pid → Pc} (h : pc.role = (pcs p).role)
    (q : Pid) : (update pcs p pc q).role = (pcs q).role := by
  rw [role_update]
  split
  next hq => rw [hq, h]
  next => rfl

/-- A process goes on, and not inside an operation. -/
theorem inside_of_update [DecidableEq Pid] {pcs : Pid → Pc} {q : Pid}
    (hpc : pc.role ≠ .inside) (h : (update pcs p pc q).role = .inside) :
    (pcs q).role = .inside := by
  rw [role_update] at h
  split at h
  next => exact absurd h hpc
  next => exact h

/-! ## The invariant of the shared counters -/

/-- `log.lh.n` has been reset by the running commit. -/
def CommitPc.Cleared (c : CommitPc) : Prop := c = .eraseHead ∨ c = .done

structure GroupInv (s : State Pid) : Prop where
  /-- `log.outstanding` counts the processes inside an operation. -/
  count : ∃ S : Finset Pid, (∀ p, p ∈ S ↔ s.role p = .inside) ∧ s.outstanding = S.card
  leader : s.committing = true → ∃ p c, s.role p = .commit c
  /-- While one process commits, every other process is idle. -/
  exclusive : ∀ p c, s.role p = .commit c → s.committing = true ∧ ∀ q, q ≠ p → s.role q = .idle
  /-- The header being committed is the one recorded last. -/
  recorded : ∀ p c, s.role p = .commit c → ¬ c.Cleared → s.commits.getLast? = some s.machine.lh
  cleared : ∀ p c, s.role p = .commit c → c.Cleared → s.machine.lh = []
  quiet : s.committing = false → (∀ p, s.role p = .idle) → s.machine.lh = []
  panic : s.panic = none ∨ s.panic = some .tooBigATransaction

/-- The invariant only looks at the roles and the shared variables. -/
theorem GroupInv.congr (h : GroupInv s) (hrole : ∀ p, t.role p = s.role p)
    (hout : t.outstanding = s.outstanding) (hcommitting : t.committing = s.committing)
    (hlh : t.machine.lh = s.machine.lh) (hcommits : t.commits = s.commits)
    (hpanic : t.panic = none ∨ t.panic = some .tooBigATransaction) :
    GroupInv t where
  count := by
    obtain ⟨S, hS, hcard⟩ := h.count
    exact ⟨S, fun p => by rw [hrole]; exact hS p, by rw [hout, hcard]⟩
  leader := by
    intro hc
    obtain ⟨p, c, hp⟩ := h.leader (by rw [← hcommitting, hc])
    exact ⟨p, c, by rw [hrole, hp]⟩
  exclusive := by
    intro p c hp
    rw [hrole] at hp
    obtain ⟨hc, hidle⟩ := h.exclusive p c hp
    exact ⟨by rw [hcommitting, hc], fun q hq => by rw [hrole, hidle q hq]⟩
  recorded := by
    intro p c hp hc
    rw [hrole] at hp
    rw [hcommits, hlh]
    exact h.recorded p c hp hc
  cleared := by
    intro p c hp hc
    rw [hrole] at hp
    rw [hlh]
    exact h.cleared p c hp hc
  quiet := by
    intro hc hidle
    rw [hlh]
    exact h.quiet (by rw [← hcommitting, hc]) (fun p => by rw [← hrole, hidle p])
  panic := hpanic

/-- No process commits while some process is inside an operation. -/
theorem GroupInv.not_committing (h : GroupInv s) (hp : s.role p = .inside) :
    s.committing = false := by
  by_contra hc
  obtain ⟨q, c, hq⟩ := h.leader (by simpa using hc)
  have hidle := (h.exclusive q c hq).2 p (by rintro rfl; simp [hq] at hp)
  simp [hidle] at hp

theorem GroupInv.no_commit (h : GroupInv s) (hc : s.committing = false) (p : Pid)
    (c : CommitPc) : s.role p ≠ .commit c := by
  intro hp
  have htrue := (h.exclusive p c hp).1
  simp [hc] at htrue

theorem GroupInv.outstanding_pos (h : GroupInv s) (hp : s.role p = .inside) :
    1 ≤ s.outstanding := by
  obtain ⟨S, hS, hcard⟩ := h.count
  have hpos : 0 < S.card := card_pos.mpr ⟨p, (hS p).mpr hp⟩
  omega

theorem GroupInv.outstanding_zero (h : GroupInv s) (hidle : ∀ p, s.role p ≠ .inside) :
    s.outstanding = 0 := by
  obtain ⟨S, hS, hcard⟩ := h.count
  have hempty : S = ∅ := by
    apply eq_empty_of_forall_notMem
    intro p hp
    exact hidle p ((hS p).mp hp)
  rw [hcard, hempty]
  rfl

/-- Nobody is inside an operation while a process commits. -/
theorem GroupInv.none_inside (h : GroupInv s) (hp : s.role p = .commit c) (q : Pid) :
    s.role q ≠ .inside := by
  by_cases hq : q = p
  · subst q
    simp [hp]
  · simp [(h.exclusive p c hp).2 q hq]

/-- While some process is inside, the clauses about commits are void. -/
theorem GroupInv.of_inside (hp : s.role p = .inside) (hc : s.committing = false)
    (hcount : ∃ S : Finset Pid, (∀ q, q ∈ S ↔ s.role q = .inside) ∧
      s.outstanding = S.card) (hnone : ∀ q c, s.role q ≠ .commit c)
    (hpanic : s.panic = none ∨ s.panic = some .tooBigATransaction) :
    GroupInv s where
  count := hcount
  leader := by simp [hc]
  exclusive := fun q c hq => absurd hq (hnone q c)
  recorded := fun q c hq => absurd hq (hnone q c)
  cleared := fun q c hq => absurd hq (hnone q c)
  quiet := by
    intro _ hidle
    simp [hidle p] at hp
  panic := hpanic

/-- While every process is idle, the log is empty. -/
theorem GroupInv.of_idle (hrole : ∀ p, s.role p = .idle) (hc : s.committing = false)
    (hout : s.outstanding = 0) (hlh : s.machine.lh = []) (hpanic : s.panic = none) :
    GroupInv s where
  count := ⟨∅, fun p => by simp [hrole], by simp [hout]⟩
  leader := by simp [hc]
  exclusive := fun p c hp => by simp [hrole] at hp
  recorded := fun p c hp => by simp [hrole] at hp
  cleared := fun p c hp => by simp [hrole] at hp
  quiet := fun _ _ => hlh
  panic := Or.inl hpanic

theorem Start.role (h : Start s) (p : Pid) : s.role p = .idle := by
  rw [State.role, h.pc]
  rfl

theorem groupInv_start (h : Start s) : GroupInv s :=
  .of_idle h.role h.committing h.outstanding h.lh h.panic

section Steps

variable [DecidableEq Pid]

section

variable (h : GroupInv s) (hpanic : s.panic = none)

include h hpanic

theorem groupInv_beginOp (hp : s.pc p = .beginOp) : GroupInv (beginOp s p) := by
  have hsleep : GroupInv (s.setPc p .sleeping) :=
    h.congr (role_update_eq (by rw [hp]; rfl)) rfl rfl rfl rfl h.panic
  unfold beginOp
  split
  next => exact hsleep
  next hc =>
    split
    next => exact hsleep
    next =>
      have hfalse : s.committing = false := by simpa using hc
      obtain ⟨S, hS, hcard⟩ := h.count
      have hidle : s.role p = .idle := by simp [State.role, hp, Pc.role]
      have hnot : p ∉ S := by
        rw [hS, hidle]
        simp
      refine GroupInv.of_inside (p := p) ?_ hfalse ⟨insert p S, ?_, ?_⟩ ?_ (Or.inl hpanic)
      · simp [State.role, Pc.role]
      · intro q
        simp only [mem_insert, State.role, role_update]
        split
        next hq => simp [hq, Pc.role]
        next hq =>
          simp only [hq, false_or]
          exact hS q
      · simp [card_insert_of_notMem hnot, hcard]
      · intro q c
        simp only [State.role, role_update]
        split
        next => simp [Pc.role]
        next => exact h.no_commit hfalse q c

theorem groupInv_logWriteTest (hp : s.pc p = .inOp) :
    GroupInv (logWriteTest L s p b) := by
  have hinside : s.role p = .inside := by simp [State.role, hp, Pc.role]
  unfold logWriteTest
  dsimp only
  split
  next => exact h.congr (fun _ => rfl) rfl rfl rfl rfl (Or.inr rfl)
  next =>
    split
    next hlt =>
      -- `log.outstanding` counts at least this process
      have := h.outstanding_pos hinside
      omega
    next => exact h.congr (role_update_eq (by rw [hp]; rfl)) rfl rfl rfl rfl (Or.inl hpanic)

theorem groupInv_logWriteRecord (hp : s.pc p = .logWrite b) :
    GroupInv (logWriteRecord s p b) := by
  have hinside : s.role p = .inside := by simp [State.role, hp, Pc.role]
  have hfalse := h.not_committing hinside
  have hrole : ∀ q, (logWriteRecord s p b).role q = s.role q := role_update_eq (by rw [hp]; rfl)
  obtain ⟨S, hS, hcard⟩ := h.count
  refine GroupInv.of_inside (p := p) ?_ hfalse ⟨S, ?_, hcard⟩ ?_ (Or.inl hpanic)
  · rw [hrole, hinside]
  · intro q
    rw [hrole]
    exact hS q
  · intro q c
    rw [hrole]
    exact h.no_commit hfalse q c

theorem groupInv_endOp (hp : s.pc p = .inOp) : GroupInv (endOp s p) := by
  have hinside : s.role p = .inside := by simp [State.role, hp, Pc.role]
  have hfalse := h.not_committing hinside
  obtain ⟨S, hS, hcard⟩ := h.count
  have hmem : p ∈ S := (hS p).mpr hinside
  have hcount : (s.outstanding - 1 : ℤ) = (S.erase p).card := by
    have := card_erase_add_one hmem
    omega
  have herase : ∀ q, q ∈ S.erase p ↔ q ≠ p ∧ s.role q = .inside := by
    intro q
    rw [mem_erase, hS]
  unfold endOp
  dsimp only
  rw [if_neg (by simp [hfalse])]
  split
  next hzero =>
    -- the last operation ends: everybody else is idle, and the commit starts
    have hempty : S.erase p = ∅ := by
      rw [← card_eq_zero]
      omega
    have hidle : ∀ q, q ≠ p → s.role q = .idle := by
      intro q hq
      have hnot : s.role q ≠ .inside := fun hin => by
        have := (herase q).mpr ⟨hq, hin⟩
        simp [hempty] at this
      cases hrole : s.role q with
      | idle => rfl
      | inside => exact absurd hrole hnot
      | commit c => exact absurd hrole (h.no_commit hfalse q c)
    have hrole : ∀ q, (update s.pc p (.commit .entry) q).role =
        if q = p then .commit .entry else .idle := by
      intro q
      rw [role_update]
      split
      next => rfl
      next hq => exact hidle q hq
    constructor
    · refine ⟨∅, ?_, by simpa using hzero⟩
      intro q
      simp only [State.role, hrole]
      split <;> simp
    · exact fun _ => ⟨p, .entry, by simp [State.role, Pc.role]⟩
    · intro q c hq
      simp only [State.role, hrole] at hq ⊢
      refine ⟨trivial, ?_⟩
      intro r hr
      have hqp : q = p := by
        by_contra hne
        simp [hne] at hq
      simp [← hqp, hr]
    · intro q c _ _
      simp
    · intro q c hq hcleared
      simp only [State.role, hrole] at hq
      split at hq
      next =>
        obtain rfl := Role.commit.inj hq
        simp [CommitPc.Cleared] at hcleared
      next => simp at hq
    · simp
    · exact Or.inl hpanic
  next hpos =>
    -- other operations are outstanding, so one of them is inside
    have hne : (S.erase p).Nonempty := by
      rw [← card_pos]
      omega
    obtain ⟨r, hr⟩ := hne
    obtain ⟨hrp, hrin⟩ := (herase r).mp hr
    have hrole : ∀ q, (update (wakeup s.pc) p .outside q).role =
        if q = p then .idle else s.role q := by
      intro q
      rw [role_update, role_wakeup]
      rfl
    refine GroupInv.of_inside (p := r) ?_ hfalse ⟨S.erase p, ?_, hcount⟩ ?_ (Or.inl hpanic)
    · simp only [State.role, hrole, if_neg hrp]
      exact hrin
    · intro q
      simp only [State.role, hrole, herase]
      split
      next hq => simp [hq]
      next hq => simp [hq]
    · intro q c
      simp only [State.role, hrole]
      split
      next => simp
      next => exact h.no_commit hfalse q c

end

/-- `commit()` changes `log.lh` at one place only. -/
theorem commitStep_lh (L : LogArea) (m : Machine) (c : CommitPc) :
    (commitStep L m c).2.lh = if c = .clearCount then [] else m.lh := by
  cases c with
  | entry => rfl
  | writeLog tail =>
    simp only [commitStep, reduceCtorEq, if_false]
    split <;> rfl
  | writeHead => rfl
  | installTrans tail =>
    simp only [commitStep, reduceCtorEq, if_false]
    split <;> rfl
  | clearCount => rfl
  | eraseHead => rfl
  | done => rfl

/-- A commit reaches its last two steps only through the reset of
`log.lh.n`, or at once when there is nothing to commit. -/
theorem commitStep_cleared {m : Machine} (hdone : c ≠ .done) (h : (commitStep L m c).1.Cleared) :
    c = .clearCount ∨ c = .eraseHead ∨ (c = .entry ∧ m.lh = []) := by
  cases c with
  | entry =>
    refine Or.inr (Or.inr ⟨rfl, ?_⟩)
    by_contra hne
    have hpos : 0 < m.lh.length := List.length_pos_of_ne_nil hne
    simp [commitStep, hpos, CommitPc.Cleared] at h
  | writeLog tail =>
    simp only [commitStep] at h
    split at h <;> simp [CommitPc.Cleared] at h
  | writeHead => simp [commitStep, CommitPc.Cleared] at h
  | installTrans tail =>
    simp only [commitStep] at h
    split at h <;> simp [CommitPc.Cleared] at h
  | clearCount => exact Or.inl rfl
  | eraseHead => exact Or.inr (Or.inl rfl)
  | done => exact absurd rfl hdone

theorem groupInv_commitStep (h : GroupInv s) (hpanic : s.panic = none)
    (hp : s.pc p = .commit c) (hdone : c ≠ .done) :
    GroupInv ((Event.commitStep p c).effect L s) := by
  have hcommit : s.role p = .commit c := by simp [State.role, hp, Pc.role]
  obtain ⟨htrue, hidle⟩ := h.exclusive p c hcommit
  have hrole : ∀ q, ((Event.commitStep p c).effect L s).role q =
      if q = p then .commit (commitStep L s.machine c).1 else .idle := by
    intro q
    simp only [State.role, Event.effect, role_update]
    split
    next => rfl
    next hq => exact hidle q hq
  have hlh := commitStep_lh L s.machine c
  have hunique : ∀ {q d}, ((Event.commitStep p c).effect L s).role q =
      .commit d → q = p ∧ (commitStep L s.machine c).1 = d := by
    intro q d hq
    rw [hrole] at hq
    split at hq
    next hqp => exact ⟨hqp, Role.commit.inj hq⟩
    next => simp at hq
  constructor
  · refine ⟨∅, ?_, ?_⟩
    · intro q
      rw [hrole]
      split <;> simp
    · simpa [Event.effect] using h.outstanding_zero (h.none_inside hcommit)
  · exact fun _ => ⟨p, _, by rw [hrole, if_pos rfl]⟩
  · intro q d hq
    obtain ⟨rfl, -⟩ := hunique hq
    refine ⟨htrue, ?_⟩
    intro r hr
    rw [hrole, if_neg hr]
  · intro q d hq hnot
    obtain ⟨rfl, rfl⟩ := hunique hq
    have hc : c ≠ .clearCount := by
      rintro rfl
      simp [commitStep, CommitPc.Cleared] at hnot
    have hcleared : ¬ c.Cleared := by
      rintro (rfl | rfl)
      · simp [commitStep, CommitPc.Cleared] at hnot
      · exact hdone rfl
    simp only [Event.effect, hlh, if_neg hc]
    exact h.recorded q c hcommit hcleared
  · intro q d hq hcl
    obtain ⟨rfl, rfl⟩ := hunique hq
    simp only [Event.effect, hlh]
    rcases commitStep_cleared hdone hcl with rfl | rfl | ⟨rfl, hnil⟩
    · rfl
    · exact h.cleared q _ hcommit (Or.inl rfl)
    · exact hnil
  · intro hfalse
    simp [Event.effect, htrue] at hfalse
  · exact Or.inl hpanic

theorem groupInv_finishCommit (h : GroupInv s) (hpanic : s.panic = none)
    (hp : s.pc p = .commit .done) : GroupInv (finishCommit s p) := by
  have hcommit : s.role p = .commit .done := by simp [State.role, hp, Pc.role]
  obtain ⟨-, hidle⟩ := h.exclusive p _ hcommit
  have hrole : ∀ q, (finishCommit s p).role q = .idle := by
    intro q
    simp only [State.role, finishCommit, role_update, role_wakeup]
    split
    next => rfl
    next hq => exact hidle q hq
  exact .of_idle hrole rfl (h.outstanding_zero (h.none_inside hcommit))
    (h.cleared p _ hcommit (Or.inr rfl)) hpanic

theorem groupInv_step (h : GroupInv s) (hstep : step L s e = some t) : GroupInv t := by
  obtain ⟨hpanic, henabled, rfl⟩ := step_eq_some_iff.mp hstep
  cases e with
  | callBeginOp p =>
    refine h.congr (role_update_eq ?_) rfl rfl rfl rfl h.panic
    rw [show s.pc p = .outside from henabled]
    rfl
  | beginOp p => exact groupInv_beginOp h hpanic henabled
  | modify p b data => exact h.congr (fun _ => rfl) rfl rfl rfl rfl h.panic
  | logWriteTest p b => exact groupInv_logWriteTest h hpanic henabled
  | logWriteRecord p b => exact groupInv_logWriteRecord h hpanic henabled
  | endOp p => exact groupInv_endOp h hpanic henabled
  | commitStep p c => exact groupInv_commitStep h hpanic henabled.1 henabled.2
  | finishCommit p => exact groupInv_finishCommit h hpanic henabled

theorem groupInv_reachable (h : (system Pid L).Reachable s) : GroupInv s :=
  h.invariant (fun _ => groupInv_start) (fun _ _ _ => groupInv_step)

end Steps

/-! ## Which transaction a write belongs to -/

structure History (s : State Pid) : Prop where
  op_lt : ∀ p, s.role p = .inside → s.op p < s.nextOp
  op_inj : ∀ p q, s.role p = .inside → s.role q = .inside → s.op p = s.op q → p = q
  write_lt : ∀ w, w ∈ s.writes → w.op < s.nextOp
  /-- What an unfinished operation has logged is in the current
  transaction. -/
  current : ∀ p, s.role p = .inside → ∀ w, w ∈ s.writes → w.op = s.op p → w.tx = s.tx
  single : ∀ w v, w ∈ s.writes → v ∈ s.writes → w.op = v.op → w.tx = v.tx
  collected : s.committing = false →
    ∀ b, b ∈ s.machine.lh ↔ ∃ w, w ∈ s.writes ∧ w.block = b ∧ w.tx = s.tx
  past : ∀ w, w ∈ s.writes → w.tx ≤ s.tx ∧ (s.committing = true → w.tx < s.tx)
  committed : ∀ n lh, s.commits[n]? = some lh →
    ∀ b, b ∈ lh ↔ ∃ w, w ∈ s.writes ∧ w.block = b ∧ w.tx = n

theorem history_start (h : Start s) : History s := by
  constructor
  · intro p hp
    simp [h.role] at hp
  · intro p q hp
    simp [h.role] at hp
  · simp [h.writes]
  · intro p hp
    simp [h.role] at hp
  · simp [h.writes]
  · simp [h.lh, h.writes]
  · simp [h.writes]
  · simp [h.commits]

/-- Steps that neither log nor commit and let nobody in keep the history. -/
theorem History.congr (h : History s)
    (hrole : ∀ p, t.role p = .inside → s.role p = .inside ∧ t.op p = s.op p)
    (hnext : t.nextOp = s.nextOp) (hwrites : t.writes = s.writes)
    (hcommits : t.commits = s.commits) (hcommitting : t.committing = s.committing)
    (hlh : s.committing = false → t.machine.lh = s.machine.lh) : History t := by
  have htx : t.tx = s.tx := by rw [State.tx, State.tx, hcommits]
  constructor
  · intro p hp
    obtain ⟨hs, hop⟩ := hrole p hp
    rw [hop, hnext]
    exact h.op_lt p hs
  · intro p q hp hq heq
    obtain ⟨hs, hop⟩ := hrole p hp
    obtain ⟨hs', hop'⟩ := hrole q hq
    rw [hop, hop'] at heq
    exact h.op_inj p q hs hs' heq
  · rw [hwrites, hnext]
    exact h.write_lt
  · intro p hp w hw heq
    obtain ⟨hs, hop⟩ := hrole p hp
    rw [hwrites] at hw
    rw [htx]
    exact h.current p hs w hw (heq.trans hop)
  · rw [hwrites]
    exact h.single
  · intro hc
    have hs : s.committing = false := by rw [← hcommitting, hc]
    rw [hlh hs, hwrites, htx]
    exact h.collected hs
  · rw [hwrites, htx, hcommitting]
    exact h.past
  · rw [hcommits, hwrites]
    exact h.committed

section HistorySteps

variable [DecidableEq Pid]

theorem history_beginOp (h : History s) (p : Pid) : History (beginOp s p) := by
  have hsleep : History (s.setPc p .sleeping) :=
    h.congr (fun _ hq => ⟨inside_of_update (by decide) hq, rfl⟩) rfl rfl rfl rfl (fun _ => rfl)
  unfold beginOp
  split
  next => exact hsleep
  next =>
    split
    next => exact hsleep
    next =>
      -- the new operation has a fresh number and has logged nothing
      have hother : ∀ q, q ≠ p → (update s.pc p .inOp q).role = .inside → s.role q = .inside := by
        intro q hq hin
        simpa [State.role, role_update, hq] using hin
      constructor
      · intro q hq
        by_cases hqp : q = p
        · simp [hqp]
        · have := h.op_lt q (hother q hqp hq)
          simp only [update_of_ne hqp]
          omega
      · intro q r hq hr heq
        by_cases hqp : q = p
        · by_cases hrp : r = p
          · rw [hqp, hrp]
          · have := h.op_lt r (hother r hrp hr)
            simp only [hqp, update_self, update_of_ne hrp] at heq
            omega
        · by_cases hrp : r = p
          · have := h.op_lt q (hother q hqp hq)
            simp only [hrp, update_self, update_of_ne hqp] at heq
            omega
          · simp only [update_of_ne hqp, update_of_ne hrp] at heq
            exact h.op_inj q r (hother q hqp hq) (hother r hrp hr) heq
      · intro w hw
        have := h.write_lt w hw
        simp only
        omega
      · intro q hq w hw heq
        by_cases hqp : q = p
        · have := h.write_lt w hw
          simp only [hqp, update_self] at heq
          omega
        · simp only [update_of_ne hqp] at heq
          exact h.current q (hother q hqp hq) w hw heq
      · exact h.single
      · exact h.collected
      · exact h.past
      · exact h.committed

theorem history_logWriteTest (h : History s) (hp : s.pc p = .inOp) :
    History (logWriteTest L s p b) := by
  unfold logWriteTest
  dsimp only
  split
  next => exact h.congr (fun _ hq => ⟨hq, rfl⟩) rfl rfl rfl rfl (fun _ => rfl)
  next =>
    split
    next => exact h.congr (fun _ hq => ⟨hq, rfl⟩) rfl rfl rfl rfl (fun _ => rfl)
    next =>
      refine h.congr (fun q hq => ⟨?_, rfl⟩) rfl rfl rfl rfl (fun _ => rfl)
      exact (role_update_eq (by rw [hp]; rfl) q).symm.trans hq

theorem history_logWriteRecord (h : History s) (hinv : GroupInv s)
    (hp : s.pc p = .logWrite b) : History (logWriteRecord s p b) := by
  have hinside : s.role p = .inside := by simp [State.role, hp, Pc.role]
  have hfalse := hinv.not_committing hinside
  have hrole : ∀ q, (logWriteRecord s p b).role q = s.role q := role_update_eq (by rw [hp]; rfl)
  have hmem : ∀ w, w ∈ (logWriteRecord s p b).writes ↔ w ∈ s.writes ∨ w = ⟨s.op p, b, s.tx⟩ := by
    intro w
    simp [logWriteRecord]
  constructor
  · intro q hq
    exact h.op_lt q (by rwa [hrole] at hq)
  · intro q r hq hr
    exact h.op_inj q r (by rwa [hrole] at hq) (by rwa [hrole] at hr)
  · intro w hw
    rcases (hmem w).mp hw with hold | rfl
    · exact h.write_lt w hold
    · exact h.op_lt p hinside
  · intro q hq w hw heq
    rcases (hmem w).mp hw with hold | rfl
    · exact h.current q (by rwa [hrole] at hq) w hold heq
    · rfl
  · -- the new write joins the earlier writes of the same operation
    intro w v hw hv heq
    rcases (hmem w).mp hw with hwold | rfl
    · rcases (hmem v).mp hv with hvold | rfl
      · exact h.single w v hwold hvold heq
      · exact h.current p hinside w hwold heq
    · rcases (hmem v).mp hv with hvold | rfl
      · exact (h.current p hinside v hvold heq.symm).symm
      · rfl
  · intro _ c
    have hold := h.collected hfalse c
    have hlh : c ∈ (logWriteRecord s p b).machine.lh ↔ c ∈ s.machine.lh ∨ c = b := by
      simp only [logWriteRecord]
      split
      next hb =>
        constructor
        · exact Or.inl
        · rintro (hc | rfl)
          · exact hc
          · exact hb
      next => simp
    rw [hlh, hold]
    constructor
    · rintro (⟨w, hw, hwb, hwt⟩ | rfl)
      · exact ⟨w, (hmem w).mpr (Or.inl hw), hwb, hwt⟩
      · exact ⟨_, (hmem _).mpr (Or.inr rfl), rfl, rfl⟩
    · rintro ⟨w, hw, hwb, hwt⟩
      rcases (hmem w).mp hw with hw | rfl
      · exact Or.inl ⟨w, hw, hwb, hwt⟩
      · exact Or.inr hwb.symm
  · intro w hw
    refine ⟨?_, fun htrue => absurd (htrue.symm.trans hfalse) (by simp)⟩
    rcases (hmem w).mp hw with hold | rfl
    · exact (h.past w hold).1
    · exact Nat.le_refl _
  · intro n lh hget c
    have hlt : n < s.tx := (List.getElem?_eq_some_iff.mp hget).1
    rw [h.committed n lh hget c]
    constructor
    · rintro ⟨w, hw, hwb, hwt⟩
      exact ⟨w, (hmem w).mpr (Or.inl hw), hwb, hwt⟩
    · rintro ⟨w, hw, hwb, hwt⟩
      rcases (hmem w).mp hw with hw | rfl
      · exact ⟨w, hw, hwb, hwt⟩
      · simp only at hwt
        omega

theorem history_endOp (h : History s) (hinv : GroupInv s) (hp : s.pc p = .inOp) :
    History (endOp s p) := by
  have hinside : s.role p = .inside := by simp [State.role, hp, Pc.role]
  have hfalse := hinv.not_committing hinside
  have hendInv := groupInv_endOp hinv (p := p)
  unfold endOp at hendInv ⊢
  dsimp only at hendInv ⊢
  rw [if_neg (by simp [hfalse])] at hendInv ⊢
  split
  next hzero =>
    -- a new transaction number starts, and nobody is inside
    have hnone : ∀ q, (update s.pc p (.commit .entry) q).role ≠
        .inside := by
      intro q hq
      by_cases hqp : q = p
      · simp [hqp, Pc.role] at hq
      · rw [role_update, if_neg hqp] at hq
        obtain ⟨S, hS, hcard⟩ := hinv.count
        have hpair : ({p, q} : Finset Pid) ⊆ S := by
          intro r hr
          rw [mem_insert, mem_singleton] at hr
          rcases hr with rfl | rfl
          · exact (hS _).mpr hinside
          · exact (hS _).mpr hq
        have htwo := card_le_card hpair
        rw [card_pair (Ne.symm hqp)] at htwo
        omega
    have htx : ∀ w, w ∈ s.writes → w.tx < s.tx + 1 := fun w hw => Nat.lt_succ_of_le (h.past w hw).1
    constructor
    · exact fun q hq => absurd hq (hnone q)
    · exact fun q r hq => absurd hq (hnone q)
    · exact h.write_lt
    · exact fun q hq => absurd hq (hnone q)
    · exact h.single
    · simp
    · intro w hw
      simp only [State.tx, List.length_append, List.length_singleton]
      exact ⟨Nat.le_of_lt (htx w hw), fun _ => htx w hw⟩
    · intro n lh hget b
      simp only at hget
      rcases Nat.lt_trichotomy n s.commits.length with hlt | heq | hgt
      · rw [List.getElem?_append_left hlt] at hget
        exact h.committed n lh hget b
      · subst n
        obtain rfl : s.machine.lh = lh := by simpa using hget
        exact h.collected hfalse b
      · rw [List.getElem?_eq_none (by simp; omega)] at hget
        simp at hget
  next =>
    refine h.congr (fun q hq => ⟨?_, rfl⟩) rfl rfl rfl rfl (fun _ => rfl)
    exact (role_wakeup s.pc q).symm.trans (inside_of_update (by decide) hq)

theorem history_step (h : History s) (hinv : GroupInv s) (hstep : step L s e = some t) :
    History t := by
  obtain ⟨-, henabled, rfl⟩ := step_eq_some_iff.mp hstep
  cases e with
  | callBeginOp p =>
    exact h.congr (fun _ hq => ⟨inside_of_update (by decide) hq, rfl⟩) rfl rfl rfl rfl
      (fun _ => rfl)
  | beginOp p => exact history_beginOp h p
  | modify p b data => exact h.congr (fun _ hq => ⟨hq, rfl⟩) rfl rfl rfl rfl (fun _ => rfl)
  | logWriteTest p b => exact history_logWriteTest h henabled
  | logWriteRecord p b => exact history_logWriteRecord h hinv henabled
  | endOp p => exact history_endOp h hinv henabled
  | commitStep p c =>
    have hcommit : s.role p = .commit c := by
      rw [State.role, henabled.1]
      rfl
    exact h.congr (fun _ hq => ⟨inside_of_update (by simp [Pc.role]) hq, rfl⟩) rfl rfl rfl
      rfl fun hfalse => absurd hcommit (hinv.no_commit hfalse p c)
  | finishCommit p =>
    have hcommit : s.role p = .commit .done := by
      rw [State.role, show s.pc p = .commit .done from henabled]
      rfl
    have htrue := (hinv.exclusive p _ hcommit).1
    have hnil := hinv.cleared p _ hcommit (Or.inr rfl)
    have hrole : ∀ q, (finishCommit s p).role q ≠ .inside := fun q hq =>
      hinv.none_inside hcommit q ((role_wakeup s.pc q).symm.trans (inside_of_update (by decide) hq))
    constructor
    · exact fun q hq => absurd hq (hrole q)
    · exact fun q r hq => absurd hq (hrole q)
    · exact h.write_lt
    · exact fun q hq => absurd hq (hrole q)
    · exact h.single
    · intro _ b
      simp only [Event.effect, finishCommit, hnil, List.not_mem_nil, false_iff]
      rintro ⟨w, hw, -, hwt⟩
      have hlt := (h.past w hw).2 htrue
      simp only [State.tx] at hwt hlt
      omega
    · intro w hw
      exact ⟨(h.past w hw).1, by simp [Event.effect, finishCommit]⟩
    · exact h.committed

theorem history_reachable (h : (system Pid L).Reachable s) : History s := by
  have hboth : GroupInv s ∧ History s := by
    refine h.invariant (P := fun s => GroupInv s ∧ History s) ?_ ?_
    · intro s hs
      exact ⟨groupInv_start hs, history_start hs⟩
    · rintro s e t ⟨hinv, hhist⟩ hstep
      exact ⟨groupInv_step hinv hstep, history_step hhist hinv hstep⟩
  exact hboth.2

/-! ## Isolation -/

/-- While some process runs `commit()`, a step neither logs a block nor lets a
process into an operation. -/
theorem GroupInv.step_of_commit (h : GroupInv s) (hp : s.role p = .commit c)
    (hstep : step L s e = some t) :
    (∀ q b, e ≠ .logWriteTest q b ∧ e ≠ .logWriteRecord q b) ∧ ∀ q, t.role q ≠ .inside := by
  obtain ⟨-, henabled, rfl⟩ := step_eq_some_iff.mp hstep
  have htrue := (h.exclusive p c hp).1
  have hnone := h.none_inside hp
  refine ⟨?_, ?_⟩
  · intro q b
    constructor
    · rintro rfl
      apply hnone q
      rw [State.role, show s.pc q = .inOp from henabled]
      rfl
    · rintro rfl
      apply hnone q
      rw [State.role, show s.pc q = .logWrite b from henabled]
      rfl
  · intro q
    cases e with
    | callBeginOp r => exact fun hq => hnone q (inside_of_update (by decide) hq)
    | beginOp r =>
      -- `log.committing` is set, so `begin_op` goes to sleep
      simp only [State.role, Event.effect, beginOp, htrue, if_true]
      exact fun hq => hnone q (inside_of_update (by decide) hq)
    | modify r b data => exact hnone q
    | logWriteTest r b => exact absurd (Pc.inside_iff_role.mp (Or.inl henabled)) (hnone r)
    | logWriteRecord r b => exact absurd (Pc.inside_iff_role.mp (Or.inr ⟨b, henabled⟩)) (hnone r)
    | endOp r => exact absurd (Pc.inside_iff_role.mp (Or.inl henabled)) (hnone r)
    | commitStep r d => exact fun hq => hnone q (inside_of_update (by simp [Pc.role]) hq)
    | finishCommit r =>
      exact fun hq => hnone q ((role_wakeup s.pc q).symm.trans (inside_of_update (by decide) hq))

/-- Group-commit isolation, for any number of processes and any interleaving.

* While a process runs `commit()`, `log.outstanding` is 0 and `log.committing`
  is set, nobody is between `begin_op` and `end_op`, and no step lets
  `begin_op` return or performs any part of a `log_write`.
* All `log_write`s of one operation go into one transaction.
* Each commit writes exactly the blocks that were logged in its transaction.
* What an unfinished operation has logged is in no commit yet.
* The panics of `end_op` and the second panic of `log_write` are not
  reached. -/
theorem group_commit_isolation {L : LogArea} {s : State Pid} (h : (system Pid L).Reachable s) :
    (∀ p c, s.pc p = .commit c → s.outstanding = 0 ∧ s.committing = true ∧
      (∀ q, ¬ (s.pc q).Inside) ∧
      ∀ e t, step L s e = some t → (∀ q b, e ≠ .logWriteTest q b ∧ e ≠ .logWriteRecord q b) ∧
        ∀ q, ¬ (t.pc q).Inside) ∧
    (∀ w v, w ∈ s.writes → v ∈ s.writes → w.op = v.op → w.tx = v.tx) ∧
    (∀ n lh, s.commits[n]? = some lh → ∀ b, b ∈ lh ↔ ∃ w, w ∈ s.writes ∧ w.block = b ∧ w.tx = n) ∧
    (∀ p, (s.pc p).Inside → ∀ w, w ∈ s.writes → w.op = s.op p → s.commits[w.tx]? = none) ∧
    s.panic ≠ some .logCommitting ∧
    s.panic ≠ some .logWriteOutsideOfTrans := by
  have hinv := groupInv_reachable h
  have hhist := history_reachable h
  refine ⟨?_, hhist.single, hhist.committed, ?_, ?_, ?_⟩
  · intro p c hp
    have hcommit : s.role p = .commit c := Pc.role_eq_commit_iff.mpr hp
    have hnone := hinv.none_inside hcommit
    refine ⟨hinv.outstanding_zero hnone, (hinv.exclusive p c hcommit).1, ?_, ?_⟩
    · intro q hq
      exact hnone q (Pc.inside_iff_role.mp hq)
    · intro e t hstep
      obtain ⟨hevent, hrole⟩ := hinv.step_of_commit hcommit hstep
      exact ⟨hevent, fun q hq => hrole q (Pc.inside_iff_role.mp hq)⟩
  · intro p hp w hw heq
    rw [hhist.current p (Pc.inside_iff_role.mp hp) w hw heq]
    exact List.getElem?_eq_none (Nat.le_refl _)
  · rcases hinv.panic with hnone | hbig
    · simp [hnone]
    · simp [hbig]
  · rcases hinv.panic with hnone | hbig
    · simp [hnone]
    · simp [hbig]

end HistorySteps

/-- Processes 0 and 1 log blocks 46 and 47 in operations that overlap. -/
def twoOperations : List (Event ℕ) :=
  [.callBeginOp 0, .beginOp 0, .callBeginOp 1, .beginOp 1, .logWriteTest 0 46,
    .logWriteTest 1 47, .logWriteRecord 1 47, .logWriteRecord 0 46, .endOp 0, .endOp 1]

/-- The process that ends last has just started the commit of both operations. -/
theorem group_commit_isolation_twoOperations :
    ∃ s, (system ℕ mkfsLog).run (startState ℕ fun _ _ => 0) twoOperations = some s ∧
      s.pc 1 = .commit .entry ∧ s.commits = [[47, 46]] ∧ s.outstanding = 0 ∧
      (∀ q, ¬ (s.pc q).Inside) ∧
      ∀ b, b ∈ ([47, 46] : List Uint) ↔ ∃ w, w ∈ s.writes ∧ w.block = b ∧ w.tx = 0 := by
  refine ⟨_, rfl, rfl, rfl, ?_⟩
  obtain ⟨hcommit, -, hblocks, -⟩ := group_commit_isolation
    (L := mkfsLog) ⟨startState ℕ fun _ _ => 0, twoOperations, start_startState _, rfl⟩
  obtain ⟨hout, -, hnone, -⟩ := hcommit 1 .entry rfl
  exact ⟨hout, hnone, hblocks 0 _ rfl⟩

end OsCa.Log
