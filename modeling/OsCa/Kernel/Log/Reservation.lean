import OsCa.Kernel.Log.Isolation
import Mathlib.Algebra.Order.BigOperators.Group.Finset

/-!
# Log space reservation

`begin_op` lets an operation in when `MAXOPBLOCKS` blocks for it and for every
outstanding operation fit into `LOGSIZE` blocks.  `log_write` panics as soon
as `log.size - 1` blocks are recorded, and `mkfs` makes `log.size` equal to
`LOGSIZE`, header included.  So the log has room for one block less than
`begin_op` hands out, and the reservation is sufficient exactly when no
operation uses all of the `MAXOPBLOCKS` blocks it is promised.
-/

namespace OsCa.Log

open Function List

variable {Pid : Type*}

variable {L : LogArea} {m n : ℕ} {s t : State Pid} {e : Event Pid} {p : Pid} {b : Uint}

/-! ## Operations with a bounded number of blocks -/

/-- The operation has passed at most `m` distinct blocks to `log_write`, the
present one included. -/
def Event.Within (m : ℕ) (s : State Pid) : Event Pid → Prop
  | .logWriteTest p b => ((s.used p).insert b).length ≤ m
  | _ => True

instance (m : ℕ) (s : State Pid) (e : Event Pid) : Decidable (e.Within m s) :=
  match e with
  | .logWriteTest p b => inferInstanceAs (Decidable (((s.used p).insert b).length ≤ m))
  | .callBeginOp _ => isTrue trivial
  | .beginOp _ => isTrue trivial
  | .modify _ _ _ => isTrue trivial
  | .logWriteRecord _ _ => isTrue trivial
  | .endOp _ => isTrue trivial
  | .commitStep _ _ => isTrue trivial
  | .finishCommit _ => isTrue trivial

/-- The log shared by processes whose operations log at most `m` distinct
blocks each. -/
def boundedSystem (Pid : Type*) [DecidableEq Pid] (L : LogArea) (m : ℕ) :
    EventSystem (State Pid) (Event Pid) where
  init := Start
  step := fun s e => if e.Within m s then step L s e else none

theorem boundedStep_eq_some_iff [DecidableEq Pid] :
    (boundedSystem Pid L m).step s e = some t ↔ e.Within m s ∧ step L s e = some t := by
  simp [boundedSystem]

theorem Event.Within.mono (hmn : m ≤ n) (h : e.Within m s) : e.Within n s := by
  cases e with
  | logWriteTest p b => exact le_trans h hmn
  | _ => trivial

/-- A run within a bound is also within every larger bound. -/
theorem boundedSystem_reachable_mono [DecidableEq Pid] (hmn : m ≤ n)
    (h : (boundedSystem Pid L m).Reachable s) :
    (boundedSystem Pid L n).Reachable s := by
  obtain ⟨s₀, es, hstart, hrun⟩ := h
  refine ⟨s₀, es, hstart, ?_⟩
  refine EventSystem.run_history
    (P := fun es t => (boundedSystem Pid L n).run s₀ es = some t) rfl ?_ hrun
  intro es t e u ht hstep
  obtain ⟨hwithin, hu⟩ := boundedStep_eq_some_iff.mp hstep
  exact (EventSystem.run_snoc_eq_some_iff _).mpr
    ⟨t, ht, boundedStep_eq_some_iff.mpr ⟨hwithin.mono hmn, hu⟩⟩

/-! ## The reservation invariant -/

/-- Blocks of the present operation of `p` that are recorded in the log. -/
def State.logged (s : State Pid) (p : Pid) : ℕ :=
  ((s.used p).filter fun b => s.machine.lh.contains b).length

/-- The recorded blocks together with what the operations inside may still
add leave two blocks of `LOGSIZE` unused. -/
structure Reserved (m : ℕ) (s : State Pid) : Prop where
  bounded : ∀ p, s.role p = .inside → (s.used p).length ≤ m
  pending : ∀ p b, s.pc p = .logWrite b → b ∈ s.used p
  room : ∀ S : Finset Pid, (∀ p, p ∈ S ↔ s.role p = .inside) →
    s.machine.lh.length + ∑ p ∈ S, (m - s.logged p) + 2 ≤ LOGSIZE

theorem reserved_of_idle (hrole : ∀ p, s.role p ≠ .inside)
    (hlen : s.machine.lh.length + 2 ≤ LOGSIZE) : Reserved m s := by
  refine ⟨fun p hp => absurd hp (hrole p), ?_, ?_⟩
  · intro p b hp
    exact absurd (Pc.inside_iff_role.mp (Or.inr ⟨b, hp⟩)) (hrole p)
  · intro S hS
    have hempty : S = ∅ := by
      apply Finset.eq_empty_of_forall_notMem
      intro p hp
      exact hrole p ((hS p).mp hp)
    simpa [hempty] using hlen

theorem Reserved.length_le (h : Reserved m s) (hinv : GroupInv s) :
    s.machine.lh.length + 2 ≤ LOGSIZE := by
  obtain ⟨S, hS, -⟩ := hinv.count
  have := h.room S hS
  omega

/-- Steps that let nobody in and record no block keep the reservation. -/
theorem Reserved.congr (h : Reserved m s) (hinv : GroupInv s)
    (hrole : ∀ p, t.role p = .inside → s.role p = .inside)
    (hpc : ∀ p b, t.pc p = .logWrite b → s.pc p = .logWrite b) (hused : t.used = s.used)
    (hlh : t.machine.lh = s.machine.lh) : Reserved m t := by
  have hlogged : ∀ p, t.logged p = s.logged p := by
    intro p
    rw [State.logged, State.logged, hused, hlh]
  refine ⟨?_, ?_, ?_⟩
  · intro p hp
    rw [hused]
    exact h.bounded p (hrole p hp)
  · intro p b hp
    rw [hused]
    exact h.pending p b (hpc p b hp)
  · intro S hS
    obtain ⟨T, hT, -⟩ := hinv.count
    have hsub : S ⊆ T := by
      intro p hp
      exact (hT p).mpr (hrole p ((hS p).mp hp))
    have hsum : ∑ p ∈ S, (m - t.logged p) ≤ ∑ p ∈ T, (m - s.logged p) := by
      simp only [hlogged]
      exact Finset.sum_le_sum_of_subset hsub
    have := h.room T hT
    rw [hlh]
    omega

/-- A process that goes on, and not inside an operation, keeps the reservation. -/
theorem Reserved.update [DecidableEq Pid] (h : Reserved m s) (hinv : GroupInv s) {pc : Pc}
    (hrole : pc.role ≠ .inside) {pcs : Pid → Pc} (hpc : t.pc = update pcs p pc)
    (hpcs : pcs = s.pc ∨ pcs = wakeup s.pc) (hused : t.used = s.used)
    (hlh : t.machine.lh = s.machine.lh) : Reserved m t := by
  refine h.congr hinv (fun q hq => ?_) (fun q b hq => ?_) hused hlh
  · rw [State.role, hpc] at hq
    have hin := inside_of_update hrole hq
    rcases hpcs with rfl | rfl
    · exact hin
    · rwa [role_wakeup] at hin
  · rw [hpc, update_apply] at hq
    split at hq
    next => exact absurd (by rw [hq]; rfl) hrole
    next =>
      rcases hpcs with rfl | rfl
      · exact hq
      · unfold wakeup at hq
        split at hq
        next => cases hq
        next => exact hq

theorem length_lt_of_sublist {α : Type*} {xs ys : List α} {x : α}
    (h : xs.Sublist ys) (hy : x ∈ ys) (hx : x ∉ xs) :
    xs.length < ys.length := by
  by_contra hle
  exact hx (h.eq_of_length_le (Nat.le_of_not_lt hle) ▸ hy)

theorem sum_credit_le (m : ℕ) (S : Finset Pid) (f : Pid → ℕ) : ∑ p ∈ S, (m - f p) ≤ S.card * m := by
  refine le_trans (Finset.sum_le_card_nsmul S _ m ?_) (by simp)
  intro p _
  exact Nat.sub_le m (f p)

section Steps

variable [DecidableEq Pid]

/-- The test of `begin_op` reserves enough for a new operation of fewer than
`MAXOPBLOCKS` blocks. -/
theorem reserved_beginOp (hm : m < MAXOPBLOCKS) (h : Reserved m s) (hinv : GroupInv s)
    (hp : s.pc p = .beginOp) : Reserved m (beginOp s p) := by
  have hM : MAXOPBLOCKS = 10 := rfl
  have hL : LOGSIZE = 30 := rfl
  have hsleep : Reserved m (s.setPc p .sleeping) :=
    h.update hinv (by decide) rfl (Or.inl rfl) rfl rfl
  unfold beginOp
  split
  next => exact hsleep
  next hc =>
    split
    next => exact hsleep
    next hfits =>
      have hfalse : s.committing = false := by simpa using hc
      have hidle : s.role p = .idle := by simp [State.role, hp, Pc.role]
      have hother : ∀ q, q ≠ p → (update s.pc p .inOp q).role = .inside → s.role q = .inside := by
        intro q hq hin
        simpa [State.role, role_update, hq] using hin
      refine ⟨?_, ?_, ?_⟩
      · intro q hq
        by_cases hqp : q = p
        · simp [hqp]
        · simpa [hqp] using h.bounded q (hother q hqp hq)
      · intro q b hq
        by_cases hqp : q = p
        · simp [hqp] at hq
        · simpa [hqp] using h.pending q b (by simpa [hqp] using hq)
      · intro S hS
        obtain ⟨T, hT, hcard⟩ := hinv.count
        have hpT : p ∉ T := by
          rw [hT, hidle]
          simp
        have hST : S = insert p T := by
          ext q
          rw [hS, Finset.mem_insert, hT]
          simp only [State.role, role_update]
          split
          next hq => simp [hq, Pc.role]
          next hq => simp [hq]
        have hcard' : S.card = T.card + 1 := by rw [hST, Finset.card_insert_of_notMem hpT]
        have hnine : S.card * m ≤ S.card * 9 := Nat.mul_le_mul_left _ (by omega)
        simp only [hcard, hM, hL] at hfits
        refine le_trans (Nat.add_le_add_right (Nat.add_le_add_left (sum_credit_le m S _) _) 2) ?_
        by_cases hzero : T.card = 0
        · -- the first operation of a transaction finds an empty log
          have hnil : s.machine.lh = [] := by
            apply hinv.quiet hfalse
            intro q
            cases hq : s.role q with
            | idle => rfl
            | inside =>
              have hmem := (hT q).mpr hq
              rw [Finset.card_eq_zero.mp hzero] at hmem
              simp at hmem
            | commit c => exact absurd hq (hinv.no_commit hfalse q c)
          simp only [hnil, length_nil]
          omega
        · simp only
          omega

/-- Within the reservation `log_write` passes both of its tests. -/
theorem logWriteTest_eq (hsize : LOGSIZE ≤ L.size) (h : Reserved m s)
    (hinv : GroupInv s) (hp : s.pc p = .inOp) :
    logWriteTest L s p b =
      { s with
        pc := update s.pc p (.logWrite b)
        used := update s.used p ((s.used p).insert b) } := by
  have hL : LOGSIZE = 30 := rfl
  have hinside : s.role p = .inside := by simp [State.role, hp, Pc.role]
  have hlen := h.length_le hinv
  have hout := hinv.outstanding_pos hinside
  unfold logWriteTest
  dsimp only
  rw [if_neg (by omega), if_neg (by omega)]
  rfl

theorem reserved_logWriteTest (hsize : LOGSIZE ≤ L.size) (h : Reserved m s)
    (hinv : GroupInv s) (hp : s.pc p = .inOp)
    (hwithin : ((s.used p).insert b).length ≤ m) :
    Reserved m (logWriteTest L s p b) := by
  have hinside : s.role p = .inside := by simp [State.role, hp, Pc.role]
  rw [logWriteTest_eq hsize h hinv hp]
  have hrole : ∀ q, (update s.pc p (.logWrite b) q).role = s.role q :=
    role_update_eq (by rw [hp]; rfl)
  refine ⟨?_, ?_, ?_⟩
  · intro q hq
    by_cases hqp : q = p
    · simpa [hqp] using hwithin
    · simpa [hqp] using h.bounded q (by simpa [State.role, hqp] using hq)
  · intro q c hq
    by_cases hqp : q = p
    · obtain rfl : b = c := by simpa [hqp] using hq
      simp [hqp]
    · simpa [hqp] using h.pending q c (by simpa [hqp] using hq)
  · intro S hS
    -- blocks that are already recorded only lower what may still be added
    have hroom := h.room S (fun q => by rw [hS]; exact (by rw [State.role, hrole]))
    have hsum : ∑ q ∈ S, (m - State.logged { s with
          pc := update s.pc p (.logWrite b)
          used := update s.used p ((s.used p).insert b) } q) ≤
        ∑ q ∈ S, (m - s.logged q) := by
      apply Finset.sum_le_sum
      intro q _
      apply Nat.sub_le_sub_left
      by_cases hqp : q = p
      · simp only [State.logged, hqp, update_self]
        apply List.Sublist.length_le
        apply List.Sublist.filter
        exact sublist_insert b (s.used p)
      · simp [State.logged, hqp]
    exact le_trans (Nat.add_le_add_right (Nat.add_le_add_left hsum _) 2) hroom

theorem reserved_logWriteRecord (h : Reserved m s) (hp : s.pc p = .logWrite b) :
    Reserved m (logWriteRecord s p b) := by
  have hinside : s.role p = .inside := by simp [State.role, hp, Pc.role]
  have hused : b ∈ s.used p := h.pending p b hp
  have hrole : ∀ q, (logWriteRecord s p b).role q = s.role q := role_update_eq (by rw [hp]; rfl)
  refine ⟨?_, ?_, ?_⟩
  · intro q hq
    exact h.bounded q (by rwa [hrole] at hq)
  · intro q c hq
    by_cases hqp : q = p
    · simp [logWriteRecord, hqp] at hq
    · exact h.pending q c (by simpa [logWriteRecord, hqp] using hq)
  · intro S hS
    have hS' : ∀ q, q ∈ S ↔ s.role q = .inside := fun q => by rw [hS, hrole]
    have hroom := h.room S hS'
    by_cases hb : b ∈ s.machine.lh
    · -- the block is absorbed
      have hlh : (logWriteRecord s p b).machine.lh = s.machine.lh := by simp [logWriteRecord, hb]
      have hlogged : ∀ q, (logWriteRecord s p b).logged q = s.logged q := by
        intro q
        rw [State.logged, State.logged, hlh]
        rfl
      simpa only [hlh, hlogged] using hroom
    · -- the block is new, and its operation had room for it
      have hlh : (logWriteRecord s p b).machine.lh = s.machine.lh ++ [b] := by
        simp [logWriteRecord, hb]
      have hmono : ∀ c, s.machine.lh.contains c = true →
          (logWriteRecord s p b).machine.lh.contains c = true := by
        intro c hc
        rw [hlh, contains_iff_mem, mem_append]
        rw [contains_iff_mem] at hc
        exact Or.inl hc
      have hle : ∀ q, s.logged q ≤ (logWriteRecord s p b).logged q :=
        fun q => (monotone_filter_right _ hmono).length_le
      have hnot : b ∉ (s.used p).filter fun c => s.machine.lh.contains c := by simp [hb]
      have hgrow : s.logged p < (logWriteRecord s p b).logged p := by
        refine length_lt_of_sublist ?_ ?_ hnot
        · exact monotone_filter_right _ hmono
        · refine mem_filter.mpr ⟨hused, ?_⟩
          simp [hlh]
      have hfits : s.logged p < m := lt_of_lt_of_le (length_lt_of_sublist filter_sublist hused hnot)
          (h.bounded p hinside)
      have hsum : ∑ q ∈ S, (m - (logWriteRecord s p b).logged q) < ∑ q ∈ S, (m - s.logged q) := by
        apply Finset.sum_lt_sum
        · intro q _
          exact Nat.sub_le_sub_left (hle q) m
        · exact ⟨p, (hS' p).mpr hinside, by omega⟩
      rw [hlh, length_append, length_singleton]
      omega

/-- One step of operations of fewer than `MAXOPBLOCKS` blocks. -/
theorem reserved_step (hsize : LOGSIZE ≤ L.size) (hm : m < MAXOPBLOCKS)
    (h : Reserved m s) (hinv : GroupInv s) (hwithin : e.Within m s)
    (hstep : step L s e = some t) : Reserved m t := by
  have htinv := groupInv_step hinv hstep
  obtain ⟨-, henabled, rfl⟩ := step_eq_some_iff.mp hstep
  have hlen := h.length_le hinv
  cases e with
  | callBeginOp p => exact h.update hinv (by decide) rfl (Or.inl rfl) rfl rfl
  | beginOp p => exact reserved_beginOp hm h hinv henabled
  | modify p b data => exact h.congr hinv (fun _ => id) (fun _ _ => id) rfl rfl
  | logWriteTest p b => exact reserved_logWriteTest hsize h hinv henabled hwithin
  | logWriteRecord p b => exact reserved_logWriteRecord h henabled
  | endOp p =>
    have hinside : s.role p = .inside := Pc.inside_iff_role.mp (Or.inl henabled)
    have hfalse := hinv.not_committing hinside
    simp only [Event.effect, endOp, hfalse, Bool.false_eq_true, if_false]
    split
    next => exact h.update hinv (by decide) rfl (Or.inl rfl) rfl rfl
    next => exact h.update hinv (by decide) rfl (Or.inr rfl) rfl rfl
  | commitStep p c =>
    have hcommit : ((Event.commitStep p c).effect L s).role p =
        .commit (commitStep L s.machine c).1 := by
      simp [State.role, Event.effect, Pc.role]
    apply reserved_of_idle (htinv.none_inside hcommit)
    simp only [Event.effect, commitStep_lh]
    split
    next =>
      have hL : LOGSIZE = 30 := rfl
      simp [hL]
    next => exact hlen
  | finishCommit p =>
    have hcommit : s.role p = .commit .done := Pc.role_eq_commit_iff.mpr henabled
    refine reserved_of_idle (fun q hq => ?_) hlen
    exact hinv.none_inside hcommit q
      ((role_wakeup s.pc q).symm.trans (inside_of_update (by decide) hq))

/-- Within the reservation the only panic left, a transaction that is too
big, does not happen either. -/
theorem panic_step (hsize : LOGSIZE ≤ L.size) (h : Reserved m s) (hinv : GroupInv s)
    (hstep : step L s e = some t) : t.panic = none := by
  obtain ⟨hpanic, henabled, rfl⟩ := step_eq_some_iff.mp hstep
  cases e with
  | callBeginOp p => exact hpanic
  | beginOp p =>
    simp only [Event.effect, beginOp]
    split
    next => exact hpanic
    next => split <;> exact hpanic
  | modify p b data => exact hpanic
  | logWriteTest p b =>
    rw [Event.effect, logWriteTest_eq hsize h hinv henabled]
    exact hpanic
  | logWriteRecord p b => exact hpanic
  | endOp p =>
    have hfalse := hinv.not_committing (Pc.inside_iff_role.mp (Or.inl henabled))
    simp only [Event.effect, endOp, hfalse, Bool.false_eq_true, if_false]
    split <;> exact hpanic
  | commitStep p c => exact hpanic
  | finishCommit p => exact hpanic

/-- Operations of fewer than `MAXOPBLOCKS` blocks never make the kernel
panic. -/
theorem reservation_sufficient (hsize : LOGSIZE ≤ L.size) (hm : m < MAXOPBLOCKS)
    (h : (boundedSystem Pid L m).Reachable s) : s.panic = none := by
  have hall : GroupInv s ∧ Reserved m s ∧ s.panic = none := by
    refine h.invariant (P := fun s => GroupInv s ∧ Reserved m s ∧ s.panic = none) ?_ ?_
    · intro s hs
      refine ⟨groupInv_start hs, reserved_of_idle ?_ ?_, hs.panic⟩
      · intro p
        simp [hs.role]
      · rw [hs.lh]
        decide
    · rintro s e t ⟨hinv, hres, -⟩ hstep
      obtain ⟨hwithin, hs⟩ := boundedStep_eq_some_iff.mp hstep
      exact ⟨groupInv_step hinv hs, reserved_step hsize hm hres hinv hwithin hs,
        panic_step hsize hres hinv hs⟩
  exact hall.2.2

end Steps

/-! ## Three operations that use their full reservation -/

/-- Process `p` logs block `b`. -/
def logBlock (p : ℕ) (b : Uint) : List (Event ℕ) := [.logWriteTest p b, .logWriteRecord p b]

/-- Processes 0, 1 and 2 start an operation each.  The first two log ten
blocks, the third logs nine and then calls `log_write` for its tenth. -/
def threeFullOperations : List (Event ℕ) :=
  ([0, 1, 2] : List ℕ).map .callBeginOp ++ ([0, 1, 2] : List ℕ).map .beginOp ++
    (range 29).flatMap (fun i => logBlock (i / 10) (BitVec.ofNat 32 (100 + i))) ++
    [.logWriteTest 2 129]

theorem threeFullOperations_panic : ((boundedSystem ℕ mkfsLog MAXOPBLOCKS).run
      (startState ℕ fun _ _ => 0) threeFullOperations).map State.panic =
      some (some .tooBigATransaction) := by
  decide +kernel

theorem exists_panic_of_full : ∃ s, (boundedSystem ℕ mkfsLog MAXOPBLOCKS).Reachable s ∧
      s.panic = some .tooBigATransaction := by
  obtain ⟨s, hrun, hpanic⟩ := Option.map_eq_some_iff.mp threeFullOperations_panic
  exact ⟨s, ⟨_, _, start_startState _, hrun⟩, hpanic⟩

/-- The reservation of `begin_op` is not sufficient: operations that log at
most `MAXOPBLOCKS` blocks each can reach the panic of `log_write`. -/
theorem reservation_not_sufficient : ¬ ∀ s, (boundedSystem ℕ mkfsLog MAXOPBLOCKS).Reachable s →
      s.panic ≠ some .tooBigATransaction := by
  intro h
  obtain ⟨s, hs, hpanic⟩ := exists_panic_of_full
  exact h s hs hpanic

/-- On a disk laid out by `mkfs`, bounding every operation by `m` distinct
blocks keeps all runs away from the panic `too big a transaction` exactly when
`m` is less than `MAXOPBLOCKS`. -/
theorem reservation_sufficient_iff (m : ℕ) : (∀ s, (boundedSystem ℕ mkfsLog m).Reachable s →
      s.panic ≠ some .tooBigATransaction) ↔ m < MAXOPBLOCKS := by
  constructor
  · intro h
    by_contra hm
    obtain ⟨s, hs, hpanic⟩ := exists_panic_of_full
    exact h s (boundedSystem_reachable_mono (Nat.le_of_not_lt hm) hs) hpanic
  · intro hm s hs
    rw [reservation_sufficient (Nat.le_refl LOGSIZE) hm hs]
    simp

end OsCa.Log
