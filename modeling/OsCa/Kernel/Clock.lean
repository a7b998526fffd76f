import Mathlib.Algebra.Group.Nat.Defs
import Mathlib.Algebra.Order.Group.Int
import OsCa.Support.EventSystem

/-!
# Sleeping for a number of clock ticks

One call of `sys_sleep` in `kernel/sysproc.c`, and `clockintr` in `kernel/trap.c`.
Each round of the loop is one step: the process has `tickslock` from the test of the
condition until it sleeps.  The counter is a `uint`, so the difference wraps, and the
`int` argument is converted before it is compared.

`elapsed` is not in the source.  It counts the clock ticks since the call.
-/

namespace OsCa.Clock

/-- Where the process is in the loop. -/
inductive Phase where
  /-- About to test the condition. -/
  | runnable
  | sleeping
  | returned (value : BitVec 64)
  deriving DecidableEq

structure State where
  ticks : BitVec 32
  ticks0 : BitVec 32
  killed : Bool
  phase : Phase
  elapsed : ℕ

inductive Event where
  | clockintr
  /-- Another `wakeup(&ticks)`. -/
  | wakeup
  | kill
  /-- The process tests the condition of the loop. -/
  | check

def Phase.wakeup : Phase → Phase
  | .sleeping => .runnable
  | ph => ph

def step (n : BitVec 32) (s : State) : Event → Option State
  | .clockintr =>
    some { s with
      ticks := s.ticks + 1
      phase := s.phase.wakeup
      elapsed := s.elapsed + 1 }
  | .wakeup => some { s with phase := s.phase.wakeup }
  | .kill => some { s with killed := true, phase := s.phase.wakeup }
  | .check =>
    if s.phase = .runnable then
      if s.ticks - s.ticks0 < n then
        some { s with phase := if s.killed then .returned (-1) else .sleeping }
      else some { s with phase := .returned 0 }
    else none

/-- The process has just set `ticks0`. -/
def system (n : BitVec 32) : EventSystem State Event where
  init s := s.ticks0 = s.ticks ∧ s.elapsed = 0 ∧ s.killed = false ∧ s.phase = .runnable
  step := step n

variable {n : BitVec 32} {s t : State} {e : Event}

/-- The counter has gone on by the elapsed ticks, modulo `2 ^ 32`. -/
def Counted (s : State) : Prop := s.ticks = s.ticks0 + BitVec.ofNat 32 s.elapsed

theorem Counted.step (h : Counted s) (hstep : Clock.step n s e = some t) : Counted t := by
  unfold Counted at h ⊢
  cases e with
  | clockintr =>
    cases hstep
    simp [h, BitVec.ofNat_add, BitVec.add_assoc]
  | wakeup | kill =>
    cases hstep
    exact h
  | check =>
    simp only [Clock.step] at hstep
    split_ifs at hstep <;> cases hstep <;> exact h

theorem Counted.toNat_sub (h : Counted s) : (s.ticks - s.ticks0).toNat = s.elapsed % 2 ^ 32 := by
  rw [h, BitVec.add_comm, BitVec.add_sub_cancel, BitVec.toNat_ofNat]

/-- `sys_sleep` returns 0 if the process tests the condition now. -/
def Returns (n : BitVec 32) (s : State) : Prop :=
  ∃ t, step n s .check = some t ∧ t.phase = .returned 0

/-- The test compares the elapsed ticks modulo `2 ^ 32` with `n` as a `uint`. -/
theorem returns_iff (h : Counted s) (hphase : s.phase = .runnable) :
    Returns n s ↔ n.toNat ≤ s.elapsed % 2 ^ 32 := by
  have hlt : s.elapsed % 2 ^ 32 < n.toNat ↔ s.ticks - s.ticks0 < n := by
    rw [BitVec.lt_def, h.toNat_sub]
  rw [← Nat.not_lt, hlt, Returns]
  by_cases hless : s.ticks - s.ticks0 < n
  · cases hk : s.killed <;> simp [step, hphase, hless, hk]
  · simp [step, hphase, hless]

/-- Whenever the process tests the condition, `sys_sleep` returns 0 if `max(n, 0)` ticks
have elapsed, and does not return 0 otherwise, exactly if `n` as a `uint` is reached modulo
`2 ^ 32`, or `n` ticks have not elapsed.  This is so for every `n` that is not negative, as
long as less than `2 ^ 32` ticks have elapsed. -/
theorem sleep_on_time_iff {n : BitVec 32} {s₀ s : State} {es : List Event}
    (hs₀ : (system n).init s₀) (hrun : (system n).run s₀ es = some s)
    (hphase : s.phase = .runnable) :
    ((Returns n s ↔ max n.toInt 0 ≤ s.elapsed) ↔
      n.toNat ≤ s.elapsed % 2 ^ 32 ∨ (s.elapsed : ℤ) < n.toInt) ∧
    (0 ≤ n.toInt → s.elapsed < 2 ^ 32 → (Returns n s ↔ max n.toInt 0 ≤ s.elapsed)) := by
  have hcounted : Counted s := by
    refine EventSystem.run_invariant (S := system n) (fun _ _ _ h hstep => h.step hstep) ?_ hrun
    simp [Counted, hs₀.1, hs₀.2.1]
  have hn := n.isLt
  have hint := BitVec.toInt_eq_toNat_cond n
  rw [returns_iff hcounted hphase, hint]
  split <;> omega

/-- Two ticks from the largest value of the counter. -/
theorem sleep_on_time_iff_wrap : ∃ s, (system 2).run ⟨-1, -1, false, .runnable, 0⟩
        [.check, .clockintr, .check, .clockintr] = some s ∧
      s.elapsed = 2 ∧ (Returns 2 s ↔ max (2 : BitVec 32).toInt 0 ≤ s.elapsed) := by
  obtain ⟨s, hrun, helapsed, hphase⟩ : ∃ s,
      (system 2).run ⟨-1, -1, false, .runnable, 0⟩ [.check, .clockintr, .check, .clockintr] =
        some s ∧ s.elapsed = 2 ∧ s.phase = .runnable :=
    EventSystem.exists_of_any_run (by decide)
  refine ⟨s, hrun, helapsed, ?_⟩
  exact (sleep_on_time_iff ⟨rfl, rfl, rfl, rfl⟩ hrun hphase).2 (by decide)
    (by rw [helapsed]; decide)

/-- `sleep(-1)` does not return at its first test. -/
theorem sleep_negative : (system (-1)).init ⟨0, 0, false, .runnable, 0⟩ ∧
      max (-1 : BitVec 32).toInt 0 ≤ 0 ∧ ¬ Returns (-1) ⟨0, 0, false, .runnable, 0⟩ := by
  refine ⟨⟨rfl, rfl, rfl, rfl⟩, by decide, ?_⟩
  rw [returns_iff (by simp [Counted]) rfl]
  decide

end OsCa.Clock
