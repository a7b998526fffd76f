import OsCa.Homework.Machine

/-!
# The recurrence

This module embeds `CAHomework3/b05504066_hw3.s`.
-/

namespace OsCa.Assembly.Recurrence

open Function

/-- `__start` is 0, `function` is 7, `formula` is 15 and `exit` is 34. -/
def program : Program where
  text := [.addi .a0 .zero 5, .ecall, .addi .s0 .a0 0, .alu .add .a0 .s0 .zero, .jal .ra 7,
      .alu .add .s1 .a0 .zero, .jal .ra 34,
      -- `function`
      .addi .sp .sp (-12), .sw .a0 4 .sp, .sw .ra 0 .sp, .addi .s4 .zero 1,
      .branch .blt .s4 .a0 15, .addi .a0 .zero 1, .addi .sp .sp 12, .jalr .zero .ra,
      -- `formula`
      .addi .a0 .a0 (-100), .jal .ra 7, .alu .add .t1 .a0 .zero, .lw .a0 4 .sp, .sw .t1 8 .sp,
      .addi .t3 .zero 2, .alu .div .a0 .a0 .t3, .jal .ra 7, .alu .add .t1 .a0 .zero,
      .lw .ra 0 .sp, .lw .a0 4 .sp, .lw .t2 8 .sp, .addi .t3 .zero 2, .alu .mul .t1 .t1 .t3,
      .alu .add .t2 .t2 .t1, .addi .t2 .t2 5, .alu .add .a0 .t2 .zero, .addi .sp .sp 12,
      .jalr .zero .ra,
      -- `exit`
      .addi .a0 .zero 1, .addi .a1 .s1 0, .ecall, .addi .a0 .zero 10, .ecall]
  rodata _ := ""

/-- The value that is computed, before it is taken modulo `2 ^ 32`. -/
def T (n : ℤ) : ℕ := if 1 < n then T (n - 100) + 2 * T (n / 2) + 5 else 1
termination_by n.toNat

/-- The number of frames on the stack. -/
def depth (n : ℤ) : ℕ := if 1 < n then max (depth (n - 100)) (depth (n / 2)) + 1 else 1
termination_by n.toNat

variable {s : State}

/-! ## Blocks -/

theorem enter (h : At 7 s) :
    ∃ t, Goes program s t (if (1 : Word).slt (s.regs .a0) then 15 else 12) ∧
      t.regs .a0 = s.regs .a0 ∧ t.regs .ra = s.regs .ra ∧ t.regs .sp = s.regs .sp + -12 ∧
      t.mem = update (update s.mem (s.regs .sp + -12 + 4) (s.regs .a0)) (s.regs .sp + -12 + 0)
        (s.regs .ra) := by
  obtain ⟨regs, mem, input, out⟩ := h
  refine ⟨⟨update (update regs .sp (regs .sp + -12)) .s4 1,
    update (update mem (regs .sp + -12 + 4) (regs .a0)) (regs .sp + -12 + 0) (regs .ra),
    _, input, out, false⟩, ⟨⟨5, ?_⟩, .mk .., rfl⟩, rfl, rfl, rfl, by dsimp only⟩
  simp [run, step, program, Instr.exec, State.get, State.put, Cond.eval]

theorem leave (h : At 12 s) : ∃ t, Goes program s t ((s.regs .ra).toNat / 4) ∧ t.regs .a0 = 1 ∧
      t.regs .sp = s.regs .sp + 12 ∧ t.mem = s.mem := by
  obtain ⟨⟩ := h
  exact ⟨_, ⟨⟨3, rfl⟩, .mk .., rfl⟩, rfl, rfl, rfl⟩

/-- To the first recursive call. -/
theorem first (h : At 15 s) :
    ∃ t, Goes program s t 7 ∧ t.regs .a0 = s.regs .a0 + -100 ∧ t.regs .ra = 68 ∧
      t.regs .sp = s.regs .sp ∧ t.mem = s.mem := by
  obtain ⟨⟩ := h
  exact ⟨_, ⟨⟨2, rfl⟩, .mk .., rfl⟩, rfl, rfl, rfl, rfl⟩

/-- To the second recursive call. -/
theorem second (h : At 17 s) :
    ∃ t, Goes program s t 7 ∧ t.regs .a0 = (s.mem (s.regs .sp + 4)).sdiv 2 ∧
      t.regs .ra = 92 ∧ t.regs .sp = s.regs .sp ∧
      t.mem = update s.mem (s.regs .sp + 8) (s.regs .a0 + 0) := by
  obtain ⟨⟩ := h
  exact ⟨_, ⟨⟨6, rfl⟩, .mk .., rfl⟩, rfl, rfl, rfl, rfl⟩

/-- To the return. -/
theorem last (h : At 23 s) : ∃ t, Goes program s t ((s.mem (s.regs .sp + 0)).toNat / 4) ∧
      t.regs .a0 = s.mem (s.regs .sp + 8) + (s.regs .a0 + 0) * (0 + 2) + 5 + 0 ∧
      t.regs .sp = s.regs .sp + 12 ∧ t.mem = s.mem := by
  obtain ⟨⟩ := h
  exact ⟨_, ⟨⟨11, rfl⟩, .mk .., rfl⟩, rfl, rfl, rfl⟩

/-! ## The recursion -/

theorem depth_pos (n : ℤ) : 0 < depth n := by
  rw [depth]
  split <;> omega

theorem slt_one_iff (x : Word) : (1 : Word).slt x = true ↔ 1 < x.toInt := by
  simp [BitVec.slt]

theorem toInt_add_neg {x : Word} (h : 1 < x.toInt) : (x + -100).toInt = x.toInt - 100 := by
  have hx := BitVec.toInt_eq_toNat_cond x
  have hsum := BitVec.toInt_eq_toNat_cond (x + -100)
  have hlt := x.isLt
  have himm : (-100 : Word).toNat = 2 ^ 32 - 100 := by decide
  rw [BitVec.toNat_add, himm] at hsum
  rw [hsum, hx]
  split <;> split <;> omega

theorem toInt_sdiv_two {x : Word} (h : 1 < x.toInt) : (x.sdiv 2).toInt = x.toInt / 2 := by
  have hx := BitVec.toInt_eq_toNat_cond x
  have hlt := x.isLt
  have hdiv := toNat_sdiv (x := x) (y := 2) (by split at hx <;> omega) (by decide)
  have hhalf := BitVec.toInt_eq_toNat_cond (x.sdiv 2)
  rw [hdiv, show (2 : Word).toNat = 2 from rfl] at hhalf
  rw [hhalf, hx]
  split <;> split <;> omega

theorem function_returns (n : ℤ) (h : At 7 s) (hn : (s.regs .a0).toInt = n)
    (hstack : 12 * depth n ≤ (s.regs .sp).toNat) :
    ∃ t, Returns program s t (BitVec.ofNat 32 (T n)) := by
  induction hk : n.toNat using Nat.strong_induction_on generalizing n s with
  | _ k ih =>
    subst hk
    have hpos := depth_pos n
    obtain ⟨hlow, hback, hword⟩ := frame (s.regs .sp) 12 (by bv_omega)
    obtain ⟨t, ht, ha₀, hra, hsp, hmem⟩ := enter h
    by_cases hlt : 1 < n
    · rw [depth, if_pos hlt] at hstack
      rw [if_pos (by rw [slt_one_iff, hn]; exact hlt)] at ht
      obtain ⟨t₁, ht₁, hv₁, hra₁, hsp₁, hmem₁⟩ := first ht.before
      rw [hsp] at hsp₁
      rw [ha₀] at hv₁
      -- The call with `n - 100`.
      obtain ⟨u₁, hu₁⟩ := ih (n - 100).toNat (by omega) (n - 100) ht₁.before
        (by rw [hv₁, toInt_add_neg (hn ▸ hlt), hn]) (by rw [hsp₁]; bv_omega) rfl
      have hread₁ : ∀ a, s.regs .sp + -12 ≤ a → u₁.mem a = t.mem a := fun a ha => by
        rw [hu₁.mem a (by rwa [hsp₁]), hmem₁]
      have hat₁ := hu₁.goes.before
      rw [hra₁] at hat₁
      obtain ⟨t₂, ht₂, hv₂, hra₂, hsp₂, hmem₂⟩ := second hat₁
      rw [hu₁.sp, hsp₁] at hsp₂ hv₂ hmem₂
      rw [hread₁ _ (hword 4 (by decide)).1, hmem, update_of_ne (by bv_omega), update_self] at hv₂
      -- The call with `n / 2`.
      obtain ⟨u₂, hu₂⟩ := ih (n / 2).toNat (by omega) (n / 2) ht₂.before
        (by rw [hv₂, toInt_sdiv_two (hn ▸ hlt), hn]) (by rw [hsp₂]; bv_omega) rfl
      have hread₂ : ∀ a, s.regs .sp + -12 ≤ a → u₂.mem a = t₂.mem a := fun a ha =>
        hu₂.mem a (by rwa [hsp₂])
      have hat₂ := hu₂.goes.before
      rw [hra₂] at hat₂
      obtain ⟨t₃, ht₃, hv₃, hsp₃, hmem₃⟩ := last hat₂
      rw [hu₂.sp, hsp₂, hread₂ _ (hword 0 (by decide)).1, hmem₂, update_of_ne (by bv_omega),
        hread₁ _ (hword 0 (by decide)).1, hmem, update_self] at ht₃
      have hT : T n = T (n - 100) + 2 * T (n / 2) + 5 := by rw [T, if_pos hlt]
      refine ⟨t₃, (((((ht.trans ht₁).trans hu₁.goes).trans ht₂).trans hu₂.goes).trans ht₃), ?_,
        by rw [hsp₃, hu₂.sp, hsp₂, hback], fun a ha => ?_⟩
      · rw [hv₃, hu₂.sp, hsp₂, hread₂ _ (hword 8 (by decide)).1, hmem₂, update_self, hu₁.value,
          hu₂.value, hT, BitVec.ofNat_add, BitVec.ofNat_add, BitVec.ofNat_mul, BitVec.mul_comm]
        simp
      · obtain ⟨hne₀, hle⟩ := (hword 0 (by decide)).2 a ha
        rw [hmem₃, hread₂ a hle, hmem₂, update_of_ne ((hword 8 (by decide)).2 a ha).1,
          hread₁ a hle, hmem, update_of_ne hne₀, update_of_ne ((hword 4 (by decide)).2 a ha).1]
    · rw [if_neg (by rw [slt_one_iff, hn]; exact hlt)] at ht
      obtain ⟨u, hu, hv, hsp', hmem'⟩ := leave ht.before
      rw [hra] at hu
      refine ⟨u, ht.trans hu, ?_, by rw [hsp', hsp, hback], fun a ha => ?_⟩
      · rw [hv, T, if_neg hlt]
        rfl
      · rw [hmem', hmem, update_of_ne ((hword 0 (by decide)).2 a ha).1,
          update_of_ne ((hword 4 (by decide)).2 a ha).1]

/-! ## The program -/

theorem start {n : Word} (h : At 0 s) (hinput : s.input.head? = some n) :
    ∃ t, Goes program s t 7 ∧ t.regs .a0 = n ∧ t.regs .ra = 20 ∧ t.regs .sp = s.regs .sp := by
  obtain ⟨regs, mem, input, out⟩ := h
  obtain ⟨rest, rfl⟩ := List.head?_eq_some_iff.mp hinput
  exact ⟨_, ⟨⟨5, rfl⟩, .mk .., rfl⟩, by simp [State.put, State.jump, State.get, Alu.eval], rfl, rfl⟩

theorem finish (h : At 5 s) : ∃ t, Runs program s t ∧ t.exited = true ∧
      t.out = s.out ++ [.int (s.regs .a0 + 0 + 0).toInt] := by
  obtain ⟨⟩ := h
  exact ⟨_, ⟨7, rfl⟩, rfl, rfl⟩

/-- With enough stack, `function` returns the value of the recurrence modulo `2 ^ 32`, with
the stack pointer and the memory above it as they were, and the program prints this value
and exits. -/
theorem function_computes (n : Word) (s : State)
    (hstack : 12 * depth n.toInt ≤ (s.regs .sp).toNat) :
    (At 7 s → s.regs .a0 = n → ∃ t, Returns program s t (BitVec.ofNat 32 (T n.toInt))) ∧
    (At 0 s → s.input.head? = some n → ∃ t, Runs program s t ∧ t.exited = true ∧
      t.out = s.out ++ [.int (BitVec.ofNat 32 (T n.toInt)).toInt]) := by
  refine ⟨fun h hn => function_returns _ h (by rw [hn]) hstack, fun h hinput => ?_⟩
  obtain ⟨t, ht, hn, hra, hsp⟩ := start h hinput
  obtain ⟨u, hu⟩ := function_returns _ ht.before (by rw [hn]) (hsp ▸ hstack)
  have hat := hu.goes.before
  rw [hra] at hat
  obtain ⟨v, hv, hend, hout⟩ := finish hat
  refine ⟨v, (ht.trans hu.goes).runs.trans hv, hend, ?_⟩
  rw [hout, hu.goes.out, ht.out, hu.value]
  simp

/-- `T(2)` is 8. -/
theorem function_computes_two :
    ∃ t, Runs program ⟨fun _ => 100, fun _ => 0, 0, [2], [], false⟩ t ∧ t.exited = true ∧
      t.out = [.int 8] := by
  have hone (n : ℤ) (hn : n ≤ 1) : T n = 1 ∧ depth n = 1 := by
    rw [T, depth, if_neg (by omega), if_neg (by omega)]
    exact ⟨rfl, rfl⟩
  have htwo : T (2 : Word).toInt = 8 ∧ depth (2 : Word).toInt = 2 := by
    rw [show (2 : Word).toInt = 2 from rfl, T, depth]
    simp [hone]
  obtain ⟨t, hruns, hend, hout⟩ := (function_computes 2 _ (by rw [htwo.2]; decide)).2
    (.mk (fun _ => 100) (fun _ => 0) [2] []) rfl
  refine ⟨t, hruns, hend, hout.trans ?_⟩
  rw [htwo.1]
  rfl

end OsCa.Assembly.Recurrence
