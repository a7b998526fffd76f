import Mathlib.Data.Nat.Factorial.Basic
import OsCa.Homework.Machine

/-!
# The calculator

This module embeds `CAHomework2/b05504066_hw2.s`.
-/

namespace OsCa.Assembly.Calculator

open Function

/-- The address of the string `divide_by_zero`. -/
def divideByZero : Word := 0x10000000

def program : Program where
  text := [.addi .a0 .zero 5, .ecall, .addi .s0 .a0 0, .addi .a0 .zero 5, .ecall, .addi .s1 .a0 0,
      .addi .a0 .zero 5, .ecall, .addi .s2 .a0 0,
      .branch .bne .s1 .zero 12, .alu .add .s3 .s0 .s2, .jal .zero 57,
      -- 12: `subtraction`
      .addi .s4 .zero 1, .branch .bne .s1 .s4 16, .alu .sub .s3 .s0 .s2, .jal .zero 57,
      -- 16: `multiplication`
      .addi .s4 .s4 1, .branch .bne .s1 .s4 20, .alu .mul .s3 .s0 .s2, .jal .zero 57,
      -- 20: `division`
      .addi .s4 .s4 1, .branch .bne .s1 .s4 25, .branch .beq .s2 .zero 62,
      .alu .div .s3 .s0 .s2, .jal .zero 57,
      -- 25: `power`
      .addi .s4 .s4 1, .branch .bne .s1 .s4 38, .branch .beq .s2 .zero 36, .addi .t0 .zero 1,
      .alu .add .t1 .zero .s0,
      -- 30: `Loop`
      .branch .bge .t0 .s2 34, .alu .mul .t1 .s0 .t1, .addi .t0 .t0 1, .jal .zero 30,
      -- 34: `power_return`
      .alu .add .s3 .zero .t1, .jal .zero 57,
      -- 36: `out_one`
      .addi .s3 .zero 1, .jal .zero 57,
      -- 38: `fac_return`
      .alu .add .a0 .s0 .zero, .jal .ra 42, .alu .add .s3 .a0 .zero, .jal .zero 57,
      -- 42: `factorial`
      .addi .sp .sp (-8), .sw .a0 4 .sp, .sw .ra 0 .sp, .addi .t0 .zero 1,
      .branch .blt .t0 .a0 50, .addi .a0 .zero 1, .addi .sp .sp 8, .jalr .zero .ra,
      -- 50: `fac_notend`
      .addi .a0 .a0 (-1), .jal .ra 42, .lw .ra 0 .sp, .lw .t1 4 .sp, .addi .sp .sp 8,
      .alu .mul .a0 .t1 .a0, .jalr .zero .ra,
      -- 57: `exit`
      .addi .a0 .zero 1, .addi .a1 .s3 0, .ecall, .addi .a0 .zero 10, .ecall,
      -- 62: `zero_except`
      .addi .a0 .zero 4, .la .a1 divideByZero, .ecall, .addi .a0 .zero 10, .ecall]
  rodata a := if a = divideByZero then "divide by zero" else ""

/-- The value of the operation. -/
def value (op : Fin 6) (a b : ℕ) : ℤ :=
  match op with
  | 0 => a + b
  | 1 => a - b
  | 2 => a * b
  | 3 => a / b
  | 4 => a ^ b
  | 5 => a.factorial

/-- What is printed. -/
def answer (op : Fin 6) (a b : ℕ) : Out := if op = 3 ∧ b = 0 then .string "divide by zero"
  else .int (BitVec.ofInt 32 (value op a b)).toInt

variable {s : State} {A B : Word}

/-! ## Blocks -/

/-- Where the operation begins. -/
def entry : Fin 6 → ℕ
  | 0 => 10
  | 1 => 14
  | 2 => 18
  | 3 => 22
  | 4 => 27
  | 5 => 38

theorem dispatch (op : Fin 6) (h : At 0 s) (hinput : s.input = [A, BitVec.ofNat 32 op, B]) :
    ∃ t, Goes program s t (entry op) ∧ t.regs .s0 = A + 0 ∧ t.regs .s2 = B + 0 ∧
      t.regs .sp = s.regs .sp := by
  obtain ⟨regs, mem, input, out⟩ := h
  subst hinput
  match op with
  | 0 => exact ⟨_, ⟨⟨10, rfl⟩, .mk .., rfl⟩, rfl, rfl, rfl⟩
  | 1 => exact ⟨_, ⟨⟨12, rfl⟩, .mk .., rfl⟩, rfl, rfl, rfl⟩
  | 2 => exact ⟨_, ⟨⟨14, rfl⟩, .mk .., rfl⟩, rfl, rfl, rfl⟩
  | 3 => exact ⟨_, ⟨⟨16, rfl⟩, .mk .., rfl⟩, rfl, rfl, rfl⟩
  | 4 => exact ⟨_, ⟨⟨18, rfl⟩, .mk .., rfl⟩, rfl, rfl, rfl⟩
  | 5 => exact ⟨_, ⟨⟨18, rfl⟩, .mk .., rfl⟩, rfl, rfl, rfl⟩

/-- The program prints `o` and exits, with the stack pointer restored. -/
def Prints (s : State) (o : Out) : Prop :=
  ∃ t, Runs program s t ∧ t.exited = true ∧ t.out = s.out ++ [o] ∧ t.regs .sp = s.regs .sp

theorem Prints.of_goes {t : State} {k : ℕ} {o : Out} (h : Goes program s t k)
    (hsp : t.regs .sp = s.regs .sp) (ht : Prints t o) : Prints s o := by
  obtain ⟨u, hu, hend, hout, hsp'⟩ := ht
  exact ⟨u, h.runs.trans hu, hend, by rw [hout, h.out], hsp'.trans hsp⟩

theorem exit (h : At 57 s) : Prints s (.int (s.regs .s3).toInt) := by
  obtain ⟨⟩ := h
  exact ⟨_, ⟨5, rfl⟩, rfl, by simp [State.get, State.put, State.print], rfl⟩

theorem zeroExcept (h : At 62 s) : Prints s (.string "divide by zero") := by
  obtain ⟨⟩ := h
  exact ⟨_, ⟨5, rfl⟩, rfl, rfl, rfl⟩

theorem arithmetic {op : Alu} (h : At 10 s ∧ op = .add ∨ At 14 s ∧ op = .sub ∨ At 18 s ∧ op = .mul ∨
      At 23 s ∧ op = .div) :
    Prints s (.int (op.eval (s.regs .s0) (s.regs .s2)).toInt) := by
  obtain ⟨t, ht, hsp, hs₃⟩ : ∃ t, Goes program s t 57 ∧ t.regs .sp = s.regs .sp ∧
      t.regs .s3 = op.eval (s.regs .s0) (s.regs .s2) := by
    rcases h with ⟨⟨⟩, rfl⟩ | ⟨⟨⟩, rfl⟩ | ⟨⟨⟩, rfl⟩ | ⟨⟨⟩, rfl⟩ <;>
      exact ⟨_, ⟨⟨2, rfl⟩, .mk .., rfl⟩, rfl, rfl⟩
  exact hs₃ ▸ .of_goes ht hsp (exit ht.before)

theorem division (h : At 22 s) : Prints s (if s.regs .s2 = 0 then .string "divide by zero"
      else .int ((s.regs .s0).sdiv (s.regs .s2)).toInt) := by
  obtain ⟨t, ht, hregs⟩ := h.branch (p := program) rfl
  have hcond : Cond.eval .beq (s.get .s2) (s.get .zero) = decide (t.regs .s2 = 0) := by
    rw [hregs]
    exact Bool.beq_eq_decide_eq ..
  rw [hcond] at ht
  refine .of_goes ht (by rw [hregs]) ?_
  rw [← hregs]
  by_cases hzero : t.regs .s2 = 0
  · rw [if_pos (decide_eq_true hzero)] at ht
    rw [if_pos hzero]
    exact zeroExcept ht.before
  · rw [if_neg (by rwa [decide_eq_true_eq])] at ht
    have hdiv : Alu.div.eval (t.regs .s0) (t.regs .s2) = _ := if_neg hzero
    rw [if_neg hzero, ← hdiv]
    exact arithmetic (Or.inr (Or.inr (Or.inr ⟨ht.before, rfl⟩)))

/-! ## The power -/

theorem body (h : At 31 s) : ∃ t, Goes program s t 30 ∧ t.regs .t0 = s.regs .t0 + 1 ∧
      t.regs .t1 = s.regs .s0 * s.regs .t1 ∧ t.regs .s0 = s.regs .s0 ∧
      t.regs .s2 = s.regs .s2 ∧ t.regs .sp = s.regs .sp := by
  obtain ⟨⟩ := h
  exact ⟨_, ⟨⟨3, rfl⟩, .mk .., rfl⟩, rfl, rfl, rfl, rfl, rfl⟩

theorem powerReturn (h : At 34 s) : Prints s (.int (s.regs .t1).toInt) := by
  obtain ⟨⟩ := h
  exact ⟨_, ⟨7, rfl⟩, rfl, by simp [State.get, State.put, State.print, State.jump, Alu.eval], rfl⟩

theorem toNat_ofNat {n : ℕ} (hn : n < 2 ^ 31) : (BitVec.ofNat 32 n).toNat = n :=
  Nat.mod_eq_of_lt (by omega)

theorem slt_ofNat {m n : ℕ} (hm : m < 2 ^ 31) (hn : n < 2 ^ 31) :
    (BitVec.ofNat 32 m).slt (BitVec.ofNat 32 n) = decide (m < n) := by
  rw [slt_eq (by rwa [toNat_ofNat hm]) (by rwa [toNat_ofNat hn]), toNat_ofNat hm, toNat_ofNat hn]

/-- With `j` factors in `t1`. -/
theorem loop {a b j : ℕ} (h : At 30 s) (hs₀ : s.regs .s0 = BitVec.ofNat 32 a)
    (hs₂ : s.regs .s2 = BitVec.ofNat 32 b) (ht₀ : s.regs .t0 = BitVec.ofNat 32 j)
    (ht₁ : s.regs .t1 = BitVec.ofNat 32 (a ^ j)) (hj : j ≤ b) (hb : b < 2 ^ 31) :
    Prints s (.int (BitVec.ofNat 32 (a ^ b)).toInt) := by
  induction hk : b - j using Nat.strong_induction_on generalizing s j with
  | _ k ih =>
    obtain ⟨t, ht, hregs⟩ := h.branch (p := program) rfl
    have hcond : Cond.eval .bge (s.get .t0) (s.get .s2) = !decide (j < b) := by
      change (!(s.regs .t0).slt (s.regs .s2)) = _
      rw [ht₀, hs₂, slt_ofNat (by omega) hb]
    rw [hcond] at ht
    rcases hj.eq_or_lt with rfl | hlt
    · rw [if_pos (by simp)] at ht
      exact ht₁ ▸ hregs ▸ .of_goes ht (by rw [hregs]) (powerReturn ht.before)
    · rw [if_neg (by simpa using hlt)] at ht
      obtain ⟨u, hu, hnext, hmul, hs₀', hs₂', hsp⟩ := body ht.before
      rw [hregs] at hnext hmul hs₀' hs₂' hsp
      refine .of_goes (ht.trans hu) hsp (ih (b - (j + 1)) (by omega) hu.before
        (hs₀'.trans hs₀) (hs₂'.trans hs₂) ?_ ?_ hlt rfl)
      · rw [hnext, ht₀, Nat.succ_eq_add_one, BitVec.ofNat_add]
        rfl
      · rw [hmul, hs₀, ht₁, ← BitVec.ofNat_mul, Nat.pow_succ, Nat.mul_comm]

/-- Behind the test of the exponent. -/
theorem powerStart (h : At 28 s) :
    ∃ t, Goes program s t 30 ∧ t.regs .t0 = 1 ∧ t.regs .t1 = 0 + s.regs .s0 ∧
      t.regs .s0 = s.regs .s0 ∧ t.regs .s2 = s.regs .s2 ∧ t.regs .sp = s.regs .sp := by
  obtain ⟨⟩ := h
  exact ⟨_, ⟨⟨2, rfl⟩, .mk .., rfl⟩, rfl, rfl, rfl, rfl, rfl⟩

theorem outOne (h : At 36 s) : Prints s (.int 1) := by
  obtain ⟨⟩ := h
  exact ⟨_, ⟨7, rfl⟩, rfl, rfl, rfl⟩

theorem power {a b : ℕ} (h : At 27 s) (hs₀ : s.regs .s0 = BitVec.ofNat 32 a)
    (hs₂ : s.regs .s2 = BitVec.ofNat 32 b) (hb : b < 2 ^ 31) :
    Prints s (.int (BitVec.ofNat 32 (a ^ b)).toInt) := by
  obtain ⟨t, ht, hregs⟩ := h.branch (p := program) rfl
  have hcond : Cond.eval .beq (s.get .s2) (s.get .zero) = decide (b = 0) := by
    change (s.regs .s2 == 0) = _
    rw [hs₂, Bool.beq_eq_decide_eq]
    refine decide_eq_decide.mpr ?_
    rw [← BitVec.toNat_inj, toNat_ofNat hb]
    rfl
  rw [hcond] at ht
  by_cases hzero : b = 0
  · subst hzero
    exact .of_goes ht (by rw [hregs]) (outOne ht.before)
  · rw [if_neg (by simpa using hzero)] at ht
    obtain ⟨u, hu, ht₀, ht₁, hs₀', hs₂', hsp⟩ := powerStart ht.before
    rw [hregs] at ht₁ hs₀' hs₂' hsp
    refine .of_goes (ht.trans hu) hsp (loop (j := 1) hu.before (hs₀'.trans hs₀)
      (hs₂'.trans hs₂) ht₀ ?_ (by omega) hb)
    rw [ht₁, hs₀, Nat.pow_one]
    simp

/-! ## The factorial -/

theorem enter (h : At 42 s) :
    ∃ t, Goes program s t (if (BitVec.ofNat 32 1).slt (s.regs .a0) then 50 else 47) ∧
      t.regs .a0 = s.regs .a0 ∧ t.regs .ra = s.regs .ra ∧ t.regs .sp = s.regs .sp + -8 ∧
      t.mem = update (update s.mem (s.regs .sp + -8 + 4) (s.regs .a0)) (s.regs .sp + -8 + 0)
        (s.regs .ra) := by
  obtain ⟨regs, mem, input, out⟩ := h
  refine ⟨⟨update (update regs .sp (regs .sp + -8)) .t0 1,
    update (update mem (regs .sp + -8 + 4) (regs .a0)) (regs .sp + -8 + 0) (regs .ra),
    _, input, out, false⟩, ⟨⟨5, ?_⟩, .mk .., rfl⟩, rfl, rfl, rfl, by dsimp only⟩
  simp [run, step, program, Instr.exec, State.get, State.put, Cond.eval]

theorem leave (h : At 47 s) : ∃ t, Goes program s t ((s.regs .ra).toNat / 4) ∧ t.regs .a0 = 1 ∧
      t.regs .sp = s.regs .sp + 8 ∧ t.mem = s.mem := by
  obtain ⟨⟩ := h
  exact ⟨_, ⟨⟨3, rfl⟩, .mk .., rfl⟩, rfl, rfl, rfl⟩

theorem facNotend (h : At 50 s) :
    ∃ t, Goes program s t 42 ∧ t.regs .a0 = s.regs .a0 + -1 ∧ t.regs .ra = 208 ∧
      t.regs .sp = s.regs .sp ∧ t.mem = s.mem := by
  obtain ⟨⟩ := h
  exact ⟨_, ⟨⟨2, rfl⟩, .mk .., rfl⟩, rfl, rfl, rfl, rfl⟩

theorem multiply (h : At 52 s) : ∃ t, Goes program s t ((s.mem (s.regs .sp + 0)).toNat / 4) ∧
      t.regs .a0 = s.mem (s.regs .sp + 4) * s.regs .a0 ∧
      t.regs .sp = s.regs .sp + 8 ∧ t.mem = s.mem := by
  obtain ⟨⟩ := h
  exact ⟨_, ⟨⟨5, rfl⟩, .mk .., rfl⟩, rfl, rfl, rfl⟩

theorem factorial_returns {m : ℕ} (hpos : 0 < m) (hm : m < 2 ^ 31) (h : At 42 s)
    (ha : s.regs .a0 = BitVec.ofNat 32 m) (hstack : 8 * m ≤ (s.regs .sp).toNat) :
    ∃ t, Returns program s t (BitVec.ofNat 32 m.factorial) := by
  induction m, hpos using Nat.le_induction generalizing s with
  | base =>
    obtain ⟨-, hback, hword⟩ := frame (s.regs .sp) 8 (by bv_omega)
    obtain ⟨t, ht, -, hra, hsp, hmem⟩ := enter h
    rw [ha, slt_ofNat (by decide) hm, if_neg (by simp)] at ht
    obtain ⟨u, hu, hv, hsp', hmem'⟩ := leave ht.before
    rw [hra] at hu
    refine ⟨u, ht.trans hu, hv, by rw [hsp', hsp, hback], fun a ha => ?_⟩
    rw [hmem', hmem, update_of_ne ((hword 0 (by decide)).2 a ha).1,
      update_of_ne ((hword 4 (by decide)).2 a ha).1]
  | succ m hpos ih =>
    obtain ⟨hlow, hback, hword⟩ := frame (s.regs .sp) 8 (by bv_omega)
    obtain ⟨t, ht, ha₀, hra, hsp, hmem⟩ := enter h
    rw [ha, slt_ofNat (by decide) hm, if_pos (by simp; omega)] at ht
    obtain ⟨t₁, ht₁, hv₁, hra₁, hsp₁, hmem₁⟩ := facNotend ht.before
    rw [hsp] at hsp₁
    have harg : t₁.regs .a0 = BitVec.ofNat 32 m := by
      rw [hv₁, ha₀, ha]
      bv_omega
    obtain ⟨u, hu⟩ := ih (by omega) ht₁.before harg (by rw [hsp₁]; bv_omega)
    have hread : ∀ a, s.regs .sp + -8 ≤ a → u.mem a = t.mem a := fun a ha => by
      rw [hu.mem a (by rwa [hsp₁]), hmem₁]
    have hat := hu.goes.before
    rw [hra₁] at hat
    obtain ⟨t₂, ht₂, hv₂, hsp₂, hmem₂⟩ := multiply hat
    rw [hu.sp, hsp₁] at ht₂ hv₂ hsp₂
    rw [hread _ (hword 0 (by decide)).1, hmem, update_self] at ht₂
    rw [hread _ (hword 4 (by decide)).1, hmem, update_of_ne (by bv_omega), update_self] at hv₂
    refine ⟨t₂, ((ht.trans ht₁).trans hu.goes).trans ht₂, ?_, by rw [hsp₂, hback], fun a ha => ?_⟩
    · rw [hv₂, ha, hu.value, ← BitVec.ofNat_mul, Nat.factorial_succ]
    · obtain ⟨hne₀, hle⟩ := (hword 0 (by decide)).2 a ha
      rw [hmem₂, hread a hle, hmem, update_of_ne hne₀,
        update_of_ne ((hword 4 (by decide)).2 a ha).1]

theorem facReturn (h : At 38 s) :
    ∃ t, Goes program s t 42 ∧ t.regs .a0 = s.regs .s0 + 0 ∧ t.regs .ra = 160 ∧
      t.regs .sp = s.regs .sp := by
  obtain ⟨⟩ := h
  exact ⟨_, ⟨⟨2, rfl⟩, .mk .., rfl⟩, rfl, rfl, rfl⟩

theorem facExit (h : At 40 s) : Prints s (.int (s.regs .a0).toInt) := by
  obtain ⟨⟩ := h
  exact ⟨_, ⟨7, rfl⟩, rfl, by simp [State.get, State.put, State.print, State.jump, Alu.eval], rfl⟩

theorem fac {m : ℕ} (hm : m < 2 ^ 31) (h : At 38 s) (hs₀ : s.regs .s0 = BitVec.ofNat 32 m)
    (hstack : 8 * m ≤ (s.regs .sp).toNat) :
    Prints s (.int (BitVec.ofNat 32 m.factorial).toInt) := by
  obtain ⟨t, ht, ha, hra, hsp⟩ := facReturn h
  have ha : t.regs .a0 = BitVec.ofNat 32 m := by
    rw [ha, hs₀]
    simp
  rw [← hsp] at hstack
  obtain ⟨u, hu, hv, hsp'⟩ : ∃ u, Goes program t u ((t.regs .ra).toNat / 4) ∧
      u.regs .a0 = BitVec.ofNat 32 m.factorial ∧ u.regs .sp = t.regs .sp := by
    rcases Nat.eq_zero_or_pos m with rfl | hpos
    · -- The frame of the only call is not read.
      obtain ⟨u, hu, -, hra', hsp', -⟩ := enter ht.before
      rw [ha, slt_ofNat (by decide) (by decide), if_neg (by simp)] at hu
      obtain ⟨v, hv, ha', hsp'', -⟩ := leave hu.before
      refine ⟨v, hu.trans (hra' ▸ hv), ha', ?_⟩
      rw [hsp'', hsp']
      bv_omega
    · obtain ⟨u, hu⟩ := factorial_returns hpos hm ht.before ha hstack
      exact ⟨u, hu.goes, hu.value, hu.sp⟩
  have hat := hu.before
  rw [hra] at hat
  exact hv ▸ .of_goes (ht.trans hu) (hsp'.trans hsp) (facExit hat)

/-! ## The program -/

/-- For operands that are not negative, the program prints the result of the operation modulo
`2 ^ 32` as a signed number, or the message if it is to divide by zero, and exits with the
stack pointer restored. -/
theorem calculator_correct (op : Fin 6) (A B : Word) (hA : A.toNat < 2 ^ 31)
    (hB : B.toNat < 2 ^ 31) (s : State) (h : At 0 s)
    (hinput : s.input = [A, BitVec.ofNat 32 op, B])
    (hstack : op = 5 → 8 * A.toNat ≤ (s.regs .sp).toNat) :
    Prints s (answer op A.toNat B.toNat) := by
  obtain ⟨t, ht, hs₀, hs₂, hsp⟩ := dispatch op h hinput
  have hs₀ : t.regs .s0 = BitVec.ofNat 32 A.toNat := by simp [hs₀]
  have hs₂ : t.regs .s2 = BitVec.ofNat 32 B.toNat := by simp [hs₂]
  refine .of_goes ht hsp ?_
  match op with
  | 0 =>
    have hprints := arithmetic (Or.inl ⟨ht.before, rfl⟩)
    simpa [answer, value, Alu.eval, hs₀, hs₂, BitVec.ofInt_add] using hprints
  | 1 =>
    have hprints := arithmetic (Or.inr (Or.inl ⟨ht.before, rfl⟩))
    have hsub : BitVec.ofInt 32 ((A.toNat : ℤ) - B.toNat) = A - B := by
      rw [Int.sub_eq_add_neg, BitVec.ofInt_add, BitVec.ofInt_neg]
      simp [BitVec.sub_eq_add_neg]
    simpa [answer, value, Alu.eval, hs₀, hs₂, hsub] using hprints
  | 2 =>
    have hprints := arithmetic (Or.inr (Or.inr (Or.inl ⟨ht.before, rfl⟩)))
    simpa [answer, value, Alu.eval, hs₀, hs₂, BitVec.ofInt_mul] using hprints
  | 3 =>
    have hprints := division ht.before
    have hdiv : BitVec.ofInt 32 ((A.toNat : ℤ) / B.toNat) = A.sdiv B := by
      rw [← Int.natCast_ediv, ← toNat_sdiv hA hB]
      simp
    by_cases hzero : B = 0
    · simpa [answer, hs₂, hzero] using hprints
    · have hne : B.toNat ≠ 0 := fun h => hzero (BitVec.eq_of_toNat_eq h)
      rw [hs₀, hs₂, BitVec.ofNat_toNat, BitVec.setWidth_eq, BitVec.ofNat_toNat,
        BitVec.setWidth_eq, if_neg hzero] at hprints
      rwa [answer, if_neg (by simp [hne]), value, hdiv]
  | 4 =>
    have hprints := power ht.before hs₀ hs₂ hB
    rwa [answer, if_neg (by simp), value, ← Int.natCast_pow, BitVec.ofInt_natCast]
  | 5 =>
    have hprints := fac hA ht.before hs₀ (hsp ▸ hstack rfl)
    rwa [answer, if_neg (by simp), value, BitVec.ofInt_natCast]

theorem calculator_correct_factorial :
    Prints ⟨fun r => if r = .sp then 64 else 0, fun _ => 0, 0, [4, 5, 0], [], false⟩ (.int 24) :=
  calculator_correct 5 4 0 (by decide) (by decide) _ (.mk ..) rfl (by decide)

end OsCa.Assembly.Calculator
