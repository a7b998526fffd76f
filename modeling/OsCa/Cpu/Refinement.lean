import Mathlib.Data.List.Basic
import OsCa.Cpu.Model

/-!
# The CPU executes the instruction set

For the eight supported instructions, every way of settling the wires leaves
the ALU with the value that the instruction computes.  The zero words after
the program are not instructions: `Control` keeps its outputs, and whatever
they were, the cycle writes zero to `x0`.
-/

namespace OsCa.Cpu

open Function List

/-! ## Fields of an instruction word -/

theorem field_skip {v w : ℕ} {xhi : BitVec v} {xlo : BitVec w} (s len : ℕ) :
    (xhi ++ xlo).extractLsb' (w + s) len = xhi.extractLsb' s len := by
  rw [BitVec.extractLsb'_append_eq_of_le (Nat.le_add_right w s), Nat.add_sub_cancel_left]

theorem field_low {v w : ℕ} {xhi : BitVec v} {xlo : BitVec w} :
    (xhi ++ xlo).extractLsb' 0 w = xlo := by
  rw [BitVec.extractLsb'_append_eq_of_add_le (by omega), BitVec.extractLsb'_eq_self]

section Fields

variable (funct7 : BitVec 7) (rs2 rs1 : BitVec 5) (funct3 : BitVec 3)
variable (rd : BitVec 5) (imm : BitVec 12)

theorem encodeR_op : (encodeR funct7 rs2 rs1 funct3 rd).extractLsb' 0 7 = 51 := field_low

theorem encodeR_rd : (encodeR funct7 rs2 rs1 funct3 rd).extractLsb' 7 5 = rd :=
  (field_skip 0 5).trans field_low

theorem encodeR_funct3 : (encodeR funct7 rs2 rs1 funct3 rd).extractLsb' 12 3 = funct3 :=
  (field_skip 5 3).trans ((field_skip 0 3).trans field_low)

theorem encodeR_rs1 : (encodeR funct7 rs2 rs1 funct3 rd).extractLsb' 15 5 = rs1 :=
  (field_skip 8 5).trans ((field_skip 3 5).trans ((field_skip 0 5).trans field_low))

theorem encodeR_rs2 : (encodeR funct7 rs2 rs1 funct3 rd).extractLsb' 20 5 = rs2 :=
  (field_skip 13 5).trans ((field_skip 8 5).trans
    ((field_skip 5 5).trans ((field_skip 0 5).trans field_low)))

theorem encodeR_funct7 : (encodeR funct7 rs2 rs1 funct3 rd).extractLsb' 25 7 = funct7 :=
  (field_skip 18 7).trans ((field_skip 13 7).trans ((field_skip 10 7).trans
    ((field_skip 5 7).trans ((field_skip 0 7).trans BitVec.extractLsb'_eq_self))))

theorem encodeI_op : (encodeI imm rs1 funct3 rd).extractLsb' 0 7 = 19 := field_low

theorem encodeI_rd : (encodeI imm rs1 funct3 rd).extractLsb' 7 5 = rd :=
  (field_skip 0 5).trans field_low

theorem encodeI_funct3 : (encodeI imm rs1 funct3 rd).extractLsb' 12 3 = funct3 :=
  (field_skip 5 3).trans ((field_skip 0 3).trans field_low)

theorem encodeI_rs1 : (encodeI imm rs1 funct3 rd).extractLsb' 15 5 = rs1 :=
  (field_skip 8 5).trans ((field_skip 3 5).trans ((field_skip 0 5).trans field_low))

theorem encodeI_imm : (encodeI imm rs1 funct3 rd).extractLsb' 20 12 = imm :=
  (field_skip 13 12).trans ((field_skip 8 12).trans ((field_skip 5 12).trans
    ((field_skip 0 12).trans BitVec.extractLsb'_eq_self)))

theorem signExtend_eq : signExtend imm = imm.signExtend 32 := by
  rw [BitVec.signExtend_eq_append_of_le (by decide : 12 ≤ 32)]
  unfold signExtend
  split <;> rfl

theorem signExtend_low (shamt : BitVec 5) :
    (signExtend (funct7 ++ shamt)).extractLsb' 0 5 = shamt := by
  have hlow : ∀ hi : BitVec 20, (hi ++ (funct7 ++ shamt : BitVec 12)).extractLsb' 0 5 = shamt :=
    fun hi => (BitVec.extractLsb'_append_eq_of_add_le (by decide)).trans field_low
  unfold signExtend
  split
  · exact hlow _
  · exact hlow _

end Fields

/-! ## Settled wires -/

namespace Settled

variable {s : State} {w : Wires}

section

variable (h : Settled s w)

include h

theorem ctl_eq : w.ctl = control (s.instr.extractLsb' 0 7) w.ctl :=
  (congrArg Wires.ctl (h .control)).symm

theorem ALUCtrl_eq : w.ALUCtrl = aluControl
      (s.instr.extractLsb' 25 7 ++ s.instr.extractLsb' 12 3) w.ctl.ALUOp
      w.ALUCtrl :=
  (congrArg Wires.ALUCtrl (h .aluControl)).symm

theorem immediate_eq : w.immediate = signExtend (s.instr.extractLsb' 20 12) :=
  (congrArg Wires.immediate (h .signExtend)).symm

theorem operand_eq : w.operand = mux32 s.RS2data w.immediate w.ctl.ALUSrc :=
  (congrArg Wires.operand (h .mux)).symm

theorem result_eq : w.result = alu s.RS1data w.operand w.ALUCtrl w.result :=
  (congrArg Wires.result (h .alu)).symm

/-- The wires of a register-register instruction. -/
theorem of_encodeR {funct7 : BitVec 7} {rs2 rs1 : BitVec 5} {funct3 : BitVec 3}
    {rd : BitVec 5} (hi : s.instr = encodeR funct7 rs2 rs1 funct3 rd) :
    w.ctl = ⟨0b10, 0, 1⟩ ∧ w.ALUCtrl = aluControl (funct7 ++ funct3) 0b10 w.ALUCtrl ∧
      w.result = alu (s.register rs1) (s.register rs2) w.ALUCtrl w.result := by
  have hctl : w.ctl = ⟨0b10, 0, 1⟩ := by
    rw [h.ctl_eq, hi, encodeR_op]
    rfl
  refine ⟨hctl, ?_, ?_⟩
  · have := h.ALUCtrl_eq
    rwa [hi, encodeR_funct7, encodeR_funct3, hctl] at this
  · have hoperand : w.operand = s.register rs2 := by
      rw [h.operand_eq, hctl, State.RS2data, hi, encodeR_rs2]
      rfl
    have := h.result_eq
    rwa [State.RS1data, hi, encodeR_rs1, hoperand] at this

/-- The wires of a register-immediate instruction. -/
theorem of_encodeI {imm : BitVec 12} {rs1 : BitVec 5} {funct3 : BitVec 3}
    {rd : BitVec 5} (hi : s.instr = encodeI imm rs1 funct3 rd) :
    w.ctl = ⟨0b00, 1, 1⟩ ∧ (∃ funct7 : BitVec 7,
        w.ALUCtrl = aluControl (funct7 ++ funct3) 0b00 w.ALUCtrl) ∧
      w.result = alu (s.register rs1) (signExtend imm) w.ALUCtrl w.result := by
  have hctl : w.ctl = ⟨0b00, 1, 1⟩ := by
    rw [h.ctl_eq, hi, encodeI_op]
    rfl
  refine ⟨hctl, ⟨s.instr.extractLsb' 25 7, ?_⟩, ?_⟩
  · have := h.ALUCtrl_eq
    rw [hctl] at this
    rwa [← encodeI_funct3 rs1 funct3 rd imm, ← hi]
  · have hoperand : w.operand = signExtend imm := by
      rw [h.operand_eq, hctl, h.immediate_eq, hi, encodeI_imm]
      rfl
    have := h.result_eq
    rwa [State.RS1data, hi, encodeI_rs1, hoperand] at this

end

end Settled

/-- `ALU_Control` looks only at `funct3` for register-immediate
instructions. -/
theorem aluControl_imm (funct7 : BitVec 7) (funct3 : BitVec 3) (held : BitVec 3) :
    aluControl (funct7 ++ funct3) 0b00 held =
      if funct3 = 0b000 then 4 else if funct3 = 0b101 then 7 else held := by
  have hlow : (funct7 ++ funct3 : BitVec 10).extractLsb' 0 3 = funct3 := field_low
  unfold aluControl
  rw [if_neg (by decide), if_pos (by decide), hlow]

/-- Two outputs of `Control` are possible once an instruction has been
decoded. -/
def Decoded (c : ControlOut) : Prop := c = ⟨0b10, 0, 1⟩ ∨ c = ⟨0b00, 1, 1⟩

theorem Decoded.regWrite {c : ControlOut} (h : Decoded c) : c.RegWrite = 1 := by
  rcases h with rfl | rfl <;> rfl

/-- Whatever order the blocks were evaluated in, the ALU ends up with the value
of the instruction. -/
theorem settled_instr {s : State} {w : Wires} (i : Instr)
    (hi : s.instr = i.encode) (h : Settled s w) :
    Decoded w.ctl ∧ w.result = i.aluValue s.register ∧ s.instr.extractLsb' 7 5 = i.rd := by
  cases i with
  | and rd rs1 rs2 | xor rd rs1 rs2 | sll rd rs1 rs2 | add rd rs1 rs2
  | sub rd rs1 rs2 | mul rd rs1 rs2 =>
    obtain ⟨hctl, hALU, hresult⟩ := h.of_encodeR hi
    rw [hALU] at hresult
    exact ⟨Or.inl hctl, hresult, hi ▸ encodeR_rd _ _ _ _ _⟩
  | addi rd rs1 imm =>
    obtain ⟨hctl, ⟨funct7, hALU⟩, hresult⟩ := h.of_encodeI hi
    rw [aluControl_imm] at hALU
    rw [hALU, signExtend_eq] at hresult
    exact ⟨Or.inr hctl, hresult, hi ▸ encodeI_rd _ _ _ _⟩
  | srai rd rs1 shamt =>
    obtain ⟨hctl, ⟨funct7, hALU⟩, hresult⟩ := h.of_encodeI hi
    rw [aluControl_imm] at hALU
    rw [hALU] at hresult
    refine ⟨Or.inr hctl, ?_, hi ▸ encodeI_rd _ _ _ _⟩
    rw [hresult]
    change (s.register rs1).sshiftRight
      ((signExtend ((0b0100000 : BitVec 7) ++ shamt)).extractLsb' 0 5).toNat = _
    rw [signExtend_low]
    rfl

/-- Left shifts by less than 32 are those of the instruction set. -/
theorem Instr.aluValue_eq {x : RegFile} (i : Instr)
    (hsll : ∀ rd rs1 rs2, i = .sll rd rs1 rs2 → (x rs2).toNat < 32) :
    i.aluValue x = i.value x := by
  cases i with
  | sll rd rs1 rs2 =>
    rw [Instr.value, Nat.mod_eq_of_lt (hsll rd rs1 rs2 rfl)]
    rfl
  | and | xor | add | sub | mul | addi | srai => rfl

/-! ## The zero words -/

/-- Evaluating blocks does not touch the outputs of `Control` when the word is
not one of its opcodes. -/
theorem ctl_foldl_of_zero {s : State} (hi : s.instr = 0) (w : Wires)
    (order : List Block) : (order.foldl (evalBlock s) w).ctl = w.ctl := by
  induction order generalizing w with
  | nil => rfl
  | cons b order ih =>
    rw [foldl_cons, ih]
    cases b with
    | control =>
      simp only [evalBlock, hi]
      rfl
    | aluControl | signExtend | mux | alu => rfl

/-- A zero word writes zero to `x0`, whatever instruction was decoded last. -/
theorem settled_zero {s : State} {w : Wires} (hi : s.instr = 0)
    (h : Settled s w) (hctl : Decoded w.ctl) (hx0 : s.register 0 = 0) :
    w.result = 0 ∧ s.instr.extractLsb' 7 5 = 0 := by
  have hALU : w.ALUCtrl = 4 := by
    rw [h.ALUCtrl_eq, hi]
    rcases hctl with hctl | hctl <;> rw [hctl] <;> rfl
  have himm : w.immediate = 0 := by
    rw [h.immediate_eq, hi]
    rfl
  have hoperand : w.operand = 0 := by
    rw [h.operand_eq, himm, State.RS2data, hi]
    rcases hctl with hctl | hctl
    · rw [hctl]
      exact hx0
    · rw [hctl]
      rfl
  refine ⟨?_, by rw [hi]; rfl⟩
  rw [h.result_eq, hALU, hoperand, State.RS1data, hi]
  change s.register 0 + 0 = 0
  rw [hx0]
  rfl

/-! ## Settling is possible -/

theorem control_idem (Op : BitVec 7) (held : ControlOut) :
    control Op (control Op held) = control Op held := by
  unfold control
  split
  · rfl
  · split <;> rfl

theorem aluControl_idem (funct : BitVec 10) (ALUOp : BitVec 2) (held : BitVec 3) :
    aluControl funct ALUOp (aluControl funct ALUOp held) = aluControl funct ALUOp held := by
  unfold aluControl
  grind

theorem alu_idem (data1 data2 : Word) (ALUCtrl : BitVec 3) (held : Word) :
    alu data1 data2 ALUCtrl (alu data1 data2 ALUCtrl held) = alu data1 data2 ALUCtrl held := by
  unfold alu
  grind

/-- Following the wires from `Control` to the ALU settles them. -/
def dataflowOrder : List Block := [.control, .aluControl, .signExtend, .mux, .alu]

theorem settled_dataflowOrder (s : State) (w : Wires) :
    Settled s (dataflowOrder.foldl (evalBlock s) w) := by
  intro b
  cases b <;> simp [dataflowOrder, evalBlock, control_idem, aluControl_idem, alu_idem]

/-- The state after a cycle that follows the wires. -/
def tick (s : State) : State := clock s (dataflowOrder.foldl (evalBlock s) s.wires)

theorem step_dataflowOrder (s : State) : system.step s dataflowOrder = some (tick s) :=
  if_pos (settled_dataflowOrder s s.wires)

/-! ## Runs -/

/-- The program is stored from address 0 and followed by zero words. -/
def Loaded (program : List Instr) (memory : ℕ → Word) : Prop :=
  ∀ k < 256, memory k = (program[k]?.map Instr.encode).getD 0

/-- The state after `k` cycles. -/
structure After (program : List Instr) (s₀ : State) (k : ℕ) (s : State) :
    Prop where
  memory : s.memory = s₀.memory
  pc : s.pc = BitVec.ofNat 32 (4 * k)
  register : s.register = interpret program s₀.register k
  zero : s.register 0 = 0
  decoded : 0 < k → Decoded s.wires.ctl

theorem interpret_succ (program : List Instr) (x : RegFile) (k : ℕ) : interpret program x (k + 1) =
      program[k]?.toList.foldl Instr.exec (interpret program x k) := by
  rw [interpret, take_add_one, foldl_append, ← interpret]

theorem After.instr {program : List Instr} {s₀ s : State} {k : ℕ}
    (h : After program s₀ k s) (hload : Loaded program s₀.memory)
    (hk : k < 256) : s.instr = (program[k]?.map Instr.encode).getD 0 := by
  have haddr : (s.pc >>> 2).toNat = k := by
    rw [h.pc, BitVec.toNat_ushiftRight, BitVec.toNat_ofNat, Nat.shiftRight_eq_div_pow]
    omega
  rw [State.instr, haddr, h.memory]
  exact hload k hk

theorem After.cycle {program : List Instr} {s₀ s s' : State} {k : ℕ}
    {order : List Block} (h : After program s₀ k s)
    (hne : program ≠ [])
    (hrd : ∀ i ∈ program, i.rd ≠ 0)
    (hload : Loaded program s₀.memory)
    (hk : k < 256)
    (hsll : ∀ rd rs1 rs2, program[k]? = some (.sll rd rs1 rs2) →
      (interpret program s₀.register k rs2).toNat < 32)
    (hcycle : cycle s order = some s') :
    After program s₀ (k + 1) s' := by
  simp only [Cpu.cycle, Option.ite_none_right_eq_some, Option.some.injEq] at hcycle
  obtain ⟨hsettled, rfl⟩ := hcycle
  have hinstr := h.instr hload hk
  have hpc : pcUpdate true true s.pc (adder s.pc 4) = BitVec.ofNat 32 (4 * (k + 1)) := by
    simp only [pcUpdate, adder, h.pc]
    rw [Nat.mul_succ, BitVec.ofNat_add]
    rfl
  cases hi : program[k]? with
  | some i =>
    rw [hi] at hinstr
    have hmem : i ∈ program := mem_of_getElem? hi
    obtain ⟨hdecoded, hresult, haddr⟩ := settled_instr i hinstr hsettled
    rw [i.aluValue_eq fun rd rs1 rs2 heq => by
      rw [h.register]
      exact hsll rd rs1 rs2 (heq ▸ hi)] at hresult
    have hwrite : (clock s (order.foldl (evalBlock s) s.wires)).register =
        update s.register i.rd (i.value s.register) := by
      simp only [clock, registersWrite]
      rw [if_pos hdecoded.regWrite, haddr, hresult]
    refine ⟨h.memory, hpc, ?_, ?_, fun _ => hdecoded⟩
    · rw [hwrite, interpret_succ, hi, ← h.register]
      exact (if_neg (hrd i hmem)).symm
    · rw [hwrite, update_of_ne (hrd i hmem).symm]
      exact h.zero
  | none =>
    rw [hi] at hinstr
    have hinstr : s.instr = 0 := hinstr
    -- The program is not empty, so the first cycle has decoded an
    -- instruction and `Control` still holds its outputs.
    have hpos : 0 < k := by
      by_contra hk0
      obtain rfl : k = 0 := by omega
      exact hne (by simpa using hi)
    have hdecoded : Decoded (order.foldl (evalBlock s) s.wires).ctl := by
      rw [ctl_foldl_of_zero hinstr]
      exact h.decoded hpos
    obtain ⟨hresult, haddr⟩ := settled_zero hinstr hsettled hdecoded h.zero
    have hwrite : (clock s (order.foldl (evalBlock s) s.wires)).register =
        s.register := by
      simp only [clock, registersWrite]
      rw [if_pos hdecoded.regWrite, haddr, hresult, ← h.zero]
      exact update_eq_self 0 s.register
    refine ⟨h.memory, hpc, ?_, ?_, fun _ => hdecoded⟩
    · rw [hwrite, interpret_succ, hi]
      exact h.register
    · rw [hwrite]
      exact h.zero

theorem interpret_min (program : List Instr) (x : RegFile) (n : ℕ) :
    interpret program x (min n program.length) = interpret program x n := by
  unfold interpret
  rw [← take_take, take_length]

/-- After `n` cycles the CPU has executed the first `n` instructions of the
program, or all of them, in whatever order its blocks were evaluated; and
there is such an order for every cycle. -/
theorem cpu_refines_isa (program : List Instr) (hne : program ≠ []) (hrd : ∀ i ∈ program, i.rd ≠ 0)
    (s₀ : State) (hreset : system.init s₀)
    (hload : Loaded program s₀.memory) (hx0 : s₀.register 0 = 0)
    (n : ℕ) (hn : n ≤ 256)
    (hsll : ∀ k < min n program.length, ∀ rd rs1 rs2, program[k]? = some (.sll rd rs1 rs2) →
        (interpret program s₀.register k rs2).toNat < 32) :
    (∃ orders s, orders.length = n ∧ system.run s₀ orders = some s) ∧
      ∀ orders s, orders.length = n → system.run s₀ orders = some s → s.pc.toNat = 4 * n ∧
          s.register = interpret program s₀.register (min n program.length) := by
  have hstart : After program s₀ 0 s₀ := by
    obtain ⟨start, pc, pcIn, hpc⟩ := hreset
    exact ⟨rfl, hpc, rfl, hx0, fun hk => absurd hk (by omega)⟩
  have hsll' : ∀ k < n, ∀ rd rs1 rs2, program[k]? = some (.sll rd rs1 rs2) →
        (interpret program s₀.register k rs2).toNat < 32 := by
    intro k hk rd rs1 rs2 hi
    have hlt : k < program.length := (List.getElem?_eq_some_iff.mp hi).1
    exact hsll k (by omega) rd rs1 rs2 hi
  refine ⟨?_, ?_⟩
  · have hruns : ∀ k (s : State), ∃ s', system.run s (replicate k dataflowOrder) = some s' := by
      intro k
      induction k with
      | zero => exact fun s => ⟨s, rfl⟩
      | succ k ih =>
        intro s
        obtain ⟨s', hs'⟩ := ih (tick s)
        refine ⟨s', ?_⟩
        rw [replicate_succ, EventSystem.run_cons, step_dataflowOrder]
        exact hs'
    obtain ⟨s, hs⟩ := hruns n s₀
    exact ⟨_, s, length_replicate, hs⟩
  · intro orders s hlength hrun
    have hafter := EventSystem.run_history (P := fun orders s => orders.length ≤ n →
        After program s₀ orders.length s)
      (fun _ => hstart)
      (fun orders s order s' ih hcycle hle => by
        rw [length_append, length_singleton] at hle ⊢
        exact (ih (by omega)).cycle hne hrd hload (by omega) (hsll' _ (by omega)) hcycle)
      hrun (by omega)
    rw [hlength] at hafter
    refine ⟨?_, ?_⟩
    · rw [hafter.pc, BitVec.toNat_ofNat]
      omega
    · rw [interpret_min]
      exact hafter.register

/-- `x1 := 3; x2 := x1 << x1; x3 := x2 - x1`. -/
def sampleProgram : List Instr := [.addi 1 0 3, .sll 2 1 1, .sub 3 2 1]

def sampleState : State where
  memory k := (sampleProgram[k]?.map Instr.encode).getD 0
  pc := 0
  register _ := 0
  wires := ⟨⟨0, 0, 0⟩, 0, 0, 0, 0⟩

theorem cpu_refines_isa_sample :
    (∃ orders s, orders.length = 5 ∧ system.run sampleState orders = some s) ∧
      ∀ orders s, orders.length = 5 → system.run sampleState orders = some s →
          s.pc.toNat = 20 ∧ s.register 3 = 21 := by
  have hrefines := cpu_refines_isa sampleProgram (by decide) (by decide)
    sampleState ⟨true, 0, 0, rfl⟩ (fun _ _ => rfl) rfl 5 (by decide) (by
      intro k hk rd rs1 rs2 hi
      have hk3 : k < 3 := hk
      obtain rfl | rfl | rfl : k = 0 ∨ k = 1 ∨ k = 2 := by omega
      · cases hi
      · cases hi
        decide
      · cases hi)
  refine ⟨hrefines.1, fun orders s hlength hrun => ?_⟩
  obtain ⟨hpc, hregister⟩ := hrefines.2 orders s hlength hrun
  exact ⟨hpc, by rw [hregister]; decide⟩

/-! ## `x0`

The register file has no special case for `x0`: it is zero as long as nothing
else is written to it.
-/

/-- Register `x0` is zero, and so is what the register file delivers for it. -/
def ZeroRegister (s : State) : Prop :=
  s.register 0 = 0 ∧ (s.instr.extractLsb' 15 5 = 0 → s.RS1data = 0) ∧
    (s.instr.extractLsb' 20 5 = 0 → s.RS2data = 0)

theorem zeroRegister_iff {s : State} : ZeroRegister s ↔ s.register 0 = 0 := by
  refine ⟨And.left, fun h => ⟨h, fun hrs1 => ?_, fun hrs2 => ?_⟩⟩
  · rw [State.RS1data, hrs1, h]
  · rw [State.RS2data, hrs2, h]

/-- The state in the course of a run of a program.  The program stays in
memory; and unless its first instruction comes next, `Control` has decoded an
instruction or holds the register file. -/
structure Running (program : List Instr) (s : State) : Prop where
  memory : ∀ k, s.memory k = (program[k]?.map Instr.encode).getD 0
  latch : (s.pc = 0 ∧ program ≠ []) ∨ Decoded s.wires.ctl ∨ s.wires.ctl.RegWrite = 0

namespace Running

variable {program : List Instr} {s s' : State} {order : List Block}

theorem instr (h : Running program s) :
    s.instr = (program[(s.pc >>> 2).toNat]?.map Instr.encode).getD 0 :=
  h.memory _

theorem cycle_instr (h : Running program s) {i : Instr} (hi : program[(s.pc >>> 2).toNat]? = some i)
    (hcycle : cycle s order = some s') :
    Running program s' ∧ s'.register = update s.register i.rd (i.aluValue s.register) := by
  simp only [Cpu.cycle, Option.ite_none_right_eq_some, Option.some.injEq] at hcycle
  obtain ⟨hsettled, rfl⟩ := hcycle
  have hinstr := h.instr
  rw [hi] at hinstr
  obtain ⟨hdecoded, hresult, haddr⟩ := settled_instr i hinstr hsettled
  refine ⟨⟨h.memory, Or.inr (Or.inl hdecoded)⟩, ?_⟩
  simp only [clock, registersWrite]
  rw [if_pos hdecoded.regWrite, haddr, hresult]

/-- Past the program nothing changes, as long as `x0` is zero. -/
theorem cycle_zero (h : Running program s) (hi : program[(s.pc >>> 2).toNat]? = none)
    (hcycle : cycle s order = some s') :
    Running program s' ∧ (s.register 0 = 0 → s'.register = s.register) := by
  simp only [Cpu.cycle, Option.ite_none_right_eq_some, Option.some.injEq] at hcycle
  obtain ⟨hsettled, rfl⟩ := hcycle
  have hinstr : s.instr = 0 := by
    rw [h.instr, hi]
    rfl
  have hctl := ctl_foldl_of_zero hinstr s.wires order
  have hlatch : Decoded s.wires.ctl ∨ s.wires.ctl.RegWrite = 0 := by
    refine h.latch.resolve_left ?_
    rintro ⟨hpc, hne⟩
    rw [hpc] at hi
    exact hne (by simpa using hi)
  refine ⟨⟨h.memory, Or.inr ?_⟩, fun hx0 => ?_⟩
  · simp only [clock, hctl]
    exact hlatch
  · simp only [clock, registersWrite, hctl]
    rcases hlatch with hdecoded | hidle
    · obtain ⟨hresult, haddr⟩ := settled_zero hinstr hsettled (hctl ▸ hdecoded) hx0
      rw [if_pos hdecoded.regWrite, haddr, hresult, ← hx0]
      exact update_eq_self 0 s.register
    · rw [if_neg (by rw [hidle]; decide)]

theorem cycle (h : Running program s) (hcycle : Cpu.cycle s order = some s') :
    Running program s' := by
  cases hi : program[(s.pc >>> 2).toNat]? with
  | some i => exact (h.cycle_instr hi hcycle).1
  | none => exact (h.cycle_zero hi hcycle).1

end Running

/-- The memory array holds the program and then zero words.  A word past its
end is unknown: `Control` keeps its outputs, and a write to an unknown register
has no effect, which is what a zero word does as long as `x0` is zero. -/
structure Boots (program : List Instr) (s₀ : State) : Prop where
  reset : system.init s₀
  length_le : program.length ≤ 256
  loaded : Loaded program s₀.memory
  beyond : ∀ k, 256 ≤ k → s₀.memory k = 0
  /-- Before the first instruction `RegWrite` is unknown, which does not enable
  a write. -/
  idle : program = [] → s₀.wires.ctl.RegWrite = 0
  zero : s₀.register 0 = 0

theorem Boots.running {program : List Instr} {s₀ : State}
    (h : Boots program s₀) : Running program s₀ := by
  refine ⟨fun k => ?_, ?_⟩
  · by_cases hk : k < 256
    · exact h.loaded k hk
    · have hlen := h.length_le
      rw [h.beyond k (by omega), getElem?_eq_none (by omega)]
      rfl
  · obtain ⟨start, pc, pcIn, hpc⟩ := h.reset
    by_cases hne : program = []
    · exact Or.inr (Or.inr (h.idle hne))
    · exact Or.inl ⟨hpc, hne⟩

/-- Register `x0` stays zero in the runs of a program exactly if the
instructions that have it as their destination compute zero. -/
theorem zeroRegister_runs_iff (program : List Instr) (s₀ : State) (hboots : Boots program s₀) :
    (∀ orders s, system.run s₀ orders = some s → ZeroRegister s) ↔
      ∀ orders s, system.run s₀ orders = some s →
        ∀ i, program[(s.pc >>> 2).toNat]? = some i → i.rd = 0 → i.aluValue s.register = 0 := by
  have hrunning : ∀ orders s, system.run s₀ orders = some s →
      Running program s := fun orders s hrun =>
    EventSystem.run_invariant (fun _ _ _ h hstep => h.cycle hstep) hboots.running hrun
  constructor
  · intro hzero orders s hrun i hi hrd
    have hcycle := step_dataflowOrder s
    obtain ⟨-, hregister⟩ := (hrunning orders s hrun).cycle_instr hi hcycle
    have hnext := (hzero _ _ (system.run_snoc_eq_some_iff.mpr ⟨s, hrun, hcycle⟩)).1
    rwa [hregister, hrd, update_self] at hnext
  · intro hwrites orders s hrun
    refine zeroRegister_iff.mpr (EventSystem.run_history
      (P := fun orders s => system.run s₀ orders = some s ∧ s.register 0 = 0)
      ⟨rfl, hboots.zero⟩ ?_ hrun).2
    rintro orders s order s' ⟨hrun, hx0⟩ hcycle
    refine ⟨system.run_snoc_eq_some_iff.mpr ⟨s, hrun, hcycle⟩, ?_⟩
    have hinv := hrunning orders s hrun
    cases hi : program[(s.pc >>> 2).toNat]? with
    | none => rw [(hinv.cycle_zero hi hcycle).2 hx0, hx0]
    | some i =>
      rw [(hinv.cycle_instr hi hcycle).2]
      by_cases hrd : i.rd = 0
      · rw [hrd, update_self]
        exact hwrites orders s hrun i hi hrd
      · rw [update_of_ne fun h => hrd h.symm, hx0]

theorem sampleState_boots : Boots sampleProgram sampleState where
  reset := ⟨true, 0, 0, rfl⟩
  length_le := by decide
  loaded _ _ := rfl
  beyond k hk := by
    have hlen : sampleProgram.length = 3 := rfl
    have hnone : sampleProgram[k]? = none := getElem?_eq_none (by omega)
    simp only [sampleState, hnone]
    rfl
  idle h := by cases h
  zero := rfl

/-- No instruction of the sample writes `x0`. -/
theorem zeroRegister_runs_iff_sample : Boots sampleProgram sampleState ∧
      ∀ orders s, system.run sampleState orders = some s → ZeroRegister s := by
  refine ⟨sampleState_boots, (zeroRegister_runs_iff sampleProgram sampleState
    sampleState_boots).mpr fun orders s _ i hi hrd => ?_⟩
  have hmem : i ∈ sampleProgram := mem_of_getElem? hi
  have hnot : ∀ j ∈ sampleProgram, j.rd ≠ 0 := by decide
  exact absurd hrd (hnot i hmem)

/-- `addi x0, x0, 5`, followed by `add x1, x0, x0`. -/
def overwriteProgram : List Instr := [.addi 0 0 5, .add 1 0 0]

def overwriteState : State where
  memory k := (overwriteProgram[k]?.map Instr.encode).getD 0
  pc := 0
  register _ := 0
  wires := ⟨⟨0, 0, 0⟩, 0, 0, 0, 0⟩

/-- The write to `x0` takes effect, and the next instruction reads it. -/
theorem overwrite_x0 : Boots overwriteProgram overwriteState ∧
      ∃ s₁ s₂, system.run overwriteState [dataflowOrder] = some s₁ ∧
        s₁.register 0 = 5 ∧ ¬ ZeroRegister s₁ ∧
        system.run overwriteState [dataflowOrder, dataflowOrder] = some s₂ ∧
        s₂.register 1 = 10 := by
  refine ⟨⟨⟨true, 0, 0, rfl⟩, by decide, fun _ _ => rfl, fun k hk => ?_,
    fun h => (by cases h), rfl⟩, ?_⟩
  · have hlen : overwriteProgram.length = 2 := rfl
    have hnone : overwriteProgram[k]? = none := getElem?_eq_none (by omega)
    simp only [overwriteState, hnone]
    rfl
  · have hrun₁ : system.run overwriteState [dataflowOrder] =
        some (tick overwriteState) := by
      rw [EventSystem.run_cons, step_dataflowOrder]
      rfl
    have hrun₂ := system.run_snoc_eq_some_iff.mpr
      ⟨_, hrun₁, step_dataflowOrder (tick overwriteState)⟩
    exact ⟨_, _, hrun₁, by decide, fun h => absurd h.1 (by decide), hrun₂, by decide⟩

end OsCa.Cpu
