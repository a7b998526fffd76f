import OsCa.Support.EventSystem

/-!
# The single-cycle CPU

This module embeds the Verilog modules of `CAHomework4/codes`.  A module with
an `always @(*)` block whose cases are not exhaustive infers a latch: its
definition takes the value that the output held before and returns it in the
missing cases.

Between two clock edges the simulator evaluates such blocks in an order of its
own choice until no evaluation changes anything.  A cycle of the CPU therefore
takes the order as an argument and requires that it settles; the results hold
for every order.
-/

namespace OsCa.Cpu

abbrev Word := BitVec 32

/-! ## The modules -/

/-- The outputs of `Control`. -/
structure ControlOut where
  ALUOp : BitVec 2
  ALUSrc : BitVec 1
  RegWrite : BitVec 1
  deriving DecidableEq, Repr

def control (Op : BitVec 7) (held : ControlOut) : ControlOut :=
  if Op = 51 then { ALUOp := 0b10, ALUSrc := 0, RegWrite := 1 }
  else if Op = 19 then { ALUOp := 0b00, ALUSrc := 1, RegWrite := 1 }
  else held

def aluControl (funct : BitVec 10) (ALUOp : BitVec 2) (held : BitVec 3) : BitVec 3 :=
  if ALUOp = 0b10 then
    if funct = 0b0000000111 then 1
    else if funct = 0b0000000100 then 2
    else if funct = 0b0000000001 then 3
    else if funct = 0b0000000000 then 4
    else if funct = 0b0100000000 then 5
    else if funct = 0b0000001000 then 6
    else held
  else if ALUOp = 0 then
    if funct.extractLsb' 0 3 = 0b000 then 4
    else if funct.extractLsb' 0 3 = 0b101 then 7
    else held
  else held

/-- `ALU`.  The amount of the left shift is all of `data2`; the arithmetic
right shift uses its lowest five bits. -/
def alu (data1 data2 : Word) (ALUCtrl : BitVec 3) (held : Word) : Word :=
  if ALUCtrl = 1 then data1 &&& data2
  else if ALUCtrl = 2 then data1 ^^^ data2
  else if ALUCtrl = 3 then data1 <<< data2
  else if ALUCtrl = 4 then data1 + data2
  else if ALUCtrl = 5 then data1 - data2
  else if ALUCtrl = 6 then data1 * data2
  else if ALUCtrl = 7 then data1.sshiftRight (data2.extractLsb' 0 5).toNat
  else held

def mux32 (data1 data2 : Word) (select : BitVec 1) : Word := if select = 0 then data1 else data2

def signExtend (data : BitVec 12) : Word := if data.msb then (0xfffff : BitVec 20) ++ data
  else (0x00000 : BitVec 20) ++ data

def adder (data1 data2 : Word) : Word := data1 + data2

/-- The value `PC` takes at a clock edge. -/
def pcUpdate (rst start : Bool) (pc pcIn : Word) : Word := if rst = false then 0
  else if start then pcIn
  else pc

abbrev RegFile := BitVec 5 → Word

/-- The write port of `Registers`. -/
def registersWrite (register : RegFile) (RegWrite : BitVec 1)
    (RDaddr : BitVec 5) (RDdata : Word) : RegFile :=
  if RegWrite = 1 then Function.update register RDaddr RDdata else register

/-! ## The wiring -/

/-- The outputs of the `always @(*)` blocks. -/
structure Wires where
  ctl : ControlOut
  ALUCtrl : BitVec 3
  immediate : Word
  operand : Word
  result : Word
  deriving DecidableEq, Repr

/-- `memory` is the array of `Instruction_Memory`; the source has 256 entries,
and nothing is said about the others. -/
structure State where
  memory : ℕ → Word
  pc : Word
  register : RegFile
  wires : Wires

namespace State

def instr (s : State) : Word := s.memory (s.pc >>> 2).toNat

def RS1data (s : State) : Word := s.register (s.instr.extractLsb' 15 5)

def RS2data (s : State) : Word := s.register (s.instr.extractLsb' 20 5)

end State

/-- The blocks that the simulator evaluates between clock edges. -/
inductive Block where
  | control
  | aluControl
  | signExtend
  | mux
  | alu
  deriving DecidableEq, Repr

/-- Evaluate one block with the present values of its inputs. -/
def evalBlock (s : State) (w : Wires) : Block → Wires
  | .control => { w with ctl := control (s.instr.extractLsb' 0 7) w.ctl }
  | .aluControl =>
    { w with
      ALUCtrl := aluControl (s.instr.extractLsb' 25 7 ++ s.instr.extractLsb' 12 3)
          w.ctl.ALUOp w.ALUCtrl }
  | .signExtend =>
    { w with immediate := signExtend (s.instr.extractLsb' 20 12) }
  | .mux => { w with operand := mux32 s.RS2data w.immediate w.ctl.ALUSrc }
  | .alu => { w with result := alu s.RS1data w.operand w.ALUCtrl w.result }

/-- No block changes its output any more. -/
def Settled (s : State) (w : Wires) : Prop := ∀ b, evalBlock s w b = w

instance (s : State) (w : Wires) : Decidable (Settled s w) :=
  decidable_of_iff (evalBlock s w .control = w ∧ evalBlock s w .aluControl = w ∧
      evalBlock s w .signExtend = w ∧ evalBlock s w .mux = w ∧
      evalBlock s w .alu = w)
    ⟨fun h b => by cases b <;> simp [h], fun h => ⟨h _, h _, h _, h _, h _⟩⟩

/-- The rising edge of the clock, with `rst_i` and `start_i` high. -/
def clock (s : State) (w : Wires) : State :=
  { s with
    pc := pcUpdate true true s.pc (adder s.pc 4)
    register := registersWrite s.register w.ctl.RegWrite (s.instr.extractLsb' 7 5) w.result
    wires := w }

/-- One cycle, in which the blocks are evaluated in the given order. -/
def cycle (s : State) (order : List Block) : Option State :=
  let w := order.foldl (evalBlock s) s.wires
  if Settled s w then some (clock s w) else none

/-- The CPU after reset.  Registers and latches are arbitrary. -/
def system : EventSystem State (List Block) where
  init s := ∃ start pc pcIn, s.pc = pcUpdate false start pc pcIn
  step := cycle

/-! ## The instruction set -/

inductive Instr where
  | and (rd rs1 rs2 : BitVec 5)
  | xor (rd rs1 rs2 : BitVec 5)
  | sll (rd rs1 rs2 : BitVec 5)
  | add (rd rs1 rs2 : BitVec 5)
  | sub (rd rs1 rs2 : BitVec 5)
  | mul (rd rs1 rs2 : BitVec 5)
  | addi (rd rs1 : BitVec 5) (imm : BitVec 12)
  | srai (rd rs1 : BitVec 5) (shamt : BitVec 5)
  deriving DecidableEq, Repr

def encodeR (funct7 : BitVec 7) (rs2 rs1 : BitVec 5) (funct3 : BitVec 3) (rd : BitVec 5) : Word :=
  funct7 ++ rs2 ++ rs1 ++ funct3 ++ rd ++ (0b0110011 : BitVec 7)

def encodeI (imm : BitVec 12) (rs1 : BitVec 5) (funct3 : BitVec 3) (rd : BitVec 5) : Word :=
  imm ++ rs1 ++ funct3 ++ rd ++ (0b0010011 : BitVec 7)

namespace Instr

/-- The RISC-V encoding. -/
def encode : Instr → Word
  | .and rd rs1 rs2 => encodeR 0b0000000 rs2 rs1 0b111 rd
  | .xor rd rs1 rs2 => encodeR 0b0000000 rs2 rs1 0b100 rd
  | .sll rd rs1 rs2 => encodeR 0b0000000 rs2 rs1 0b001 rd
  | .add rd rs1 rs2 => encodeR 0b0000000 rs2 rs1 0b000 rd
  | .sub rd rs1 rs2 => encodeR 0b0100000 rs2 rs1 0b000 rd
  | .mul rd rs1 rs2 => encodeR 0b0000001 rs2 rs1 0b000 rd
  | .addi rd rs1 imm => encodeI imm rs1 0b000 rd
  | .srai rd rs1 shamt => encodeI ((0b0100000 : BitVec 7) ++ shamt) rs1 0b101 rd

def rd : Instr → BitVec 5
  | .and rd _ _ | .xor rd _ _ | .sll rd _ _ | .add rd _ _ | .sub rd _ _
  | .mul rd _ _ | .addi rd _ _ | .srai rd _ _ => rd

/-- The value an instruction computes in RV32IM. -/
def value (x : RegFile) : Instr → Word
  | .and _ rs1 rs2 => x rs1 &&& x rs2
  | .xor _ rs1 rs2 => x rs1 ^^^ x rs2
  | .sll _ rs1 rs2 => x rs1 <<< ((x rs2).toNat % 32)
  | .add _ rs1 rs2 => x rs1 + x rs2
  | .sub _ rs1 rs2 => x rs1 - x rs2
  | .mul _ rs1 rs2 => x rs1 * x rs2
  | .addi _ rs1 imm => x rs1 + imm.signExtend 32
  | .srai _ rs1 shamt => (x rs1).sshiftRight shamt.toNat

/-- The value the ALU computes: the amount of a left shift is not reduced. -/
def aluValue (x : RegFile) : Instr → Word
  | .sll _ rs1 rs2 => x rs1 <<< x rs2
  | i => i.value x

/-- Execution in RV32IM; writes to `x0` have no effect. -/
def exec (x : RegFile) (i : Instr) : RegFile :=
  if i.rd = 0 then x else Function.update x i.rd (i.value x)

end Instr

/-- The first `n` instructions of a program. -/
def interpret (program : List Instr) (x : RegFile) (n : ℕ) : RegFile :=
  (program.take n).foldl Instr.exec x

end OsCa.Cpu
