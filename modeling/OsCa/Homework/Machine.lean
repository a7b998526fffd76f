import Mathlib.Algebra.Group.Nat.Defs
import Mathlib.Algebra.Order.Group.Int

/-!
# A machine for the assembly programs

The instructions of RV32IM that the programs of the homework use, with the calls of the
simulator that they make.  The program counter is the number of the instruction, so the
instruction `k` has the address `4 * k`.  The memory is a function on the addresses of its
words, which the programs take four bytes apart.  `li`, `mv`, `j`, `jr` and `bgt` are written
as the instructions that they stand for.
-/

namespace OsCa.Assembly

open Function

abbrev Word := BitVec 32

inductive Reg where
  | zero | ra | sp | t0 | t1 | t2 | t3 | s0 | s1 | s2 | s3 | s4 | a0 | a1
  deriving DecidableEq

inductive Alu where
  | add | sub | mul | div

def Alu.eval : Alu → Word → Word → Word
  | .add, x, y => x + y
  | .sub, x, y => x - y
  | .mul, x, y => x * y
  | .div, x, y => if y = 0 then -1 else x.sdiv y

inductive Cond where
  | beq | bne | blt | bge

def Cond.eval : Cond → Word → Word → Bool
  | .beq, x, y => x == y
  | .bne, x, y => x != y
  | .blt, x, y => x.slt y
  | .bge, x, y => !x.slt y

inductive Instr where
  | addi (rd rs : Reg) (imm : Word)
  | alu (op : Alu) (rd rs₁ rs₂ : Reg)
  | lw (rd : Reg) (offset : Word) (base : Reg)
  | sw (rs : Reg) (offset : Word) (base : Reg)
  | branch (c : Cond) (rs₁ rs₂ : Reg) (label : ℕ)
  | jal (rd : Reg) (label : ℕ)
  | jalr (rd rs : Reg)
  | la (rd : Reg) (address : Word)
  | ecall

inductive Out where
  | int (value : ℤ)
  | string (text : String)
  deriving DecidableEq

structure Program where
  text : List Instr
  rodata : Word → String

structure State where
  regs : Reg → Word
  mem : Word → Word
  pc : ℕ
  input : List Word
  out : List Out
  exited : Bool

namespace State

def get (s : State) (r : Reg) : Word := if r = .zero then 0 else s.regs r

def put (s : State) (rd : Reg) (v : Word) : State :=
  { s with regs := update s.regs rd v, pc := s.pc + 1 }

def print (s : State) (o : Out) : State := { s with out := s.out ++ [o], pc := s.pc + 1 }

/-- `rd` gets the address of the next instruction. -/
def jump (s : State) (rd : Reg) (pc : ℕ) : State :=
  { s.put rd (BitVec.ofNat 32 (4 * (s.pc + 1))) with pc := pc }

/-- The call of the simulator with the number in `a0`. -/
def ecall (rodata : Word → String) (s : State) : Option State :=
  match s.get .a0 with
  | 1 => some (s.print (.int (s.get .a1).toInt))
  | 4 => some (s.print (.string (rodata (s.get .a1))))
  | 5 => s.input.head?.map fun v => { s.put .a0 v with input := s.input.tail }
  | 10 => some { s with exited := true }
  | _ => none

end State

def Instr.exec (rodata : Word → String) (s : State) : Instr → Option State
  | addi rd rs imm => some (s.put rd (s.get rs + imm))
  | alu op rd rs₁ rs₂ => some (s.put rd (op.eval (s.get rs₁) (s.get rs₂)))
  | lw rd offset base => some (s.put rd (s.mem (s.get base + offset)))
  | sw rs offset base =>
    some { s with mem := update s.mem (s.get base + offset) (s.get rs), pc := s.pc + 1 }
  | branch c rs₁ rs₂ label =>
    some { s with pc := if c.eval (s.get rs₁) (s.get rs₂) then label else s.pc + 1 }
  | jal rd label => some (s.jump rd label)
  | jalr rd rs => some (s.jump rd ((s.get rs).toNat / 4))
  | la rd address => some (s.put rd address)
  | ecall => s.ecall rodata

def step (p : Program) (s : State) : Option State :=
  if s.exited then none else p.text[s.pc]?.bind fun i => i.exec p.rodata s

def run (p : Program) : ℕ → State → Option State
  | 0, s => some s
  | n + 1, s => (step p s).bind (run p n)

/-- The program comes from `s` to `t`. -/
def Runs (p : Program) (s t : State) : Prop := ∃ n, run p n s = some t

theorem Runs.trans {p : Program} {s t u : State} (h : Runs p s t) (h' : Runs p t u) :
    Runs p s u := by
  obtain ⟨n, hn⟩ := h
  obtain ⟨k, hk⟩ := h'
  refine ⟨n + k, ?_⟩
  induction n generalizing s with
  | zero =>
    cases hn
    rwa [Nat.zero_add]
  | succ n ih =>
    obtain ⟨s₁, hstep, hrun⟩ := Option.bind_eq_some_iff.mp hn
    rw [Nat.succ_add, run, hstep]
    exact ih hrun

/-- The states before the instruction `pc`. -/
inductive At (pc : ℕ) : State → Prop
  | mk (regs : Reg → Word) (mem : Word → Word) (input : List Word) (out : List Out) :
    At pc ⟨regs, mem, pc, input, out, false⟩

/-- The program comes from `s` to the instruction `pc`, and prints nothing. -/
structure Goes (p : Program) (s t : State) (pc : ℕ) : Prop where
  runs : Runs p s t
  before : At pc t
  out : t.out = s.out

theorem Goes.trans {p : Program} {s t u : State} {k l : ℕ} (h : Goes p s t k)
    (h' : Goes p t u l) : Goes p s u l :=
  ⟨h.runs.trans h'.runs, h'.before, h'.out.trans h.out⟩

theorem At.branch {p : Program} {s : State} {k label : ℕ} {c : Cond} {r₁ r₂ : Reg} (h : At k s)
    (hi : p.text[k]? = some (.branch c r₁ r₂ label)) :
    ∃ t, Goes p s t (if c.eval (s.get r₁) (s.get r₂) then label else k + 1) ∧ t.regs = s.regs := by
  obtain ⟨regs, mem, input, out⟩ := h
  exact ⟨⟨regs, mem, _, input, out, false⟩,
    ⟨⟨1, by simp [run, step, hi, Instr.exec]⟩, .mk .., rfl⟩, rfl⟩

/-- What a call leaves: the value in `a0`, and the stack as it was. -/
structure Returns (p : Program) (s t : State) (v : Word) : Prop where
  goes : Goes p s t ((s.regs .ra).toNat / 4)
  value : t.regs .a0 = v
  sp : t.regs .sp = s.regs .sp
  mem : ∀ a, s.regs .sp ≤ a → t.mem a = s.mem a

/-- The words of a frame of `n` bytes are in it, and what is above the frame is not. -/
theorem frame (sp n : Word) (hsp : n ≤ sp) :
    (sp + -n).toNat + n.toNat = sp.toNat ∧ sp + -n + n = sp ∧
      ∀ k < n, sp + -n ≤ sp + -n + k ∧ ∀ a, sp ≤ a → a ≠ sp + -n + k ∧ sp + -n ≤ a := by
  refine ⟨?_, ?_, fun k hk => ⟨?_, fun a ha => ⟨?_, ?_⟩⟩⟩ <;> bv_omega

/-- The division of numbers that are not negative. -/
theorem toNat_sdiv {x y : Word} (hx : x.toNat < 2 ^ 31) (hy : y.toNat < 2 ^ 31) :
    (x.sdiv y).toNat = x.toNat / y.toNat := by
  have hmsb {z : Word} (hz : z.toNat < 2 ^ 31) : z.msb = false :=
    BitVec.msb_eq_false_iff_two_mul_lt.mpr (by omega)
  simp [BitVec.sdiv_eq, hmsb hx, hmsb hy]

theorem slt_eq {x y : Word} (hx : x.toNat < 2 ^ 31) (hy : y.toNat < 2 ^ 31) :
    x.slt y = decide (x.toNat < y.toNat) := by
  have hint {z : Word} (hz : z.toNat < 2 ^ 31) : z.toInt = z.toNat :=
    BitVec.toInt_eq_toNat_of_lt (by omega)
  simp [BitVec.slt, hint hx, hint hy]

end OsCa.Assembly
