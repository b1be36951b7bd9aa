import ECE3056.Mips.Datapath

/-!
# The instruction set, one instruction at a time

The class of programs that the processor ships with, and a sequential interpreter
for it. Data memory is only read.
-/

namespace ECE3056.Mips

inductive AluOp
  | add
  | sub
  | and
  | or
  deriving DecidableEq, Repr

def AluOp.eval : AluOp → Word → Word → Word
  | add, a, b => a + b
  | sub, a, b => a - b
  | and, a, b => a &&& b
  | or, a, b => a ||| b

/-- `add`, `sub`, `and`, `or`, and `lw rt, imm($zero)`. -/
inductive Instr
  | alu (op : AluOp) (rd rs rt : RegAddr)
  | lw (rt : RegAddr) (imm : BitVec 16)
  deriving DecidableEq, Repr

def funct (instruction : Word) : BitVec 6 := instruction.extractLsb' 0 6

def decodeAluOp (funct : BitVec 6) : Option AluOp :=
  match funct with
  | 0x20#6 => some .add
  | 0x22#6 => some .sub
  | 0x24#6 => some .and
  | 0x25#6 => some .or
  | _ => none

/-- What an instruction word of the class means. -/
def decodeInstr (w : Word) : Option Instr :=
  if opcode w = 0x00#6 then (decodeAluOp (funct w)).map fun op => .alu op (rd w) (rs w) (rt w)
  else if opcode w = 0x23#6 ∧ rs w = 0 then some (.lw (rt w) (immediate w))
  else none

namespace Instr

def dest : Instr → RegAddr
  | alu _ rd _ _ => rd
  | lw rt _ => rt

def isLoad : Instr → Bool
  | alu .. => false
  | lw .. => true

/-- The result of the arithmetic, for a `lw` the address. -/
def result (registers : RegisterFile) : Instr → Word
  | alu op _ rs rt => op.eval (registers rs) (registers rt)
  | lw _ imm => registers 0 + imm.signExtend 32

/-- The value written to the destination. -/
def value (dram : DataRam) (registers : RegisterFile) (i : Instr) : Word :=
  if i.isLoad then dram ((i.result registers).extractLsb' 2 5) else i.result registers

/-- The registers that the result depends on. -/
def reads (r : RegAddr) : Instr → Prop
  | alu _ _ rs rt => r = rs ∨ r = rt
  | lw .. => r = 0

end Instr

/-- An R-type instruction that directly follows a `lw` whose destination it reads. -/
def loadUse : Instr → Instr → Bool
  | .lw rt _, .alu _ _ rs rt' => rs == rt || rt' == rt
  | _, _ => false

theorem loadUse_of_reads {p i : Instr} {r : RegAddr} (hload : p.isLoad = true) (hreads : i.reads r)
    (hp : p.dest ≠ 0) (hr : p.dest = r) : loadUse p i = true := by
  cases p with
  | alu => simp [Instr.isLoad] at hload
  | lw d imm =>
    cases i with
    | alu op d' a b =>
      change d = r at hr
      obtain h | h : r = a ∨ r = b := hreads <;> simp [loadUse, hr, h]
    | lw => exact absurd (hr.trans hreads) hp

/-- The words of the instruction memory are these instructions, none of which writes $zero. -/
structure Shipped (iram : InstMem) (program : BitVec 3 → Instr) : Prop where
  decode_eq : ∀ a, decodeInstr (iram a) = some (program a)
  dest_ne : ∀ a, (program a).dest ≠ 0

/-- The program in `iram`. -/
def Initial.program : BitVec 3 → Instr := fun a =>
  [.alu .add 8 8 8, .alu .add 9 9 8, .alu .add 10 9 8, .lw 16 12, .lw 17 4, .alu .add 17 17 16,
    .alu .add 16 0 0, .alu .add 17 16 0].getD a.toNat (.alu .add 0 0 0)

/-- The state of the interpreter. -/
structure Isa where
  PC : Word
  registers : RegisterFile

namespace Isa

variable (program : BitVec 3 → Instr) (dram : DataRam)

def current (m : Isa) : Instr := program (m.PC.extractLsb' 2 3)

def step (m : Isa) : Isa where
  PC := m.PC + 4
  registers := Function.update m.registers (m.current program).dest
    ((m.current program).value dram m.registers)

/-- The state after `k` instructions, from PC 0. -/
def after (registers : RegisterFile) : Nat → Isa
  | 0 => ⟨0, registers⟩
  | k + 1 => (after registers k).step program dram

/-- The instruction `k` of the execution. -/
def instr (registers : RegisterFile) (k : Nat) : Instr :=
  (after program dram registers k).current program

/-- The register write of instruction `k`. -/
def write (registers : RegisterFile) (k : Nat) : RegAddr × Word :=
  ((instr program dram registers k).dest,
    (instr program dram registers k).value dram (after program dram registers k).registers)

variable {program dram} {registers : RegisterFile}

theorem after_succ_registers (k : Nat) :
    (after program dram registers (k + 1)).registers =
      Function.update (after program dram registers k).registers
        (write program dram registers k).1 (write program dram registers k).2 := rfl

/-- Nothing is written to $zero. -/
theorem registers_zero (hdest : ∀ a, (program a).dest ≠ 0) (hzero : registers 0 = 0) (k : Nat) :
    (after program dram registers k).registers 0 = 0 := by
  induction k with
  | zero => exact hzero
  | succ k ih =>
    rw [after_succ_registers]
    exact (Function.update_of_ne (hdest _).symm _ _).trans ih

end Isa

/-! ## The words of the class -/

theorem getLsbD_append (high imm : BitVec 16) (j : Nat) :
    (high ++ imm : Word).getLsbD j = if j < 16 then imm.getLsbD j else high.getLsbD (j - 16) :=
  BitVec.getLsbD_append

theorem signExtend_eq (imm : BitVec 16) : signExtend imm = imm.signExtend 32 := by
  have hmsb : imm.msb = imm.getLsbD 15 := rfl
  have hones : ∀ j < 16, (0xFFFF#16).getLsbD j = true := by decide
  apply BitVec.eq_of_getLsbD_eq
  intro j hj
  rw [BitVec.getLsbD_signExtend, hmsb, signExtend]
  cases hsign : imm.getLsbD 15
  · rw [if_pos rfl, getLsbD_append]
    by_cases hlow : j < 16 <;> simp [hj, hlow]
  · rw [if_neg (by simp), getLsbD_append]
    by_cases hlow : j < 16
    · simp [hj, hlow]
    · simp [hj, hlow, hones (j - 16) (by omega)]

theorem signExtend_funct (imm : BitVec 16) :
    (signExtend imm).extractLsb' 0 6 = imm.extractLsb' 0 6 := by
  apply BitVec.eq_of_getLsbD_eq
  intro j hj
  rw [BitVec.getLsbD_extractLsb', BitVec.getLsbD_extractLsb', signExtend]
  split <;> rw [getLsbD_append, if_pos (by omega)]

theorem immediate_funct (w : Word) : (immediate w).extractLsb' 0 6 = funct w := by
  apply BitVec.eq_of_getLsbD_eq
  intro j hj
  simp [immediate, funct, hj]

theorem decodeInstr_alu {w : Word} {op : AluOp} {d a b : RegAddr}
    (h : decodeInstr w = some (.alu op d a b)) :
    opcode w = 0x00#6 ∧ decodeAluOp (funct w) = some op ∧ rd w = d ∧ rs w = a ∧ rt w = b := by
  rw [decodeInstr] at h
  split at h
  · rename_i hop
    obtain ⟨op', hdec, hinstr⟩ := Option.map_eq_some_iff.mp h
    obtain ⟨rfl, hd, ha, hb⟩ := Instr.alu.inj hinstr
    exact ⟨hop, hdec, hd, ha, hb⟩
  · split at h <;> simp at h

theorem decodeInstr_lw {w : Word} {d : RegAddr} {imm : BitVec 16}
    (h : decodeInstr w = some (.lw d imm)) :
    opcode w = 0x23#6 ∧ rs w = 0 ∧ rt w = d ∧ immediate w = imm := by
  rw [decodeInstr] at h
  split at h
  · obtain ⟨op, -, hinstr⟩ := Option.map_eq_some_iff.mp h
    simp at hinstr
  · split at h
    · rename_i hop
      obtain ⟨hd, himm⟩ := Instr.lw.inj (Option.some_inj.mp h)
      exact ⟨hop.1, hop.2, hd, himm⟩
    · simp at h

end ECE3056.Mips
