import ECE3056.Mips.Stages

/-!
# The machine that programs are written for

One instruction at a time, with stores and branches. The processor takes a branch
when the three instructions behind it have been fetched, and it cancels none of
them: a `beq` has three delay slots.
-/

namespace ECE3056.Mips

/-- The R-type instructions of the ALU, and `lw`, `sw` and `beq`. -/
inductive Instruction
  | rformat (op : AluOp) (rd rs rt : RegAddr)
  | lw (rt rs : RegAddr) (imm : BitVec 16)
  | sw (rt rs : RegAddr) (imm : BitVec 16)
  | beq (rs rt : RegAddr) (imm : BitVec 16)
  deriving DecidableEq, Repr

/-- What an instruction word means. -/
def decodeInstruction (w : Word) : Option Instruction :=
  if opcode w = 0x00#6 then
    (decodeAluOp (funct w)).map fun op => .rformat op (rd w) (rs w) (rt w)
  else if opcode w = 0x23#6 then some (.lw (rt w) (rs w) (immediate w))
  else if opcode w = 0x2B#6 then some (.sw (rt w) (rs w) (immediate w))
  else if opcode w = 0x04#6 then some (.beq (rs w) (rt w) (immediate w))
  else none

namespace Instruction

/-- The register that is written. -/
def dest : Instruction → Option RegAddr
  | rformat _ rd _ _ => some rd
  | lw rt _ _ => some rt
  | sw .. | beq .. => none

def isLoad : Instruction → Bool
  | lw .. => true
  | rformat .. | sw .. | beq .. => false

/-- The registers that the ALU needs; the word that `sw` stores is not among them. -/
def reads (r : RegAddr) : Instruction → Prop
  | rformat _ _ rs rt => r = rs ∨ r = rt
  | lw _ rs _ => r = rs
  | sw _ rs _ => r = rs
  | beq rs rt _ => r = rs ∨ r = rt

instance (r : RegAddr) : (i : Instruction) → Decidable (i.reads r)
  | rformat .. => inferInstanceAs (Decidable (_ ∨ _))
  | lw .. => inferInstanceAs (Decidable (_ = _))
  | sw .. => inferInstanceAs (Decidable (_ = _))
  | beq .. => inferInstanceAs (Decidable (_ ∨ _))

/-- The result of the ALU: an address for `lw` and `sw`, a difference for `beq`. -/
def result (registers : RegisterFile) : Instruction → Word
  | rformat op _ rs rt => op.eval (registers rs) (registers rt)
  | lw _ rs imm => registers rs + imm.signExtend 32
  | sw _ rs imm => registers rs + imm.signExtend 32
  | beq rs rt _ => registers rs - registers rt

/-- The register write. -/
def write (dram : DataRam) (registers : RegisterFile) (i : Instruction) :
    Option (RegAddr × Word) :=
  i.dest.map fun d =>
    (d, if i.isLoad then dram ((i.result registers).extractLsb' 2 5) else i.result registers)

/-- The memory write. -/
def store (registers : RegisterFile) : Instruction → Option (BitVec 5 × Word)
  | sw rt rs imm =>
    some (((sw rt rs imm).result registers).extractLsb' 2 5, registers rt)
  | rformat .. | lw .. | beq .. => none

/-- Where a branch at `PC` goes when it is taken. -/
def target (PC : Word) (registers : RegisterFile) : Instruction → Option Word
  | beq rs rt imm =>
    if (beq rs rt imm).result registers = 0 then some (PC + 4 + 4 * imm.signExtend 32) else none
  | rformat .. | lw .. | sw .. => none

end Instruction

/-- An R-type instruction that directly follows a `lw` whose destination it reads. -/
def interlocked : Instruction → Instruction → Bool
  | .lw d _ _, .rformat _ _ rs rt => rs == d || rt == d
  | _, _ => false

/-- The words of the instruction memory are these instructions. -/
def Decodes (iram : InstMem) (program : BitVec 3 → Instruction) : Prop :=
  ∀ a, decodeInstruction (iram a) = some (program a)

instance (iram : InstMem) (program : BitVec 3 → Instruction) : Decidable (Decodes iram program) :=
  inferInstanceAs (Decidable (∀ a, decodeInstruction (iram a) = some (program a)))

/-- A data memory after a store that may not be one. -/
def commitStore (dram : DataRam) : Option (BitVec 5 × Word) → DataRam
  | none => dram
  | some (a, v) => Function.update dram a v

/-- The state between two instructions. -/
structure Machine where
  PC : Word
  registers : RegisterFile
  dram : DataRam
  /-- the targets of the branches taken among the last three instructions, the latest first -/
  last : Option Word
  second : Option Word
  third : Option Word

namespace Machine

variable (program : BitVec 3 → Instruction)

def current (m : Machine) : Instruction := program (m.PC.extractLsb' 2 3)

def step (m : Machine) : Machine where
  PC := m.third.getD (m.PC + 4)
  registers := commit m.registers ((m.current program).write m.dram m.registers)
  dram := commitStore m.dram ((m.current program).store m.registers)
  last := (m.current program).target m.PC m.registers
  second := m.last
  third := m.second

variable (registers : RegisterFile) (dram : DataRam)

/-- The state after `k` instructions, from PC 0. -/
def after : Nat → Machine
  | 0 => ⟨0, registers, dram, none, none, none⟩
  | k + 1 => (after k).step program

/-- Instruction `k` of the execution, and what it does. -/
def instr (k : Nat) : Instruction := (after program registers dram k).current program

def write (k : Nat) : Option (RegAddr × Word) :=
  (instr program registers dram k).write (after program registers dram k).dram
    (after program registers dram k).registers

def store (k : Nat) : Option (BitVec 5 × Word) :=
  (instr program registers dram k).store (after program registers dram k).registers

def target (k : Nat) : Option Word :=
  (instr program registers dram k).target (after program registers dram k).PC
    (after program registers dram k).registers

/-- Instruction `k` waits for the load in front of it. -/
def waits : Nat → Bool
  | 0 => false
  | k + 1 => interlocked (instr program registers dram k) (instr program registers dram (k + 1))

/-- What the processor asks of a program: nothing writes $zero; directly behind a load, only R-type
instructions depend on it; the word of a `sw` was written three instructions before it or earlier,
a bubble counting for one; and of the two instructions behind a taken branch, the second does
not wait for the first. -/
structure Scheduled : Prop where
  dest_ne : ∀ k, (instr program registers dram k).dest ≠ some 0
  load_use : ∀ k d, (instr program registers dram k).isLoad = true →
    (instr program registers dram k).dest = some d →
    (instr program registers dram (k + 1)).reads d → waits program registers dram (k + 1) = true
  store_next : ∀ k rt rs imm, instr program registers dram (k + 1) = .sw rt rs imm →
    (instr program registers dram k).dest ≠ some rt
  store_second : ∀ k rt rs imm, instr program registers dram (k + 2) = .sw rt rs imm →
    (instr program registers dram k).dest = some rt → waits program registers dram (k + 1) = true
  branch : ∀ k, (target program registers dram k).isSome = true →
    waits program registers dram (k + 2) = false

variable {program registers dram}

theorem after_registers (k : Nat) : (after program registers dram (k + 1)).registers =
    commit (after program registers dram k).registers (write program registers dram k) := rfl

/-- A branch decides what comes after its three delay slots. -/
theorem after_PC (k : Nat) : (after program registers dram (k + 4)).PC =
    (target program registers dram k).getD ((after program registers dram (k + 3)).PC + 4) := rfl

/-- Nothing is written to $zero. -/
theorem registers_zero (hdest : ∀ k, (instr program registers dram k).dest ≠ some 0)
    (hzero : registers 0 = 0) (k : Nat) : (after program registers dram k).registers 0 = 0 := by
  induction k with
  | zero => exact hzero
  | succ k ih =>
    rw [after_registers, write, Instruction.write]
    cases hd : (instr program registers dram k).dest with
    | none => exact ih
    | some d =>
      have hne : (0 : RegAddr) ≠ d := fun h => hdest k (by rw [hd, h])
      exact (Function.update_of_ne hne ..).trans ih

/-- An instruction that waits is an R-type one behind a load. -/
theorem interlocked_cases {i j : Instruction} (h : interlocked i j = true) :
    i.isLoad = true ∧ ∃ op rd rs rt, j = .rformat op rd rs rt := by
  cases i with
  | lw =>
    cases j with
    | rformat op rd rs rt => exact ⟨rfl, op, rd, rs, rt, rfl⟩
    | lw | sw | beq => exact absurd h Bool.false_ne_true
  | rformat | sw | beq => exact absurd h Bool.false_ne_true

theorem target_load {i : Instruction} (h : i.isLoad = true) (PC : Word)
    (registers : RegisterFile) : i.target PC registers = none := by
  cases i with
  | lw => rfl
  | rformat | sw | beq => exact absurd h Bool.false_ne_true

theorem store_load {i : Instruction} (h : i.isLoad = true) (registers : RegisterFile) :
    i.store registers = none := by
  cases i with
  | lw => rfl
  | rformat | sw | beq => exact absurd h Bool.false_ne_true

/-- Behind the load that an instruction waits for, the fetch goes on in a line. -/
theorem target_waits {k : Nat} (h : waits program registers dram (k + 1) = true) :
    target program registers dram k = none := target_load (interlocked_cases h).1 ..

end Machine

/-! ## The words -/

theorem decodeInstruction_rformat {w : Word} {op : AluOp} {d a b : RegAddr}
    (h : decodeInstruction w = some (.rformat op d a b)) :
    opcode w = 0x00#6 ∧ decodeAluOp (funct w) = some op ∧ rd w = d ∧ rs w = a ∧ rt w = b := by
  rw [decodeInstruction] at h
  split at h
  · rename_i hop
    obtain ⟨op', hdec, hinstr⟩ := Option.map_eq_some_iff.mp h
    obtain ⟨rfl, hd, ha, hb⟩ := Instruction.rformat.inj hinstr
    exact ⟨hop, hdec, hd, ha, hb⟩
  · split at h
    · simp at h
    · split at h
      · simp at h
      · split at h <;> simp at h

/-- The opcode of an instruction, for `lw`, `sw` and `beq` with the other fields. -/
theorem decodeInstruction_fields {w : Word} {i : Instruction} (h : decodeInstruction w = some i) :
    match i with
    | .rformat .. => opcode w = 0x00#6
    | .lw d a imm => opcode w = 0x23#6 ∧ rt w = d ∧ rs w = a ∧ immediate w = imm
    | .sw b a imm => opcode w = 0x2B#6 ∧ rt w = b ∧ rs w = a ∧ immediate w = imm
    | .beq a b imm => opcode w = 0x04#6 ∧ rs w = a ∧ rt w = b ∧ immediate w = imm := by
  rw [decodeInstruction] at h
  split at h
  · rename_i hop
    obtain ⟨op, -, rfl⟩ := Option.map_eq_some_iff.mp h
    exact hop
  · split at h
    · rename_i hop
      obtain rfl := Option.some_inj.mp h
      exact ⟨hop, rfl, rfl, rfl⟩
    · split at h
      · rename_i hop
        obtain rfl := Option.some_inj.mp h
        exact ⟨hop, rfl, rfl, rfl⟩
      · split at h
        · rename_i hop
          obtain rfl := Option.some_inj.mp h
          exact ⟨hop, rfl, rfl, rfl⟩
        · simp at h

end ECE3056.Mips
