import ECE3056.Mips.Datapath

/-!
# What ID/EX holds, for every program

The words of the program are arbitrary. In every cycle `pipe_reg2` holds the
bubble of a stall or a decoded instruction, with the operands that the register
file held when it was read.
-/

namespace ECE3056.Mips

/-- An instruction memory that starts with these words. -/
def InstMem.ofList (words : List Word) : InstMem := fun a => words.getD a.toNat 0

/-- The program consists of R-type instructions, `lw`, `sw` and `beq`. -/
def InstMem.Supported (iram : InstMem) : Prop :=
  ∀ a, opcode (iram a) ∈ [0x00#6, 0x23#6, 0x2B#6, 0x04#6]

instance (iram : InstMem) : Decidable iram.Supported :=
  inferInstanceAs (Decidable (∀ a, opcode (iram a) ∈ [0x00#6, 0x23#6, 0x2B#6, 0x04#6]))

/-- The control signals of the instruction in EX. -/
def IdEx.signals (ex : IdEx) : ControlSignals where
  RegDst := ex.RegDst
  MemRead := ex.MemRead
  MemToReg := ex.MemToReg
  MemWrite := ex.MemWrite
  ALUSrc := ex.ALUSrc
  RegWrite := ex.RegWrite
  Branch := ex.branch
  ALUOp := ex.ALUOp

/-- The register holds a decoded instruction and what the register file held for it. -/
structure IdEx.Decoded (ex : IdEx) (registers : RegisterFile) : Prop where
  signals : ex.signals = control (opcode ex.instruction)
  wreg_rd : ex.wreg_rd = rd ex.instruction
  wreg_rt : ex.wreg_rt = rt ex.instruction
  wreg_rs : ex.wreg_rs = rs ex.instruction
  register_rs : ex.register_rs = registers (rs ex.instruction)
  register_rt : ex.register_rt = registers (rt ex.instruction)
  sign_extend : ex.sign_extend = signExtend (immediate ex.instruction)

/-- The register holds a bubble or a decoded instruction. -/
def IdEx.Latched (ex : IdEx) (registers : RegisterFile) : Prop :=
  ex = {} ∨ ex.Decoded registers

variable {ex : IdEx} {registers : RegisterFile} {s : State}

theorem nextIdEx_stall (h : s.stall = true) : s.nextIdEx = {} := if_pos h

theorem nextIdEx_decoded (h : s.stall = false) : s.nextIdEx.Decoded s.registers := by
  rw [State.nextIdEx, h, if_neg Bool.false_ne_true]
  exact ⟨rfl, rfl, rfl, rfl, rfl, rfl, rfl⟩

theorem nextIdEx_instruction (h : s.stall = false) :
    s.nextIdEx.instruction = s.if_id.instruction := by
  rw [State.nextIdEx, h, if_neg Bool.false_ne_true]

theorem nextIdEx_latched (s : State) : s.nextIdEx.Latched s.registers := by
  cases h : s.stall with
  | true => exact .inl (nextIdEx_stall h)
  | false => exact .inr (nextIdEx_decoded h)

/-- In every cycle of every program. -/
theorem cycles_latched (iram : InstMem) (registers : RegisterFile) (dram : DataRam) (n : Nat) :
    (cycles iram registers dram n).id_ex.Latched
      (cycles iram registers dram n).register_array := by
  cases n with
  | zero => exact .inl rfl
  | succ n => exact nextIdEx_latched (cycles iram registers dram n)

namespace IdEx

/-! ## Control signals -/

theorem Latched.MemToReg_iff (h : ex.Latched registers) :
    ex.MemToReg = true ↔ opcode ex.instruction = 0x23#6 := by
  rcases h with rfl | h
  · decide
  · rw [show ex.MemToReg = _ from congrArg ControlSignals.MemToReg h.signals]
    exact beq_iff_eq

theorem Latched.MemWrite_iff (h : ex.Latched registers) :
    ex.MemWrite = true ↔ opcode ex.instruction = 0x2B#6 := by
  rcases h with rfl | h
  · decide
  · rw [show ex.MemWrite = _ from congrArg ControlSignals.MemWrite h.signals]
    exact beq_iff_eq

theorem Latched.branch_iff (h : ex.Latched registers) :
    ex.branch = true ↔ opcode ex.instruction = 0x04#6 := by
  rcases h with rfl | h
  · decide
  · rw [show ex.branch = _ from congrArg ControlSignals.Branch h.signals]
    exact beq_iff_eq

theorem Latched.ALUSrc_iff (h : ex.Latched registers) :
    ex.ALUSrc = true ↔ opcode ex.instruction = 0x23#6 ∨ opcode ex.instruction = 0x2B#6 := by
  rcases h with rfl | h
  · decide
  · rw [show ex.ALUSrc = _ from congrArg ControlSignals.ALUSrc h.signals]
    show (_ || _) = true ↔ _
    rw [Bool.or_eq_true, beq_iff_eq, beq_iff_eq]

/-- An instruction other than the one a bubble shows has been decoded. -/
theorem Latched.decoded (h : ex.Latched registers) (hne : ex.instruction ≠ 0) :
    ex.Decoded registers := by
  rcases h with rfl | h
  · exact absurd rfl hne
  · exact h

theorem ne_zero_of_opcode {w : Word} (h : opcode w ≠ 0) : w ≠ 0 := by
  rintro rfl
  exact h rfl

/-- The destination of a load is its `rt`. -/
theorem Latched.wregAddress_lw (h : ex.Latched registers)
    (hop : opcode ex.instruction = 0x23#6) : wregAddress ex = rt ex.instruction := by
  have hdec := h.decoded (ne_zero_of_opcode (by rw [hop]; decide))
  have hdst : ex.RegDst = false := by
    rw [show ex.RegDst = _ from congrArg ControlSignals.RegDst hdec.signals, hop]
    rfl
  rw [wregAddress, hdst, if_neg Bool.false_ne_true, hdec.wreg_rt]

theorem Latched.RegWrite_lw (h : ex.Latched registers)
    (hop : opcode ex.instruction = 0x23#6) : ex.RegWrite = true := by
  have hdec := h.decoded (ne_zero_of_opcode (by rw [hop]; decide))
  rw [show ex.RegWrite = _ from congrArg ControlSignals.RegWrite hdec.signals, hop]
  rfl

end IdEx

end ECE3056.Mips
