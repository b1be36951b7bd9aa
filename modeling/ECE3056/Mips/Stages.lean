import ECE3056.Mips.Isa

/-!
# What each stage does with an instruction of the class

One lemma for each stage: the register write of WB, the forwarding unit, the ALU,
the decoder, and the stall signal.
-/

namespace ECE3056.Mips

/-! ## WB -/

/-- A register file after a write-back that may be a bubble's. -/
def commit (registers : RegisterFile) : Option (RegAddr × Word) → RegisterFile
  | none => registers
  | some (d, v) => Function.update registers d v

/-- What `pipe_reg4` holds: the register write of an instruction, or nothing. -/
def MemWb.Holds (wb : MemWb) : Option (RegAddr × Word) → Prop
  | none => wb.wreg_addr = 0 ∧ writeData wb = 0
  | some (d, v) => wb.RegWrite = true ∧ wb.wreg_addr = d ∧ d ≠ 0 ∧ writeData wb = v

theorem registerWrite_eq {wb : MemWb} {x : Option (RegAddr × Word)} (h : wb.Holds x)
    {registers : RegisterFile} (hzero : registers 0 = 0) :
    registerWrite wb registers = commit registers x := by
  cases x with
  | none =>
    rw [registerWrite, h.1, h.2]
    split
    · exact Function.update_eq_self_iff.mpr hzero.symm
    · rfl
  | some dv =>
    obtain ⟨hwrite, hd, -, hv⟩ := h
    rw [registerWrite, if_pos hwrite, hd, hv]
    rfl

theorem wbWrite_eq {s : State} {x : Option (RegAddr × Word)} (h : s.mem_wb.Holds x) :
    s.wbWrite = x := by
  cases x with
  | none => exact if_neg fun hw => hw.2 h.1
  | some dv =>
    obtain ⟨hwrite, hd, hne, hv⟩ := h
    rw [State.wbWrite, if_pos ⟨hwrite, hd ▸ hne⟩, hd, hv]

/-! ## EX -/

/-- The forwarding unit prefers the MEM stage to the WB stage, and both to the register file. -/
theorem forwarded_eq (mem : ExMem) (wb : MemWb) (wreg : RegAddr) (register : Word) :
    forwarded mem wb wreg register =
      if mem.RegWrite ∧ mem.wreg_addr ≠ 0 ∧ mem.wreg_addr = wreg then mem.alu_result
      else if wb.RegWrite ∧ wb.wreg_addr ≠ 0 ∧ wb.wreg_addr = wreg then writeData wb
      else register := by
  rw [forwarded, forward]
  by_cases hmem : mem.RegWrite ∧ mem.wreg_addr ≠ 0 ∧ mem.wreg_addr = wreg
  · rw [if_neg fun h => h.2.2.1 hmem, if_pos hmem, if_pos hmem]
    rfl
  · rw [if_neg hmem, if_neg hmem]
    by_cases hwb : wb.RegWrite ∧ wb.wreg_addr ≠ 0 ∧ wb.wreg_addr = wreg
    · rw [if_pos hwb, if_pos ⟨hwb.1, hwb.2.1, hmem, hwb.2.2⟩]
      rfl
    · rw [if_neg hwb, if_neg fun h => hwb ⟨h.1, h.2.1, h.2.2.2⟩]
      rfl

/-- What `pipe_reg3` holds: an instruction and the register file it reads. The value of a load
is still in the data memory. -/
def ExMem.Holds (mem : ExMem) : Option (Instr × RegisterFile) → Prop
  | none => mem.wreg_addr = 0 ∧ mem.alu_result = 0 ∧ mem.MemToReg = false
  | some (i, registers) =>
    mem.RegWrite = true ∧ mem.wreg_addr = i.dest ∧ i.dest ≠ 0 ∧ mem.MemToReg = i.isLoad ∧
      mem.MemRead = i.isLoad ∧ mem.alu_result = i.result registers

/-- The register write of an instruction in the MEM stage. -/
def writeOf (dram : DataRam) (p : Instr × RegisterFile) : RegAddr × Word :=
  (p.1.dest, p.1.value dram p.2)

theorem forwarded_wb {wb : MemWb} {y : Option (RegAddr × Word)} (h : wb.Holds y)
    (registers : RegisterFile) (r : RegAddr) :
    (if wb.RegWrite ∧ wb.wreg_addr ≠ 0 ∧ wb.wreg_addr = r then writeData wb else registers r) =
      commit registers y r := by
  cases y with
  | none => exact if_neg fun hw => hw.2.1 h.1
  | some dv =>
    obtain ⟨hwrite, hd, hne, hv⟩ := h
    rw [hwrite, hd, hv]
    by_cases hr : dv.1 = r
    · rw [if_pos ⟨rfl, hne, hr⟩, commit, ← hr, Function.update_self]
    · rw [if_neg fun hw => hr hw.2.2, commit, Function.update_of_ne (Ne.symm hr)]

/-- An operand is what the register file will hold when the two older instructions are done,
unless it is still being loaded. -/
theorem forwarded_commit {mem : ExMem} {wb : MemWb} {x : Option (Instr × RegisterFile)}
    {y : Option (RegAddr × Word)} {dram : DataRam} {registers : RegisterFile} {r : RegAddr}
    (hmem : mem.Holds x) (hwb : wb.Holds y)
    (hload : ∀ p, x = some p → p.1.isLoad = true → p.1.dest ≠ r) :
    forwarded mem wb r (registers r) =
      commit (commit registers y) (x.map (writeOf dram)) r := by
  rw [forwarded_eq, forwarded_wb hwb]
  cases x with
  | none => exact if_neg fun hw => hw.2.1 hmem.1
  | some p =>
    obtain ⟨hwrite, hd, hne, -, -, hv⟩ := hmem
    rw [hwrite, hd, hv]
    by_cases hr : p.1.dest = r
    · have hvalue : p.1.value dram p.2 = p.1.result p.2 :=
        if_neg fun hl => hload p rfl hl hr
      rw [if_pos ⟨rfl, hne, hr⟩, Option.map_some, writeOf, hvalue, commit, ← hr,
        Function.update_self]
    · rw [if_neg fun hw => hr hw.2.2, Option.map_some, writeOf, commit,
        Function.update_of_ne (Ne.symm hr)]

theorem alu_zero (ctl : BitVec 3) : alu ctl 0 0 = 0 := by
  revert ctl
  decide

theorem aluCtl_address (f : BitVec 6) : aluCtl f 0b00 = 0b010 := by
  revert f
  decide

/-- The control code that selects an operation. -/
def AluOp.ctl : AluOp → BitVec 3
  | add => 0b010
  | sub => 0b110
  | and => 0b000
  | or => 0b001

theorem aluCtl_rformat {f : BitVec 6} {op : AluOp} (h : decodeAluOp f = some op) :
    aluCtl f 0b10 = op.ctl := by
  cases op <;> revert f <;> decide

theorem alu_ctl (op : AluOp) (a b : Word) : alu op.ctl a b = op.eval a b := by
  cases op <;> rfl

/-- What `pipe_reg2` holds. -/
def IdEx.Holds (ex : IdEx) : Option Instr → Prop
  | none =>
    ex.instruction = 0 ∧ ex.ALUSrc = false ∧ ex.MemToReg = false ∧ ex.register_rs = 0 ∧
      ex.register_rt = 0 ∧ ex.wreg_rd = 0 ∧ ex.wreg_rt = 0 ∧ ex.wreg_rs = 0
  | some (.alu op d a b) =>
    opcode ex.instruction = 0x00#6 ∧ ex.RegWrite = true ∧ ex.MemToReg = false ∧
      ex.MemRead = false ∧ ex.ALUSrc = false ∧ ex.RegDst = true ∧ ex.ALUOp = 0b10 ∧
      decodeAluOp (ex.sign_extend.extractLsb' 0 6) = some op ∧
      ex.wreg_rd = d ∧ ex.wreg_rs = a ∧ ex.wreg_rt = b
  | some (.lw d imm) =>
    opcode ex.instruction = 0x23#6 ∧ ex.RegWrite = true ∧ ex.MemToReg = true ∧
      ex.MemRead = true ∧ ex.ALUSrc = true ∧ ex.RegDst = false ∧ ex.ALUOp = 0b00 ∧
      ex.sign_extend = imm.signExtend 32 ∧ ex.wreg_rt = d ∧ ex.wreg_rs = 0

theorem wregAddress_bubble {ex : IdEx} (h : ex.Holds none) : wregAddress ex = 0 := by
  obtain ⟨-, -, -, -, -, hrd, hrt, -⟩ := h
  rw [wregAddress, hrd, hrt, ite_self]

theorem wregAddress_eq {ex : IdEx} {i : Instr} (h : ex.Holds (some i)) :
    wregAddress ex = i.dest := by
  cases i with
  | alu op d a b =>
    obtain ⟨-, -, -, -, -, hdst, -, -, hrd, -⟩ := h
    rw [wregAddress, if_pos hdst, hrd]
    rfl
  | lw d imm =>
    obtain ⟨-, -, -, -, -, hdst, -, -, hrt, -⟩ := h
    rw [wregAddress, if_neg (by simp [hdst]), hrt]
    rfl

/-- A bubble computes 0. -/
theorem aluResult_bubble {ex : IdEx} (h : ex.Holds none) {mem : ExMem} {wb : MemWb} :
    aluResult ex mem wb = 0 := by
  obtain ⟨-, hsrc, -, hrs, hrt, -, hwrt, hwrs⟩ := h
  have hzero : forwarded mem wb 0 0 = 0 := by
    rw [forwarded_eq, if_neg fun hw => hw.2.1 hw.2.2, if_neg fun hw => hw.2.1 hw.2.2]
  rw [aluResult, ainput, binput, hsrc, if_neg Bool.false_ne_true, hrs, hrt, hwrt, hwrs, hzero,
    alu_zero]

/-- An instruction whose operands are forwarded right computes its result. -/
theorem aluResult_eq {ex : IdEx} {i : Instr} (h : ex.Holds (some i)) {mem : ExMem} {wb : MemWb}
    {registers : RegisterFile}
    (hrs : i.reads ex.wreg_rs →
      forwarded mem wb ex.wreg_rs ex.register_rs = registers ex.wreg_rs)
    (hrt : i.reads ex.wreg_rt →
      forwarded mem wb ex.wreg_rt ex.register_rt = registers ex.wreg_rt) :
    aluResult ex mem wb = i.result registers := by
  cases i with
  | alu op d a b =>
    obtain ⟨-, -, -, -, hsrc, -, hop, hfunct, -, hwrs, hwrt⟩ := h
    have ha : ainput ex mem wb = registers a := by
      rw [ainput, hrs (.inl hwrs), hwrs]
    have hb : binput ex mem wb = registers b := by
      rw [binput, hsrc, if_neg Bool.false_ne_true, hrt (.inr hwrt), hwrt]
    rw [aluResult, ha, hb, hop, aluCtl_rformat hfunct, alu_ctl]
    rfl
  | lw d imm =>
    obtain ⟨-, -, -, -, hsrc, -, hop, himm, -, hwrs⟩ := h
    have ha : ainput ex mem wb = registers 0 := by
      rw [ainput, hrs hwrs, hwrs]
    have hb : binput ex mem wb = imm.signExtend 32 := by
      rw [binput, if_pos hsrc, himm]
    rw [aluResult, ha, hb, hop, aluCtl_address]
    rfl

/-! ## One edge of the clock -/

theorem nextMemWb_holds {s : State} {dram : DataRam} {x : Option (Instr × RegisterFile)}
    (h : s.ex_mem.Holds x) (hdata : s.data = dram) :
    s.nextMemWb.Holds (x.map (writeOf dram)) := by
  cases x with
  | none =>
    obtain ⟨haddr, hres, hreg⟩ := h
    exact ⟨haddr, (if_neg (by simp [State.nextMemWb, hreg])).trans hres⟩
  | some p =>
    obtain ⟨hwrite, hd, hne, hreg, hread, hres⟩ := h
    refine ⟨hwrite, hd, hne, ?_⟩
    show writeData s.nextMemWb = p.1.value dram p.2
    have hmem : s.nextMemWb.memory_data = readData s.ex_mem dram := by rw [← hdata]; rfl
    rw [writeData, hmem, readData, Instr.value, ← hres]
    show (if s.ex_mem.MemToReg then _ else s.ex_mem.alu_result) = _
    rw [hreg, hread]
    split <;> rfl

theorem nextExMem_holds {s : State} {x : Option (Instr × RegisterFile)}
    (h : s.id_ex.Holds (x.map Prod.fst))
    (hdest : ∀ p, x = some p → p.1.dest ≠ 0)
    (hresult : ∀ p, x = some p → aluResult s.id_ex s.ex_mem s.mem_wb = p.1.result p.2) :
    s.nextExMem.Holds x := by
  cases x with
  | none =>
    have hmem : s.id_ex.MemToReg = false := h.2.2.1
    exact ⟨wregAddress_bubble h, aluResult_bubble h, hmem⟩
  | some p =>
    refine ⟨?_, wregAddress_eq h, hdest p rfl, ?_, ?_, hresult p rfl⟩
    all_goals obtain ⟨i, registers⟩ := p
    all_goals cases i
    all_goals first | exact h.2.1 | exact h.2.2.1 | exact h.2.2.2.1

theorem control_rformat : control 0x00#6 =
    { RegDst := true, MemRead := false, MemToReg := false, MemWrite := false, ALUSrc := false,
      RegWrite := true, Branch := false, ALUOp := 0b10 } := rfl

theorem control_lw : control 0x23#6 =
    { RegDst := false, MemRead := true, MemToReg := true, MemWrite := false, ALUSrc := true,
      RegWrite := true, Branch := false, ALUOp := 0b00 } := rfl

/-- The decoder fills `pipe_reg2` with the instruction in `pipe_reg1`. -/
theorem nextIdEx_holds {s : State} {i : Instr} (hs : s.stall = false)
    (h : decodeInstr s.if_id.instruction = some i) : s.nextIdEx.Holds (some i) := by
  rw [State.nextIdEx, hs, if_neg Bool.false_ne_true]
  cases i with
  | alu op d a b =>
    obtain ⟨hop, hfunct, hd, ha, hb⟩ := decodeInstr_alu h
    dsimp only
    rw [hop, control_rformat]
    refine ⟨hop, rfl, rfl, rfl, rfl, rfl, rfl, ?_, hd, ha, hb⟩
    rw [signExtend_funct, immediate_funct]
    exact hfunct
  | lw d imm =>
    obtain ⟨hop, ha, hd, himm⟩ := decodeInstr_lw h
    dsimp only
    rw [hop, control_lw]
    exact ⟨hop, rfl, rfl, rfl, rfl, rfl, rfl, himm ▸ signExtend_eq _, hd, ha⟩

/-- The word after the reset and the bubble of a stall do nothing. -/
theorem nextIdEx_bubble {s : State}
    (h : s.stall = true ∨ s.if_id.instruction = 0 ∧ s.registers 0 = 0) :
    s.nextIdEx.Holds none := by
  rw [State.nextIdEx]
  split
  · exact ⟨rfl, rfl, rfl, rfl, rfl, rfl, rfl, rfl⟩
  · rename_i hs
    obtain ⟨hi, hzero⟩ := h.resolve_left hs
    dsimp only
    rw [hi]
    exact ⟨rfl, rfl, rfl, hzero, hzero, rfl, rfl, rfl⟩

theorem nextIdEx_registers {s : State} (hs : s.stall = false) :
    s.nextIdEx.register_rs = s.registers s.nextIdEx.wreg_rs ∧
      s.nextIdEx.register_rt = s.registers s.nextIdEx.wreg_rt := by
  rw [State.nextIdEx, hs]
  exact ⟨rfl, rfl⟩

/-- The stall signal is the load-use hazard between the instructions in ID and EX. -/
theorem stall_eq {s : State} {i j : Instr} (hi : decodeInstr s.if_id.instruction = some i)
    (hj : s.id_ex.Holds (some j)) : s.stall = loadUse j i := by
  rw [State.stall, pcStall, loadToUse, wregAddress_eq hj]
  cases j with
  | alu op d a b =>
    rw [hj.1]
    simp [loadUse]
  | lw d imm =>
    rw [hj.1]
    cases i with
    | alu op d' a b =>
      obtain ⟨hop, -, -, ha, hb⟩ := decodeInstr_alu hi
      rw [hop, ha, hb]
      rfl
    | lw d' imm' =>
      rw [(decodeInstr_lw hi).1]
      rfl

theorem stall_bubble {s : State} (hj : s.id_ex.Holds none) : s.stall = false := by
  have hop : opcode s.id_ex.instruction = 0x00#6 := by rw [hj.1]; rfl
  rw [State.stall, pcStall, hop]
  simp

end ECE3056.Mips
