import ECE3056.Mips.Latched
import ECE3056.Mips.Machine

/-!
# What the pipeline registers carry

One lemma for each stage, for any instruction of the machine: what `pipe_reg2`,
`pipe_reg3` and `pipe_reg4` hold of it, and what WB and MEM then write.
-/

namespace ECE3056.Mips

/-- `pipe_reg2` holds this instruction, fetched from `PC`. -/
structure IdEx.Carries (ex : IdEx) (i : Instruction) (PC : Word) : Prop where
  decoded : ∃ registers, ex.Decoded registers
  decode_eq : decodeInstruction ex.instruction = some i
  PC4 : ex.PC4 = PC + 4

/-- `pipe_reg2` holds a bubble, or the word that it had after the reset. -/
structure IdEx.Empty (ex : IdEx) : Prop where
  holds : ex.Holds none
  MemWrite : ex.MemWrite = false
  branch : ex.branch = false

/-- The memory write that MEM makes of what `pipe_reg3` holds. -/
def ExMem.write (mem : ExMem) : Option (BitVec 5 × Word) :=
  if mem.MemWrite then some (mem.alu_result.extractLsb' 2 5, mem.register_rt) else none

/-- `pipe_reg3` holds this instruction, fetched from `PC` and executed with these registers. -/
structure ExMem.Carries (mem : ExMem) (i : Instruction) (PC : Word) (registers : RegisterFile) :
    Prop where
  RegWrite : mem.RegWrite = i.dest.isSome
  wreg_addr : ∀ d, i.dest = some d → mem.wreg_addr = d
  MemToReg : mem.MemToReg = i.isLoad
  MemRead : mem.MemRead = i.isLoad
  alu_result : mem.alu_result = i.result registers
  store : mem.write = i.store registers
  target : (if mem.branch && mem.zero then some mem.branch_PC else none) = i.target PC registers

/-- `pipe_reg3` holds a bubble. -/
structure ExMem.Empty (mem : ExMem) : Prop where
  wreg_addr : mem.wreg_addr = 0
  alu_result : mem.alu_result = 0
  MemToReg : mem.MemToReg = false
  MemWrite : mem.MemWrite = false
  branch : mem.branch = false

/-- `pipe_reg4` holds this register write, or one that changes nothing. -/
def MemWb.Carries (wb : MemWb) : Option (RegAddr × Word) → Prop
  | none => wb.RegWrite = false ∨ wb.wreg_addr = 0 ∧ writeData wb = 0
  | some (d, v) => wb.RegWrite = true ∧ wb.wreg_addr = d ∧ writeData wb = v

/-! ## Control signals -/

/-- The control signals of an instruction. -/
def Instruction.signals : Instruction → ControlSignals
  | rformat .. => control 0x00#6
  | lw .. => control 0x23#6
  | sw .. => control 0x2B#6
  | beq .. => control 0x04#6

theorem control_beq : control 0x04#6 =
    { RegDst := false, MemRead := false, MemToReg := false, MemWrite := false, ALUSrc := false,
      RegWrite := false, Branch := true, ALUOp := 0b01 } := rfl

namespace IdEx

variable {ex : IdEx} {i : Instruction} {PC : Word}

theorem Carries.signals (h : ex.Carries i PC) : ex.signals = i.signals := by
  obtain ⟨registers, hdec⟩ := h.decoded
  have hfields := decodeInstruction_fields h.decode_eq
  rw [hdec.signals]
  cases i with
  | rformat => exact congrArg control hfields
  | lw | sw | beq => exact congrArg control hfields.1

theorem Carries.wregAddress (h : ex.Carries i PC) {d : RegAddr} (hd : i.dest = some d) :
    Mips.wregAddress ex = d := by
  obtain ⟨registers, hdec⟩ := h.decoded
  have hdst : ex.RegDst = i.signals.RegDst := congrArg ControlSignals.RegDst h.signals
  rw [Mips.wregAddress, hdst]
  cases i with
  | rformat =>
    have hrd := (decodeInstruction_rformat h.decode_eq).2.2.1
    exact (if_pos rfl).trans ((hdec.wreg_rd.trans hrd).trans (Option.some_inj.mp hd))
  | lw =>
    have hrt := (decodeInstruction_fields h.decode_eq).2.1
    exact (if_neg Bool.false_ne_true).trans
      ((hdec.wreg_rt.trans hrt).trans (Option.some_inj.mp hd))
  | sw | beq => simp [Instruction.dest] at hd

end IdEx

theorem aluCtl_difference (f : BitVec 6) : aluCtl f 0b01 = 0b110 := by
  revert f
  decide

/-! ## EX -/

/-- An instruction whose operands are forwarded right computes its result. -/
theorem aluResult_carries {ex : IdEx} {i : Instruction} {PC : Word} (h : ex.Carries i PC)
    {mem : ExMem} {wb : MemWb} {registers : RegisterFile}
    (hrs : i.reads ex.wreg_rs →
      forwarded mem wb ex.wreg_rs ex.register_rs = registers ex.wreg_rs)
    (hrt : i.reads ex.wreg_rt →
      forwarded mem wb ex.wreg_rt ex.register_rt = registers ex.wreg_rt) :
    aluResult ex mem wb = i.result registers := by
  obtain ⟨held, hdec⟩ := h.decoded
  have hsrc : ex.ALUSrc = i.signals.ALUSrc := congrArg ControlSignals.ALUSrc h.signals
  have hop : ex.ALUOp = i.signals.ALUOp := congrArg ControlSignals.ALUOp h.signals
  rw [aluResult, ainput, binput, hsrc, hop]
  cases i with
  | rformat op d a b =>
    obtain ⟨-, hfunct, -, ha, hb⟩ := decodeInstruction_rformat h.decode_eq
    have hwa : ex.wreg_rs = a := hdec.wreg_rs.trans ha
    have hwb : ex.wreg_rt = b := hdec.wreg_rt.trans hb
    have hctl : aluCtl (ex.sign_extend.extractLsb' 0 6) 0b10 = op.ctl := by
      rw [hdec.sign_extend, signExtend_funct, immediate_funct]
      exact aluCtl_rformat hfunct
    rw [hrs (.inl hwa), hrt (.inr hwb), hwa, hwb]
    exact (congrArg (fun c => alu c _ _) hctl).trans (alu_ctl ..)
  | lw b a imm | sw b a imm =>
    obtain ⟨-, -, ha, himm⟩ := decodeInstruction_fields h.decode_eq
    have hwa : ex.wreg_rs = a := hdec.wreg_rs.trans ha
    have hext : ex.sign_extend = imm.signExtend 32 := by
      rw [hdec.sign_extend, himm]
      exact signExtend_eq imm
    rw [hrs hwa, hwa, hext]
    exact congrArg (fun c => alu c _ _) (aluCtl_address _)
  | beq a b imm =>
    obtain ⟨-, ha, hb, -⟩ := decodeInstruction_fields h.decode_eq
    have hwa : ex.wreg_rs = a := hdec.wreg_rs.trans ha
    have hwb : ex.wreg_rt = b := hdec.wreg_rt.trans hb
    rw [hrs (.inl hwa), hrt (.inr hwb), hwa, hwb]
    exact congrArg (fun c => alu c _ _) (aluCtl_difference _)

/-- The instruction goes on to MEM with its result, and the target of a branch. -/
theorem nextExMem_carries {s : State} {i : Instruction} {PC : Word} {registers : RegisterFile}
    (h : s.id_ex.Carries i PC)
    (hresult : aluResult s.id_ex s.ex_mem s.mem_wb = i.result registers)
    (hstore : ∀ rt rs imm, i = .sw rt rs imm → s.id_ex.register_rt = registers rt) :
    s.nextExMem.Carries i PC registers := by
  obtain ⟨held, hdec⟩ := h.decoded
  have hsig := h.signals
  have hMemWrite : s.nextExMem.MemWrite = i.signals.MemWrite :=
    congrArg ControlSignals.MemWrite hsig
  have hbranch : s.nextExMem.branch = i.signals.Branch := congrArg ControlSignals.Branch hsig
  refine ⟨?_, fun d hd => h.wregAddress hd, ?_, ?_, hresult, ?_, ?_⟩
  · refine (congrArg ControlSignals.RegWrite hsig).trans ?_
    cases i <;> rfl
  · refine (congrArg ControlSignals.MemToReg hsig).trans ?_
    cases i <;> rfl
  · refine (congrArg ControlSignals.MemRead hsig).trans ?_
    cases i <;> rfl
  · rw [ExMem.write, hMemWrite]
    cases i with
    | sw rt rs imm =>
      rw [show s.nextExMem.alu_result = _ from hresult,
        show s.nextExMem.register_rt = _ from hstore rt rs imm rfl]
      rfl
    | rformat | lw | beq => rfl
  · rw [hbranch, show s.nextExMem.zero = (aluResult s.id_ex s.ex_mem s.mem_wb == 0) from rfl,
      hresult]
    cases i with
    | beq rs rt imm =>
      have htarget : s.nextExMem.branch_PC = PC + 4 + 4 * imm.signExtend 32 := by
        show s.id_ex.PC4 + s.id_ex.sign_extend <<< 2 = _
        rw [h.PC4, hdec.sign_extend, (decodeInstruction_fields h.decode_eq).2.2.2, signExtend_eq,
          BitVec.shiftLeft_eq_mul_twoPow, BitVec.mul_comm]
        rfl
      rw [htarget, Instruction.target]
      simp [Instruction.signals, control_beq]
    | rformat | lw | sw => rfl

theorem memoryWrite_eq (mem : ExMem) (dram : DataRam) :
    memoryWrite mem dram = commitStore dram mem.write := by
  rw [memoryWrite, ExMem.write]
  split <;> rfl

theorem nextExMem_empty {s : State} (h : s.id_ex.Empty) : s.nextExMem.Empty :=
  ⟨wregAddress_bubble h.holds, aluResult_bubble h.holds, h.holds.2.2.1, h.MemWrite, h.branch⟩

/-! ## MEM and WB -/

/-- A load reads the data memory, the others take their result along. -/
theorem nextMemWb_carries {s : State} {i : Instruction} {PC : Word} {registers : RegisterFile}
    (h : s.ex_mem.Carries i PC registers) :
    s.nextMemWb.Carries (i.write s.dram registers) := by
  rw [Instruction.write]
  cases hd : i.dest with
  | none =>
    have hwrite := h.RegWrite
    rw [hd] at hwrite
    exact .inl hwrite
  | some d =>
    have hwrite := h.RegWrite
    rw [hd] at hwrite
    refine ⟨hwrite, h.wreg_addr d hd, ?_⟩
    show (if s.ex_mem.MemToReg then readData s.ex_mem s.data else s.ex_mem.alu_result) = _
    rw [h.MemToReg, h.alu_result]
    cases hload : i.isLoad with
    | false => rfl
    | true =>
      have hdata : s.data = s.dram := by
        rw [State.data, memoryWrite_eq, h.store, Machine.store_load hload]
        rfl
      rw [if_pos rfl, if_pos rfl, readData, h.MemRead, hload, if_pos rfl, hdata, h.alu_result]

theorem nextMemWb_empty {s : State} (h : s.ex_mem.Empty) : s.nextMemWb.Carries none := by
  refine .inr ⟨h.wreg_addr, ?_⟩
  show (if s.ex_mem.MemToReg then _ else s.ex_mem.alu_result) = _
  rw [h.MemToReg, if_neg Bool.false_ne_true, h.alu_result]

theorem registerWrite_carries {wb : MemWb} {x : Option (RegAddr × Word)} (h : wb.Carries x)
    {registers : RegisterFile} (hzero : registers 0 = 0) :
    registerWrite wb registers = commit registers x := by
  rw [registerWrite]
  cases x with
  | none =>
    rcases h with hwrite | ⟨haddr, hdata⟩
    · rw [if_neg (by rw [hwrite]; exact Bool.false_ne_true)]
      rfl
    · rw [haddr, hdata]
      split
      · exact Function.update_eq_self_iff.mpr hzero.symm
      · rfl
  | some dv =>
    obtain ⟨hwrite, hd, hv⟩ := h
    rw [if_pos hwrite, hd, hv]
    rfl

theorem wbWrite_carries {s : State} {x : Option (RegAddr × Word)} (h : s.mem_wb.Carries x)
    (hne : ∀ w, x = some w → w.1 ≠ 0) : s.wbWrite = x := by
  cases x with
  | none =>
    refine if_neg fun hw => ?_
    rcases h with hwrite | ⟨haddr, -⟩
    · exact Bool.false_ne_true (hwrite.symm.trans hw.1)
    · exact hw.2 haddr
  | some dv =>
    obtain ⟨hwrite, hd, hv⟩ := h
    rw [State.wbWrite, if_pos ⟨hwrite, hd ▸ hne dv rfl⟩, hd, hv]

/-! ## Forwarding -/

theorem forwarded_wb_carries {wb : MemWb} {y : Option (RegAddr × Word)} (h : wb.Carries y)
    (hne : ∀ w, y = some w → w.1 ≠ 0) (registers : RegisterFile) (r : RegAddr) :
    (if wb.RegWrite ∧ wb.wreg_addr ≠ 0 ∧ wb.wreg_addr = r then writeData wb else registers r) =
      commit registers y r := by
  cases y with
  | none =>
    refine if_neg fun hw => ?_
    rcases h with hwrite | ⟨haddr, -⟩
    · exact Bool.false_ne_true (hwrite.symm.trans hw.1)
    · exact hw.2.1 haddr
  | some dv =>
    obtain ⟨hwrite, hd, hv⟩ := h
    rw [hwrite, hd, hv]
    by_cases hr : dv.1 = r
    · rw [if_pos ⟨rfl, hne dv rfl, hr⟩, commit, ← hr, Function.update_self]
    · rw [if_neg fun hw => hr hw.2.2, commit, Function.update_of_ne (Ne.symm hr)]

/-- Behind an instruction in MEM, an operand is what the register file will hold when the two
older instructions are done, unless it is still being loaded. -/
theorem forwarded_carries {mem : ExMem} {wb : MemWb} {i : Instruction} {PC : Word}
    {held : RegisterFile} {y : Option (RegAddr × Word)} (hmem : mem.Carries i PC held)
    (hwb : wb.Carries y) (hi : i.dest ≠ some 0) (hne : ∀ w, y = some w → w.1 ≠ 0)
    {registers : RegisterFile} {r : RegAddr}
    (hload : i.isLoad = true → i.dest ≠ some r) (dram : DataRam) :
    forwarded mem wb r (registers r) =
      commit (commit registers y) (i.write dram held) r := by
  rw [forwarded_eq, forwarded_wb_carries hwb hne, hmem.RegWrite, hmem.alu_result,
    Instruction.write]
  cases hd : i.dest with
  | none => exact if_neg fun hw => Bool.false_ne_true hw.1
  | some d =>
    rw [hmem.wreg_addr d hd]
    by_cases hr : d = r
    · have hl : i.isLoad = false := by
        by_contra hl
        exact hload (eq_true_of_ne_false hl) (by rw [hd, hr])
      have hd0 : d ≠ 0 := fun h0 => hi (by rw [hd, h0])
      rw [if_pos ⟨rfl, hd0, hr⟩, hl, if_neg Bool.false_ne_true, Option.map_some, commit, hr,
        Function.update_self]
    · rw [if_neg fun hw => hr hw.2.2, Option.map_some, commit,
        Function.update_of_ne (Ne.symm hr)]

theorem forwarded_empty {mem : ExMem} {wb : MemWb} {y : Option (RegAddr × Word)}
    (hmem : mem.Empty) (hwb : wb.Carries y) (hne : ∀ w, y = some w → w.1 ≠ 0)
    (registers : RegisterFile) (r : RegAddr) :
    forwarded mem wb r (registers r) = commit registers y r := by
  rw [forwarded_eq, forwarded_wb_carries hwb hne]
  exact if_neg fun hw => hw.2.1 hmem.wreg_addr

/-! ## ID -/

/-- The decoder fills `pipe_reg2` with the instruction in `pipe_reg1`. -/
theorem nextIdEx_carries {s : State} {i : Instruction} {PC : Word} (hs : s.stall = false)
    (h : decodeInstruction s.if_id.instruction = some i) (hPC : s.if_id.PC4 = PC + 4) :
    s.nextIdEx.Carries i PC := by
  refine ⟨⟨s.registers, nextIdEx_decoded hs⟩, ?_, ?_⟩
  · rw [nextIdEx_instruction hs]
    exact h
  · rw [State.nextIdEx, hs, if_neg Bool.false_ne_true]
    exact hPC

theorem nextIdEx_empty {s : State}
    (h : s.stall = true ∨ s.if_id.instruction = 0 ∧ s.registers 0 = 0) : s.nextIdEx.Empty := by
  refine ⟨nextIdEx_bubble h, ?_, ?_⟩
  all_goals
    rw [State.nextIdEx]
    split
    · rfl
    · rename_i hs
      rw [(h.resolve_left hs).1]
      rfl

/-- The stall signal is the interlock between the instructions in ID and EX. -/
theorem stall_interlocked {s : State} {i j : Instruction} {PC : Word}
    (hi : decodeInstruction s.if_id.instruction = some i) (hj : s.id_ex.Carries j PC) :
    s.stall = interlocked j i := by
  have hfields := decodeInstruction_fields hj.decode_eq
  have hi' := decodeInstruction_fields hi
  rw [State.stall, pcStall]
  cases j with
  | lw d a imm =>
    rw [hfields.1, loadToUse, hj.wregAddress (d := d) rfl]
    cases i with
    | rformat op d' a' b' =>
      obtain ⟨hop, -, -, ha, hb⟩ := decodeInstruction_rformat hi
      rw [hop, ha, hb]
      rfl
    | lw | sw | beq =>
      rw [hi'.1]
      rfl
  | rformat =>
    rw [show opcode s.id_ex.instruction = _ from hfields]
    simp [interlocked]
  | sw | beq =>
    rw [hfields.1]
    simp [interlocked]

end ECE3056.Mips
