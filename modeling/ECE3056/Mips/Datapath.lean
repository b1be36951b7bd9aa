import Mathlib.Logic.Function.Basic

/-!
# The pipelined MIPS processor

The entities of the VHDL model, one definition each, and the processor they are
wired into by `spim_pipe.vhd`. Signals are two-valued. A state holds the values
that the pipeline registers, the program counter, the register file and the data
memory drive between two rising edges of the clock; everything combinational has
settled. The comparisons of register numbers with `X"000000"` are the numeric
ones that `-fexplicit` selects.
-/

namespace ECE3056.Mips

abbrev Word := BitVec 32
abbrev RegAddr := BitVec 5

/-! ## Instruction fields -/

def opcode (instruction : Word) : BitVec 6 := instruction.extractLsb' 26 6
def rs (instruction : Word) : RegAddr := instruction.extractLsb' 21 5
def rt (instruction : Word) : RegAddr := instruction.extractLsb' 16 5
def rd (instruction : Word) : RegAddr := instruction.extractLsb' 11 5
def immediate (instruction : Word) : BitVec 16 := instruction.extractLsb' 0 16

/-! ## Pipeline registers -/

/-- The outputs of `pipe_reg1`. -/
structure IfId where
  PC4 : Word := 0
  instruction : Word := 0

/-- The outputs of `pipe_reg2`. -/
structure IdEx where
  MemToReg : Bool := false
  RegWrite : Bool := false
  MemWrite : Bool := false
  MemRead : Bool := false
  branch : Bool := false
  ALUSrc : Bool := false
  RegDst : Bool := false
  ALUOp : BitVec 2 := 0
  PC4 : Word := 0
  register_rs : Word := 0
  register_rt : Word := 0
  sign_extend : Word := 0
  instruction : Word := 0
  wreg_rd : RegAddr := 0
  wreg_rt : RegAddr := 0
  wreg_rs : RegAddr := 0

/-- The outputs of `pipe_reg3`, less `mem_instruction`, which nothing reads. -/
structure ExMem where
  MemToReg : Bool := false
  RegWrite : Bool := false
  MemWrite : Bool := false
  MemRead : Bool := false
  branch : Bool := false
  zero : Bool := false
  alu_result : Word := 0
  register_rt : Word := 0
  branch_PC : Word := 0
  wreg_addr : RegAddr := 0

/-- The outputs of `pipe_reg4`. -/
structure MemWb where
  MemToReg : Bool := false
  RegWrite : Bool := false
  memory_data : Word := 0
  alu_result : Word := 0
  wreg_addr : RegAddr := 0

/-- The instructions that `iram(CONV_INTEGER(PC(4 downto 2)))` can fetch. -/
abbrev InstMem := BitVec 3 → Word
abbrev RegisterFile := RegAddr → Word
abbrev DataRam := BitVec 5 → Word

structure State where
  PC : Word
  if_id : IfId
  id_ex : IdEx
  ex_mem : ExMem
  mem_wb : MemWb
  register_array : RegisterFile
  dram : DataRam

/-! ## control -/

structure ControlSignals where
  RegDst : Bool
  MemRead : Bool
  MemToReg : Bool
  MemWrite : Bool
  ALUSrc : Bool
  RegWrite : Bool
  Branch : Bool
  ALUOp : BitVec 2

def control (opcode : BitVec 6) : ControlSignals :=
  let rformat := opcode == 0b000000#6
  let lw := opcode == 0b100011#6
  let sw := opcode == 0b101011#6
  let beq := opcode == 0b000100#6
  { RegDst := rformat
    MemRead := lw
    MemToReg := lw
    MemWrite := sw
    ALUSrc := lw || sw
    RegWrite := rformat || lw
    Branch := beq
    ALUOp := BitVec.ofBool rformat ++ BitVec.ofBool beq }

/-- `load_to_use` of `control`. -/
def loadToUse (instruction : Word) (ex_wreg_addr : RegAddr) : Bool :=
  rs instruction == ex_wreg_addr || rt instruction == ex_wreg_addr

/-- `pc_Stall` of `control`. -/
def pcStall (instruction ex_instruction : Word) (ex_wreg_addr : RegAddr) : Bool :=
  opcode instruction == 0b000000#6 && opcode ex_instruction == 0b100011#6 &&
    loadToUse instruction ex_wreg_addr

/-! ## decode -/

/-- `Sign_extend` of `decode`. -/
def signExtend (imm : BitVec 16) : Word :=
  if imm.getLsbD 15 = false then 0x0000#16 ++ imm else 0xFFFF#16 ++ imm

/-- `write_data` of `decode`. -/
def writeData (wb : MemWb) : Word := if wb.MemToReg then wb.memory_data else wb.alu_result

/-- `register_array` after the register write operation of `decode`. -/
def registerWrite (wb : MemWb) (register_array : RegisterFile) : RegisterFile :=
  if wb.RegWrite then Function.update register_array wb.wreg_addr (writeData wb)
  else register_array

/-! ## execute -/

/-- `ForwardA` and `ForwardB` of `execute`, for the operand register `wreg`. -/
def forward (mem : ExMem) (wb : MemWb) (wreg : RegAddr) : BitVec 2 :=
  if wb.RegWrite ∧ wb.wreg_addr ≠ 0 ∧
      ¬ (mem.RegWrite ∧ mem.wreg_addr ≠ 0 ∧ mem.wreg_addr = wreg) ∧ wb.wreg_addr = wreg then 0b01
  else if mem.RegWrite ∧ mem.wreg_addr ≠ 0 ∧ mem.wreg_addr = wreg then 0b10
  else 0b00

/-- An operand as the forwarding unit selects it. -/
def forwarded (mem : ExMem) (wb : MemWb) (wreg : RegAddr) (register : Word) : Word :=
  match forward mem wb wreg with
  | 0b00#2 => register
  | 0b01#2 => if wb.MemToReg then wb.memory_data else wb.alu_result
  | _ => mem.alu_result

def ainput (ex : IdEx) (mem : ExMem) (wb : MemWb) : Word :=
  forwarded mem wb ex.wreg_rs ex.register_rs

def binput (ex : IdEx) (mem : ExMem) (wb : MemWb) : Word :=
  if ex.ALUSrc then ex.sign_extend else forwarded mem wb ex.wreg_rt ex.register_rt

/-- `ALU_ctl` of `execute`, from the function field and `ALUOp`. -/
def aluCtl (function_opcode : BitVec 6) (ALUOp : BitVec 2) : BitVec 3 :=
  let f := function_opcode.getLsbD
  let op := ALUOp.getLsbD
  BitVec.ofBool (f 1 && op 1 || op 0) ++ BitVec.ofBool (!f 2 || !op 1) ++
    BitVec.ofBool ((f 0 || f 3) && op 1)

/-- `ALU_internal` of `execute`. -/
def alu (ALU_ctl : BitVec 3) (a b : Word) : Word :=
  match ALU_ctl with
  | 0b000#3 => a &&& b
  | 0b001#3 => a ||| b
  | 0b010#3 => a + b
  | 0b110#3 => a - b
  | 0b111#3 => a - b
  | _ => 0

/-- `ALU_result` of `execute`. -/
def aluResult (ex : IdEx) (mem : ExMem) (wb : MemWb) : Word :=
  alu (aluCtl (ex.sign_extend.extractLsb' 0 6) ex.ALUOp) (ainput ex mem wb) (binput ex mem wb)

/-- `wreg_address` of `execute`. -/
def wregAddress (ex : IdEx) : RegAddr := if ex.RegDst then ex.wreg_rd else ex.wreg_rt

/-! ## memory -/

/-- `read_data` of `memory`. -/
def readData (mem : ExMem) (dram : DataRam) : Word :=
  if mem.MemRead then dram (mem.alu_result.extractLsb' 2 5) else 0xFFFFFFFF

/-- `dram` after the memory write operation. -/
def memoryWrite (mem : ExMem) (dram : DataRam) : DataRam :=
  if mem.MemWrite then Function.update dram (mem.alu_result.extractLsb' 2 5) mem.register_rt
  else dram

/-! ## The processor -/

namespace State

/-- `pc_Stall` -/
def stall (s : State) : Bool :=
  pcStall s.if_id.instruction s.id_ex.instruction (wregAddress s.id_ex)

/-- `register_array`, with the write of the WB stage. -/
def registers (s : State) : RegisterFile := registerWrite s.mem_wb s.register_array

/-- `dram`, with the write of the MEM stage. -/
def data (s : State) : DataRam := memoryWrite s.ex_mem s.dram

/-- `Next_PC` of `fetch`. -/
def nextPC (s : State) : Word :=
  if s.stall then s.PC
  else if s.ex_mem.branch && s.ex_mem.zero then s.ex_mem.branch_PC else s.PC + 4

/-- What `pipe_reg1` takes over at the next edge. -/
def nextIfId (iram : InstMem) (s : State) : IfId :=
  if s.stall then s.if_id
  else { PC4 := s.PC + 4, instruction := iram (s.PC.extractLsb' 2 3) }

/-- What `pipe_reg2` takes over. -/
def nextIdEx (s : State) : IdEx :=
  if s.stall then {}
  else
    let instruction := s.if_id.instruction
    let c := control (opcode instruction)
    { MemToReg := c.MemToReg
      RegWrite := c.RegWrite
      MemWrite := c.MemWrite
      MemRead := c.MemRead
      branch := c.Branch
      ALUSrc := c.ALUSrc
      RegDst := c.RegDst
      ALUOp := c.ALUOp
      PC4 := s.if_id.PC4
      register_rs := s.registers (rs instruction)
      register_rt := s.registers (rt instruction)
      sign_extend := signExtend (immediate instruction)
      instruction := instruction
      wreg_rd := rd instruction
      wreg_rt := rt instruction
      wreg_rs := rs instruction }

/-- What `pipe_reg3` takes over. -/
def nextExMem (s : State) : ExMem :=
  let ex := s.id_ex
  { MemToReg := ex.MemToReg
    RegWrite := ex.RegWrite
    MemWrite := ex.MemWrite
    MemRead := ex.MemRead
    branch := ex.branch
    zero := aluResult ex s.ex_mem s.mem_wb == 0
    alu_result := aluResult ex s.ex_mem s.mem_wb
    register_rt := ex.register_rt
    branch_PC := ex.PC4 + (ex.sign_extend <<< 2)
    wreg_addr := wregAddress ex }

/-- What `pipe_reg4` takes over. -/
def nextMemWb (s : State) : MemWb :=
  { MemToReg := s.ex_mem.MemToReg
    RegWrite := s.ex_mem.RegWrite
    memory_data := readData s.ex_mem s.data
    alu_result := s.ex_mem.alu_result
    wreg_addr := s.ex_mem.wreg_addr }

/-- A rising edge of the clock with `reset = '0'`. -/
def clock (iram : InstMem) (s : State) : State where
  PC := s.nextPC
  if_id := s.nextIfId iram
  id_ex := s.nextIdEx
  ex_mem := s.nextExMem
  mem_wb := s.nextMemWb
  register_array := s.registers
  dram := s.data

/-- After a rising edge with `reset = '1'`. -/
def afterReset (register_array : RegisterFile) (dram : DataRam) : State where
  PC := 0
  if_id := {}
  id_ex := {}
  ex_mem := {}
  mem_wb := {}
  register_array := register_array
  dram := dram

/-- The register-file write that the WB stage makes to a register other than $zero. -/
def wbWrite (s : State) : Option (RegAddr × Word) :=
  if s.mem_wb.RegWrite ∧ s.mem_wb.wreg_addr ≠ 0 then
    some (s.mem_wb.wreg_addr, writeData s.mem_wb)
  else none

end State

/-- The state `n` cycles after the reset edge. -/
def cycles (iram : InstMem) (register_array : RegisterFile) (dram : DataRam) : Nat → State
  | 0 => .afterReset register_array dram
  | n + 1 => (cycles iram register_array dram n).clock iram

/-! ## Initial contents -/

namespace Initial

/-- The words of `iram` that `PC(4 downto 2)` reaches. -/
def iram : InstMem := fun a =>
  [0x01084020, 0x01284820, 0x01285020, 0x8C10000C, 0x8C110004, 0x02308820,
    0x00008020, 0x02008820].getD a.toNat 0

def register_array : RegisterFile := fun r =>
  [0x00000000, 0x14444444, 0x22222222, 0x33333333, 0x44444444, 0x55555555,
    0x66666666, 0x77777777, 0x00000001, 0x00000005, 0x2222222A, 0x3333333A,
    0x4444444A, 0x5555555A, 0x6666666A, 0x7777777A, 0x0000000B, 0x1111111B,
    0x2222222B, 0x3333333B, 0x4444444B, 0x5555555B, 0x6666666B, 0x7777777B,
    0x000000BA, 0x111111BA, 0x222222BA, 0x333333BA, 0x444444BA, 0x555555BA,
    0x666666BA, 0x777777BA].getD r.toNat 0

def dram : DataRam := fun a =>
  [0x00000000, 0x55555555, 0x22222222, 0x33333333, 0x44444444, 0x55555555,
    0x66666666, 0x77777777, 0x0000000A, 0x1111111A, 0x2222222A, 0x3333333A,
    0x00000011, 0x5555555A, 0x00000011, 0x7777777A, 0x0000000B, 0x1111111B,
    0x2222222B, 0x3333333B, 0x4444444B, 0x5555555B, 0x6666666B, 0x7777777B,
    0x000000BA, 0x111111BA, 0x222222BA, 0x333333BA, 0x444444BA, 0x555555BA,
    0x666666BA, 0x777777BA].getD a.toNat 0

end Initial

end ECE3056.Mips
