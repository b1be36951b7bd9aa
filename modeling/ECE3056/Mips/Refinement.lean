import ECE3056.Library.Pipeline
import ECE3056.Mips.Stages

/-!
# The processor implements the instruction set

Each state of the processor is related to the slots of an in-order pipeline over
the instructions that the interpreter executes. The relation survives an edge of
the clock; the register writes are then those of the interpreter.
-/

namespace ECE3056.Mips

open Pipeline

variable (program : BitVec 3 → Instr) (dram : DataRam) (registers : RegisterFile)

/-- Instruction `k` of the execution reads a register that its predecessor loads. -/
def hazard : Nat → Bool
  | 0 => false
  | k + 1 => loadUse (Isa.instr program dram registers k) (Isa.instr program dram registers (k + 1))

/-- Instruction `k` with the register file it reads. -/
def issued (k : Nat) : Instr × RegisterFile :=
  (Isa.instr program dram registers k, (Isa.after program dram registers k).registers)

/-- Stores and branches are not in flight. -/
structure Quiet (s : State) : Prop where
  ex_memWrite : s.id_ex.MemWrite = false
  ex_branch : s.id_ex.branch = false
  mem_memWrite : s.ex_mem.MemWrite = false
  mem_branch : s.ex_mem.branch = false

/-- The state of the processor when the instructions are in these slots. -/
structure Simulates (iram : InstMem) (s : State) (p : Slots) : Prop where
  PC_eq : s.PC = (Isa.after program dram registers p.next).PC
  decode_eq : s.if_id.instruction = p.decode.elim 0 fun k =>
    iram ((Isa.after program dram registers k).PC.extractLsb' 2 3)
  execute_holds : s.id_ex.Holds (p.execute.map (Isa.instr program dram registers))
  execute_result : ∀ k, p.execute = some k → aluResult s.id_ex s.ex_mem s.mem_wb =
    (Isa.instr program dram registers k).result (Isa.after program dram registers k).registers
  memory_holds : s.ex_mem.Holds (p.memory.map (issued program dram registers))
  writeback_holds : s.mem_wb.Holds (p.writeback.map (Isa.write program dram registers))
  registers_eq : s.registers = (Isa.after program dram registers p.retired).registers
  dram_eq : s.dram = dram
  quiet : Quiet s

variable {program dram registers}

/-! ## The register file -/

theorem commit_memory {p : Slots} (ho : InOrder p) :
    commit (Isa.after program dram registers p.retired).registers
        (p.memory.map (Isa.write program dram registers)) =
      (Isa.after program dram registers (p.retired + p.memory.toList.length)).registers := by
  cases hm : p.memory with
  | none => rfl
  | some m =>
    rw [ho.retired_memory m hm]
    rfl

/-- The instruction in decode reads what the two in front of it have still to write. -/
theorem commit_execute {p : Slots} (ho : InOrder p) {k : Nat} (hd : p.decode = some k) :
    commit (Isa.after program dram registers (p.retired + p.memory.toList.length)).registers
        (p.execute.map (Isa.write program dram registers)) =
      (Isa.after program dram registers k).registers := by
  cases he : p.execute with
  | none =>
    rw [ho.decode_eq he hd]
    rfl
  | some e =>
    have hk : k = e + 1 := Option.some_inj.mp (hd.symm.trans (ho.execute_next e he))
    rw [ho.execute_eq he, hk]
    rfl

namespace Simulates

variable {iram : InstMem} {s : State} {p : Slots}

/-! ## One edge of the clock -/

theorem data_eq (h : Simulates program dram registers iram s p) : s.data = dram := by
  rw [State.data, memoryWrite, h.quiet.mem_memWrite, if_neg Bool.false_ne_true]
  exact h.dram_eq

theorem decodeInstr_eq (h : Simulates program dram registers iram s p)
    (hship : Shipped iram program) {k : Nat} (hd : p.decode = some k) :
    decodeInstr s.if_id.instruction = some (Isa.instr program dram registers k) := by
  rw [h.decode_eq, hd]
  exact hship.decode_eq _

theorem stall_eq_stalled (h : Simulates program dram registers iram s p) (ho : InOrder p)
    (hship : Shipped iram program) :
    s.stall = stalled (hazard program dram registers) p := by
  have hex := h.execute_holds
  cases he : p.execute with
  | none =>
    rw [he] at hex
    rw [stall_bubble hex, stalled, he]
    cases p.decode <;> rfl
  | some j =>
    have hd := ho.execute_next j he
    rw [he] at hex
    rw [stall_eq (h.decodeInstr_eq hship hd) hex, stalled, hd, he]
    rfl

theorem nextMemWb_holds (h : Simulates program dram registers iram s p) :
    s.nextMemWb.Holds (p.memory.map (Isa.write program dram registers)) := by
  have hwb := Mips.nextMemWb_holds h.memory_holds h.data_eq
  rw [Option.map_map] at hwb
  exact hwb

theorem nextExMem_holds (h : Simulates program dram registers iram s p)
    (hship : Shipped iram program) :
    s.nextExMem.Holds (p.execute.map (issued program dram registers)) := by
  apply Mips.nextExMem_holds
  · rw [Option.map_map]
    exact h.execute_holds
  · intro q hq
    obtain ⟨k, -, rfl⟩ := Option.map_eq_some_iff.mp hq
    exact hship.dest_ne _
  · intro q hq
    obtain ⟨k, hk, rfl⟩ := Option.map_eq_some_iff.mp hq
    exact h.execute_result k hk

theorem registers_zero (h : Simulates program dram registers iram s p)
    (hship : Shipped iram program) (hzero : registers 0 = 0) : s.registers 0 = 0 := by
  rw [h.registers_eq]
  exact Isa.registers_zero hship.dest_ne hzero _

/-- An operand fetched in ID is the right one when the instruction is in EX. -/
theorem operand_eq (h : Simulates program dram registers iram s p) (ho : InOrder p)
    (hship : Shipped iram program) {k : Nat} (hd : p.decode = some k)
    (hs : stalled (hazard program dram registers) p = false) {r : RegAddr}
    (hreads : (Isa.instr program dram registers k).reads r) :
    forwarded s.nextExMem s.nextMemWb r (s.registers r) =
      (Isa.after program dram registers k).registers r := by
  have hload : ∀ q, p.execute.map (issued program dram registers) = some q →
      q.1.isLoad = true → q.1.dest ≠ r := by
    intro q hq hl hr
    obtain ⟨e, he, rfl⟩ := Option.map_eq_some_iff.mp hq
    obtain rfl : k = e + 1 := Option.some_inj.mp (hd.symm.trans (ho.execute_next e he))
    have hhaz : hazard program dram registers (e + 1) = true :=
      loadUse_of_reads hl hreads (hship.dest_ne _) hr
    have hstall := stalled_iff.mpr ⟨e + 1, e, hd, he, hhaz⟩
    simp [hs] at hstall
  rw [forwarded_commit (h.nextExMem_holds hship) h.nextMemWb_holds hload, h.registers_eq,
    Option.map_map]
  exact (congrFun (congrArg (fun R => commit R _) (commit_memory ho)) r).trans
    (congrFun (commit_execute ho hd) r)

theorem quiet_clock (h : Simulates program dram registers iram s p)
    (hship : Shipped iram program) : Quiet (s.clock iram) := by
  have hop : opcode s.if_id.instruction = 0x00#6 ∨ opcode s.if_id.instruction = 0x23#6 := by
    cases hd : p.decode with
    | none =>
      have hw : s.if_id.instruction = 0 := by rw [h.decode_eq, hd]; rfl
      rw [hw]
      exact .inl rfl
    | some k =>
      have hdec := h.decodeInstr_eq hship hd
      cases hi : Isa.instr program dram registers k with
      | alu => exact .inl (decodeInstr_alu (hi ▸ hdec)).1
      | lw => exact .inr (decodeInstr_lw (hi ▸ hdec)).1
  have hid : s.nextIdEx.MemWrite = false ∧ s.nextIdEx.branch = false := by
    rw [State.nextIdEx]
    split
    · exact ⟨rfl, rfl⟩
    · dsimp only
      rcases hop with hop | hop <;> rw [hop] <;> exact ⟨rfl, rfl⟩
  exact ⟨hid.1, hid.2, h.quiet.ex_memWrite, h.quiet.ex_branch⟩

/-- The next register file, the same whether the pipeline stalls or not. -/
theorem registers_clock (h : Simulates program dram registers iram s p) (ho : InOrder p)
    (hship : Shipped iram program) (hzero : registers 0 = 0) :
    (s.clock iram).registers =
      (Isa.after program dram registers (p.retired + p.memory.toList.length)).registers := by
  have hwrite := registerWrite_eq h.nextMemWb_holds (h.registers_zero hship hzero)
  rw [h.registers_eq, commit_memory ho] at hwrite
  rw [← hwrite, ← h.registers_eq]
  rfl

theorem clock_stalled (h : Simulates program dram registers iram s p) (ho : InOrder p)
    (hship : Shipped iram program) (hzero : registers 0 = 0)
    (hs : stalled (hazard program dram registers) p = true) :
    Simulates program dram registers iram (s.clock iram)
      (step (hazard program dram registers) p) := by
  have hstall : s.stall = true := (h.stall_eq_stalled ho hship).trans hs
  rw [step, if_pos hs]
  constructor
  · show s.nextPC = _
    rw [State.nextPC, if_pos hstall]
    exact h.PC_eq
  · show (s.nextIfId iram).instruction = _
    rw [State.nextIfId, if_pos hstall]
    exact h.decode_eq
  · exact nextIdEx_bubble (.inl hstall)
  · intro k hk
    simp at hk
  · exact h.nextExMem_holds hship
  · exact h.nextMemWb_holds
  · exact h.registers_clock ho hship hzero
  · exact h.data_eq
  · exact h.quiet_clock hship

theorem clock_advance (h : Simulates program dram registers iram s p) (ho : InOrder p)
    (hship : Shipped iram program) (hzero : registers 0 = 0)
    (hs : stalled (hazard program dram registers) p = false) :
    Simulates program dram registers iram (s.clock iram)
      (step (hazard program dram registers) p) := by
  have hstall : s.stall = false := (h.stall_eq_stalled ho hship).trans hs
  have hidex : s.nextIdEx.Holds (p.decode.map (Isa.instr program dram registers)) := by
    cases hd : p.decode with
    | none =>
      have hw : s.if_id.instruction = 0 := by rw [h.decode_eq, hd]; rfl
      exact nextIdEx_bubble (.inr ⟨hw, h.registers_zero hship hzero⟩)
    | some k => exact Mips.nextIdEx_holds hstall (h.decodeInstr_eq hship hd)
  rw [step, if_neg (by simp [hs])]
  constructor
  · show s.nextPC = _
    rw [State.nextPC, hstall, h.quiet.mem_branch, h.PC_eq]
    rfl
  · show (s.nextIfId iram).instruction = _
    rw [State.nextIfId, hstall, h.PC_eq]
    rfl
  · exact hidex
  · intro k hk
    change p.decode = some k at hk
    show aluResult s.nextIdEx s.nextExMem s.nextMemWb = _
    rw [hk] at hidex
    have hregs := nextIdEx_registers hstall
    apply aluResult_eq hidex
    · intro hreads
      rw [hregs.1]
      exact h.operand_eq ho hship hk hs hreads
    · intro hreads
      rw [hregs.2]
      exact h.operand_eq ho hship hk hs hreads
  · exact h.nextExMem_holds hship
  · exact h.nextMemWb_holds
  · exact h.registers_clock ho hship hzero
  · exact h.data_eq
  · exact h.quiet_clock hship

theorem clock (h : Simulates program dram registers iram s p) (ho : InOrder p)
    (hship : Shipped iram program) (hzero : registers 0 = 0) :
    Simulates program dram registers iram (s.clock iram)
      (step (hazard program dram registers) p) := by
  cases hs : stalled (hazard program dram registers) p with
  | true => exact h.clock_stalled ho hship hzero hs
  | false => exact h.clock_advance ho hship hzero hs

end Simulates

/-! ## Every number of cycles -/

theorem simulates_reset (iram : InstMem) :
    Simulates program dram registers iram (.afterReset registers dram)
      ⟨0, none, none, none, none, 0⟩ := by
  constructor
  · rfl
  · rfl
  · exact ⟨rfl, rfl, rfl, rfl, rfl, rfl, rfl, rfl⟩
  · intro k hk
    simp at hk
  · exact ⟨rfl, rfl, rfl⟩
  · exact ⟨rfl, rfl⟩
  · rfl
  · rfl
  · exact ⟨rfl, rfl, rfl, rfl⟩

theorem simulates_cycles {iram : InstMem} (hship : Shipped iram program)
    (hzero : registers 0 = 0) (n : Nat) :
    Simulates program dram registers iram (cycles iram registers dram n)
      (slots (hazard program dram registers) n) := by
  induction n with
  | zero => exact simulates_reset iram
  | succ n ih => exact ih.clock (slots_inOrder _ n) hship hzero

/-- The writes of the WB stage up to any cycle are the first writes of the interpreter, and the
pipeline stalls for one cycle at each load-use hazard and at no other time. -/
theorem pipeline_refines_isa {iram : InstMem} (hship : Shipped iram program)
    (hzero : registers 0 = 0) (n : Nat) :
    (∃ k, (List.range (n + 1)).filterMap (fun t => (cycles iram registers dram t).wbWrite) =
        (List.range k).map (Isa.write program dram registers) ∧
      ∀ i, i < k ↔ retire (hazard program dram registers) i ≤ n) ∧
    (∀ w, (cycles iram registers dram n).wbWrite = some w ↔
      ∃ i, n = retire (hazard program dram registers) i ∧ w = Isa.write program dram registers i) ∧
    ((cycles iram registers dram n).stall = true ↔
      ∃ i, hazard program dram registers (i + 1) = true ∧
        n + 2 = retire (hazard program dram registers) i) := by
  have hsim : ∀ t, Simulates program dram registers iram (cycles iram registers dram t)
      (slots (hazard program dram registers) t) := simulates_cycles hship hzero
  have hwb : ∀ t, (cycles iram registers dram t).wbWrite =
      (slots (hazard program dram registers) t).writeback.map
        (Isa.write program dram registers) := fun t => wbWrite_eq (hsim t).writeback_holds
  refine ⟨⟨_, ?_, lt_retired_iff n⟩, ?_, ?_⟩
  · rw [← writeback_stream, List.map_filterMap]
    simp only [hwb]
  · intro w
    rw [hwb, Option.map_eq_some_iff]
    constructor
    · intro hw
      obtain ⟨i, hi, rfl⟩ := hw
      exact ⟨i, (writeback_iff n i).mp hi, rfl⟩
    · intro hw
      obtain ⟨i, hi, rfl⟩ := hw
      exact ⟨i, (writeback_iff n i).mpr hi, rfl⟩
  · rw [(hsim n).stall_eq_stalled (slots_inOrder _ n) hship]
    exact stalled_slots_iff n

theorem pipeline_refines_isa_initial :
    ∃ k, (List.range 31).filterMap
        (fun t => (cycles Initial.iram Initial.register_array Initial.dram t).wbWrite) =
      (List.range k).map (Isa.write Initial.program Initial.dram Initial.register_array) ∧
    ∀ i, i < k ↔
      retire (hazard Initial.program Initial.dram Initial.register_array) i ≤ 30 :=
  (pipeline_refines_isa (⟨by decide, by decide⟩ : Shipped Initial.iram Initial.program) rfl
    30).1

/-- The first bubble is in front of `add $s1 $s1 $s0`, in cycle 9. -/
example : (List.range 11).filterMap
    (fun t => (cycles Initial.iram Initial.register_array Initial.dram t).wbWrite) =
      [(8, 2), (9, 7), (10, 9), (16, 0x33333333), (17, 0x55555555), (17, 0x88888888)] := by
  decide +kernel

end ECE3056.Mips
