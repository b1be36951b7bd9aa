import ECE3056.Mips.Forwarding

/-!
# Stores, for every program

The word that a store writes is read from the register file while the store is
in ID and passed on beside the operands of the ALU. The forwarding unit has no
part in it: what the two instructions in front of the store write to `rt` does
not reach the data memory.
-/

namespace ECE3056.Mips

/-- The instruction in MEM writes the register that the instruction in EX names by `rt`. -/
def State.MemWritesRt (s : State) : Prop :=
  s.ex_mem.RegWrite = true ∧ s.ex_mem.wreg_addr = rt s.id_ex.instruction

/-- The instruction in WB writes the register that the instruction in EX names by `rt`. -/
def State.WbWritesRt (s : State) : Prop :=
  s.mem_wb.RegWrite = true ∧ s.mem_wb.wreg_addr = rt s.id_ex.instruction

/-- A store is in EX, and the last of the two instructions in front of it to write `rt` puts
another value there than the one that has been read for the store. -/
def State.StaleStore (s : State) : Prop :=
  opcode s.id_ex.instruction = 0x2B#6 ∧
    (s.MemWritesRt ∧ writeData s.nextMemWb ≠ s.id_ex.register_rt ∨
      ¬ s.MemWritesRt ∧ s.WbWritesRt ∧ writeData s.mem_wb ≠ s.id_ex.register_rt)

/-- A store in EX is in MEM after the edge, where it writes the value that all instructions before
it leave in `rt`. -/
def State.StoresRight (iram : InstMem) (s : State) : Prop :=
  opcode s.id_ex.instruction = 0x2B#6 →
    (s.clock iram).ex_mem.MemWrite = true ∧
      (s.clock iram).data ((s.clock iram).ex_mem.alu_result.extractLsb' 2 5) =
        s.settled (rt s.id_ex.instruction)

variable {s : State} {iram : InstMem} {registers : RegisterFile} {dram : DataRam}

/-! ## One store -/

/-- What a store writes is what was read in ID. -/
theorem clock_data_store (h : s.id_ex.Latched s.register_array)
    (hsw : opcode s.id_ex.instruction = 0x2B#6) :
    (s.clock iram).ex_mem.MemWrite = true ∧
      (s.clock iram).data ((s.clock iram).ex_mem.alu_result.extractLsb' 2 5) =
        s.id_ex.register_rt := by
  have hwrite : (s.clock iram).ex_mem.MemWrite = true := h.MemWrite_iff.mpr hsw
  refine ⟨hwrite, ?_⟩
  rw [State.data, memoryWrite, if_pos hwrite, Function.update_self]
  rfl

/-- The value of `rt` behind the two instructions in front differs from the one in the register
file only if the last of them to write the register changes it. -/
theorem settled_ne_iff {r : RegAddr} :
    s.settled r ≠ s.register_array r ↔
      (s.ex_mem.RegWrite = true ∧ s.ex_mem.wreg_addr = r) ∧
          writeData s.nextMemWb ≠ s.register_array r ∨
        ¬ (s.ex_mem.RegWrite = true ∧ s.ex_mem.wreg_addr = r) ∧
          (s.mem_wb.RegWrite = true ∧ s.mem_wb.wreg_addr = r) ∧
            writeData s.mem_wb ≠ s.register_array r := by
  rw [settled_apply]
  by_cases hmem : s.ex_mem.RegWrite = true ∧ s.ex_mem.wreg_addr = r
  · rw [if_pos hmem]
    constructor
    · intro hne
      exact .inl ⟨hmem, hne⟩
    · intro h
      rcases h with ⟨-, hne⟩ | ⟨hno, -⟩
      · exact hne
      · exact absurd hmem hno
  · rw [if_neg hmem]
    by_cases hwb : s.mem_wb.RegWrite = true ∧ s.mem_wb.wreg_addr = r
    · rw [if_pos hwb]
      constructor
      · intro hne
        exact .inr ⟨hmem, hwb, hne⟩
      · intro h
        rcases h with ⟨hyes, -⟩ | ⟨-, -, hne⟩
        · exact absurd hyes hmem
        · exact hne
    · rw [if_neg hwb]
      constructor
      · intro hne
        exact absurd rfl hne
      · intro h
        rcases h with ⟨hyes, -⟩ | ⟨-, hyes, -⟩
        · exact absurd hyes hmem
        · exact absurd hyes hwb

theorem storesRight_iff (h : s.id_ex.Latched s.register_array) :
    s.StoresRight iram ↔ ¬ s.StaleStore := by
  rcases ne_or_eq (opcode s.id_ex.instruction) 0x2B#6 with hsw | hsw
  · exact iff_of_true (fun h => absurd h hsw) fun hstale => hsw hstale.1
  have hread : s.id_ex.register_rt = s.register_array (rt s.id_ex.instruction) :=
    (h.decoded (IdEx.ne_zero_of_opcode (by rw [hsw]; decide))).register_rt
  obtain ⟨hwrite, hdata⟩ : (s.clock iram).ex_mem.MemWrite = true ∧ _ := clock_data_store h hsw
  have hstale : s.StaleStore ↔
      s.settled (rt s.id_ex.instruction) ≠ s.register_array (rt s.id_ex.instruction) := by
    rw [settled_ne_iff, State.StaleStore, hread]
    exact and_iff_right hsw
  rw [hstale, ne_eq, not_not]
  constructor
  · intro hright
    exact (hright hsw).2.symm.trans (hdata.trans hread)
  · intro hsettled _
    exact ⟨hwrite, hdata.trans (hread.trans hsettled.symm)⟩

/-! ## Every number of cycles -/

/-- The stores of a program write what the older instructions leave in their registers as long as
neither of the two instructions in front of a store changes the register it stores. -/
theorem stores_right_iff (iram : InstMem) (registers : RegisterFile) (dram : DataRam) (n : Nat) :
    (∀ m < n, (cycles iram registers dram m).StoresRight iram) ↔
      ∀ m < n, ¬ (cycles iram registers dram m).StaleStore := by
  have hstep : ∀ m, (cycles iram registers dram m).StoresRight iram ↔
      ¬ (cycles iram registers dram m).StaleStore :=
    fun m => storesRight_iff (cycles_latched iram registers dram m)
  constructor
  · intro hright m hm
    exact (hstep m).mp (hright m hm)
  · intro hstale m hm
    exact (hstep m).mpr (hstale m hm)

/-- `add $t0 $t0 $t0` and `sw $t0 0($0)`. The register then holds 2, and 1 is stored. -/
theorem store_stale :
    let iram := InstMem.ofList [0x01084020, 0xAC080000]
    let s := cycles iram Initial.register_array Initial.dram 3
    iram.Supported ∧ opcode s.id_ex.instruction = 0x2B#6 ∧ rt s.id_ex.instruction = 8 ∧
      s.settled 8 = 2 ∧ (s.clock iram).ex_mem.MemWrite = true ∧
      (s.clock iram).ex_mem.alu_result = 0 ∧ (s.clock iram).data 0 = 1 := by
  decide +kernel

end ECE3056.Mips
