import ECE3056.Mips.Latched
import ECE3056.Mips.Stages

/-!
# Register $zero, for every program

The forwarding unit passes nothing on to an operand of register 0, so all such
operands come from the register file. The write port of the register file makes
no exception for register 0: it keeps its value as long as what is written there
is 0.
-/

namespace ECE3056.Mips

/-- WB writes a value other than 0 to register 0. -/
def State.WritesZero (s : State) : Prop :=
  s.mem_wb.RegWrite = true ∧ s.mem_wb.wreg_addr = 0 ∧ writeData s.mem_wb ≠ 0

instance (s : State) : Decidable s.WritesZero := inferInstanceAs (Decidable (_ ∧ _ ∧ _))

/-- Register 0 is 0, where the operands of the instruction in ID are read, and in what the
instruction in EX has read and is forwarded. -/
structure State.ReadsZero (s : State) : Prop where
  registers : s.registers 0 = 0
  register_rs : s.id_ex.wreg_rs = 0 → s.id_ex.register_rs = 0
  register_rt : s.id_ex.wreg_rt = 0 → s.id_ex.register_rt = 0
  ainput : s.id_ex.wreg_rs = 0 → ainput s.id_ex s.ex_mem s.mem_wb = 0
  binput : s.id_ex.wreg_rt = 0 → s.id_ex.ALUSrc = false → binput s.id_ex s.ex_mem s.mem_wb = 0

variable {s : State}

theorem forwarded_zero (mem : ExMem) (wb : MemWb) (register : Word) :
    forwarded mem wb 0 register = register := by
  rw [forwarded_eq, if_neg fun h => h.2.1 h.2.2, if_neg fun h => h.2.1 h.2.2]

theorem registers_zero_iff (hzero : s.register_array 0 = 0) :
    s.registers 0 = 0 ↔ ¬ s.WritesZero := by
  rw [State.registers, registerWrite]
  by_cases hwrite : s.mem_wb.RegWrite = true
  · rw [if_pos hwrite]
    by_cases haddr : s.mem_wb.wreg_addr = 0
    · rw [haddr, Function.update_self]
      constructor
      · intro hdata hw
        exact hw.2.2 hdata
      · intro hw
        by_contra hdata
        exact hw ⟨hwrite, haddr, hdata⟩
    · rw [Function.update_of_ne (Ne.symm haddr)]
      exact iff_of_true hzero fun hw => haddr hw.2.1
  · rw [if_neg hwrite]
    exact iff_of_true hzero fun hw => hwrite hw.1

/-- What has been read in ID goes to EX unchanged. -/
theorem readsZero (h : s.id_ex.Latched s.register_array) (hzero : s.register_array 0 = 0)
    (hregisters : s.registers 0 = 0) : s.ReadsZero := by
  have hrs : s.id_ex.wreg_rs = 0 → s.id_ex.register_rs = 0 := by
    intro hreg
    rcases h with h | h
    · rw [h]
    · rw [h.register_rs, ← h.wreg_rs, hreg, hzero]
  have hrt : s.id_ex.wreg_rt = 0 → s.id_ex.register_rt = 0 := by
    intro hreg
    rcases h with h | h
    · rw [h]
    · rw [h.register_rt, ← h.wreg_rt, hreg, hzero]
  refine ⟨hregisters, hrs, hrt, ?_, ?_⟩
  · intro hreg
    rw [Mips.ainput, hreg, forwarded_zero]
    exact hrs hreg
  · intro hreg hsrc
    rw [Mips.binput, hsrc, if_neg Bool.false_ne_true, hreg, forwarded_zero]
    exact hrt hreg

/-! ## Every number of cycles -/

section

variable {iram : InstMem} {registers : RegisterFile} {dram : DataRam}

/-- The register file holds 0 up to the first write of another value. -/
theorem cycles_register_array_zero (hzero : registers 0 = 0) (n : Nat)
    (hwrites : ∀ m < n, ¬ (cycles iram registers dram m).WritesZero) :
    (cycles iram registers dram n).register_array 0 = 0 := by
  induction n with
  | zero => exact hzero
  | succ n ih =>
    exact (registers_zero_iff (ih fun m hm => hwrites m (by omega))).mpr (hwrites n (by omega))

end

/-- Every read of register 0 yields 0 exactly as long as no instruction that names $zero as its
destination arrives in WB with a value other than 0. -/
theorem zero_register_reads_zero_iff (iram : InstMem) (registers : RegisterFile) (dram : DataRam)
    (hzero : registers 0 = 0) (n : Nat) :
    (∀ m ≤ n, (cycles iram registers dram m).ReadsZero) ↔
      ∀ m ≤ n, ¬ (cycles iram registers dram m).WritesZero := by
  constructor
  · intro hreads m hm hwrites
    have hdata := (hreads m hm).registers
    rw [State.registers, registerWrite, if_pos hwrites.1, hwrites.2.1,
      Function.update_self] at hdata
    exact hwrites.2.2 hdata
  · intro hwrites m hm
    have harray := cycles_register_array_zero hzero m fun k hk => hwrites k (by omega)
    exact readsZero (cycles_latched iram registers dram m) harray
      ((registers_zero_iff harray).mpr (hwrites m hm))

theorem zero_register_reads_zero_initial :
    (cycles Initial.iram Initial.register_array Initial.dram 30).ReadsZero :=
  (zero_register_reads_zero_iff Initial.iram Initial.register_array Initial.dram rfl 30).mpr
    (by decide +kernel) 30 (by decide)

/-- `add $0 $t0 $t1` leaves 6 in register 0, where the next instruction but two reads it. -/
theorem zero_register_overwritten :
    let iram := InstMem.ofList [0x01090020]
    let s := cycles iram Initial.register_array Initial.dram 4
    iram.Supported ∧ Initial.register_array 0 = 0 ∧ s.registers 0 = 6 ∧
      rs s.if_id.instruction = 0 ∧ (s.clock iram).register_array 0 = 6 ∧
      (s.clock iram).id_ex.register_rs = 6 := by
  decide +kernel

end ECE3056.Mips
