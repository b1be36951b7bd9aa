import ECE3056.Mips.Latched
import ECE3056.Mips.Stages

/-!
# Forwarding and the interlock, for every program

The operands of R-type instructions are those that the register file will hold
once the two older instructions have written back. That rests on the stall, which
is raised for R-type instructions only: any other instruction that directly
follows a load it depends on takes the load's address for its data.
-/

namespace ECE3056.Mips

/-- The register file once the instructions in WB and MEM have written back, a load its data. -/
def State.settled (s : State) : RegisterFile := registerWrite s.nextMemWb s.registers

/-- Where the instruction in MEM loads a register other than $zero, its address is selected into
neither operand. -/
def State.AddressUnused (s : State) : Prop :=
  s.ex_mem.MemToReg = true → s.ex_mem.wreg_addr ≠ 0 →
    forward s.ex_mem s.mem_wb s.id_ex.wreg_rs ≠ 0b10 ∧
      ¬ (s.id_ex.ALUSrc = false ∧ forward s.ex_mem s.mem_wb s.id_ex.wreg_rt = 0b10)

instance (s : State) : Decidable s.AddressUnused :=
  inferInstanceAs (Decidable (_ → _ → _ ∧ _))

/-- A load of a register other than $zero is in EX, and in ID is an instruction other than R-type
that reads the register: any by `rs`, those other than `lw` and `sw` by `rt`. -/
def State.LoadUsed (s : State) : Prop :=
  opcode s.id_ex.instruction = 0x23#6 ∧ rt s.id_ex.instruction ≠ 0 ∧
    opcode s.if_id.instruction ≠ 0x00#6 ∧
    (rs s.if_id.instruction = rt s.id_ex.instruction ∨
      (opcode s.if_id.instruction ≠ 0x23#6 ∧ opcode s.if_id.instruction ≠ 0x2B#6) ∧
        rt s.if_id.instruction = rt s.id_ex.instruction)

variable {s : State} {iram : InstMem} {registers : RegisterFile} {dram : DataRam}

/-! ## The forwarding unit -/

theorem forward_mem_iff {mem : ExMem} {wb : MemWb} {wreg : RegAddr} :
    forward mem wb wreg = 0b10 ↔
      mem.RegWrite = true ∧ mem.wreg_addr ≠ 0 ∧ mem.wreg_addr = wreg := by
  rw [forward]
  split
  · rename_i h
    exact iff_of_false (by decide) h.2.2.1
  · split
    · rename_i h
      exact iff_of_true rfl h
    · rename_i h
      exact iff_of_false (by decide) h

theorem settled_apply (s : State) (r : RegAddr) :
    s.settled r =
      if s.ex_mem.RegWrite = true ∧ s.ex_mem.wreg_addr = r then writeData s.nextMemWb
      else if s.mem_wb.RegWrite = true ∧ s.mem_wb.wreg_addr = r then writeData s.mem_wb
      else s.register_array r := by
  have hwrite : ∀ (wb : MemWb) (registers : RegisterFile), registerWrite wb registers r =
      if wb.RegWrite = true ∧ wb.wreg_addr = r then writeData wb else registers r := by
    intro wb registers
    rw [registerWrite]
    by_cases hw : wb.RegWrite = true
    · by_cases hr : wb.wreg_addr = r
      · rw [if_pos hw, if_pos ⟨hw, hr⟩, hr, Function.update_self]
      · rw [if_pos hw, if_neg fun h => hr h.2, Function.update_of_ne (Ne.symm hr)]
    · rw [if_neg hw, if_neg fun h => hw h.1]
  rw [State.settled, hwrite, State.registers, hwrite]
  rfl

/-- What the forwarding unit selects is right unless it is the address of a load. -/
theorem forwarded_settled {r : RegAddr} (hr : r ≠ 0)
    (hload : s.ex_mem.wreg_addr = r → s.ex_mem.MemToReg = false) :
    forwarded s.ex_mem s.mem_wb r (s.register_array r) = s.settled r := by
  rw [forwarded_eq, settled_apply]
  by_cases hmem : s.ex_mem.RegWrite = true ∧ s.ex_mem.wreg_addr = r
  · have hdata : writeData s.nextMemWb = s.ex_mem.alu_result :=
      if_neg (by rw [show s.nextMemWb.MemToReg = _ from hload hmem.2]; decide)
    rw [if_pos ⟨hmem.1, hmem.2 ▸ hr, hmem.2⟩, if_pos hmem, hdata]
  · rw [if_neg fun h => hmem ⟨h.1, h.2.2⟩, if_neg hmem]
    by_cases hwb : s.mem_wb.RegWrite = true ∧ s.mem_wb.wreg_addr = r
    · rw [if_pos ⟨hwb.1, hwb.2 ▸ hr, hwb.2⟩, if_pos hwb]
    · rw [if_neg fun h => hwb ⟨h.1, h.2.2⟩, if_neg hwb]

/-! ## The interlock -/

/-- An R-type instruction never stands directly behind a load that it depends on. -/
theorem clock_interlock (h : s.id_ex.Latched s.register_array)
    (hop : opcode (s.clock iram).id_ex.instruction = 0x00#6)
    (hne : (s.clock iram).id_ex.instruction ≠ 0) (hload : (s.clock iram).ex_mem.MemToReg = true) :
    (s.clock iram).ex_mem.wreg_addr ≠ rs (s.clock iram).id_ex.instruction ∧
      (s.clock iram).ex_mem.wreg_addr ≠ rt (s.clock iram).id_ex.instruction := by
  have hlw : opcode s.id_ex.instruction = 0x23#6 := h.MemToReg_iff.mp hload
  have hstall : s.stall = false := by
    by_contra hs
    rw [show (s.clock iram).id_ex = {} from nextIdEx_stall (eq_true_of_ne_false hs)] at hne
    exact hne rfl
  have hinstr : (s.clock iram).id_ex.instruction = s.if_id.instruction :=
    nextIdEx_instruction hstall
  rw [hinstr] at hop ⊢
  -- the stall signal has compared the numbers of the registers
  rw [State.stall, pcStall, hop, hlw, loadToUse] at hstall
  simpa [ne_comm, State.clock, State.nextExMem] using hstall

theorem cycles_interlock (n : Nat)
    (hop : opcode (cycles iram registers dram n).id_ex.instruction = 0x00#6)
    (hne : (cycles iram registers dram n).id_ex.instruction ≠ 0)
    (hload : (cycles iram registers dram n).ex_mem.MemToReg = true) :
    (cycles iram registers dram n).ex_mem.wreg_addr ≠
        rs (cycles iram registers dram n).id_ex.instruction ∧
      (cycles iram registers dram n).ex_mem.wreg_addr ≠
        rt (cycles iram registers dram n).id_ex.instruction := by
  cases n with
  | zero => exact absurd rfl hne
  | succ n => exact clock_interlock (cycles_latched iram registers dram n) hop hne hload

theorem ne_zero_of_field {w : Word} (h : rs w ≠ 0 ∨ rt w ≠ 0) : w ≠ 0 := by
  rintro rfl
  rcases h with h | h
  · exact h rfl
  · exact h rfl

/-- In every cycle of every program, the operands of an R-type instruction in EX are what its
registers will hold once the older instructions have written back. The result in MEM goes before
that in WB, and it is never a load's. -/
theorem rformat_operands_coherent (iram : InstMem) (registers : RegisterFile) (dram : DataRam)
    (n : Nat) :
    let s := cycles iram registers dram n
    opcode s.id_ex.instruction = 0x00#6 →
      (rs s.id_ex.instruction ≠ 0 →
        ainput s.id_ex s.ex_mem s.mem_wb = s.settled (rs s.id_ex.instruction) ∧
          (s.ex_mem.RegWrite = true → s.ex_mem.wreg_addr = rs s.id_ex.instruction →
            ainput s.id_ex s.ex_mem s.mem_wb = s.ex_mem.alu_result ∧ s.ex_mem.MemToReg = false)) ∧
      (rt s.id_ex.instruction ≠ 0 →
        binput s.id_ex s.ex_mem s.mem_wb = s.settled (rt s.id_ex.instruction) ∧
          (s.ex_mem.RegWrite = true → s.ex_mem.wreg_addr = rt s.id_ex.instruction →
            binput s.id_ex s.ex_mem s.mem_wb = s.ex_mem.alu_result ∧
              s.ex_mem.MemToReg = false)) := by
  intro s hop
  have hlatched : s.id_ex.Latched s.register_array := cycles_latched iram registers dram n
  have hnever : ∀ r, r = rs s.id_ex.instruction ∨ r = rt s.id_ex.instruction →
      s.id_ex.instruction ≠ 0 → s.ex_mem.wreg_addr = r → s.ex_mem.MemToReg = false := by
    intro r hr hne haddr
    by_contra hload
    obtain ⟨hrs, hrt⟩ := cycles_interlock n hop hne (eq_true_of_ne_false hload)
    rcases hr with hr | hr
    · exact hrs (haddr.trans hr)
    · exact hrt (haddr.trans hr)
  have hfirst : ∀ {r x}, r ≠ 0 → s.ex_mem.RegWrite = true → s.ex_mem.wreg_addr = r →
      forwarded s.ex_mem s.mem_wb r x = s.ex_mem.alu_result := by
    intro r x hr hwrite haddr
    rw [forwarded_eq, if_pos ⟨hwrite, haddr ▸ hr, haddr⟩]
  constructor
  · intro hrs
    have hne := ne_zero_of_field (.inl hrs)
    have hdec := hlatched.decoded hne
    rw [ainput, hdec.wreg_rs, hdec.register_rs]
    refine ⟨forwarded_settled hrs (hnever _ (.inl rfl) hne), ?_⟩
    intro hwrite haddr
    exact ⟨hfirst hrs hwrite haddr, hnever _ (.inl rfl) hne haddr⟩
  · intro hrt
    have hne := ne_zero_of_field (.inr hrt)
    have hdec := hlatched.decoded hne
    have hsrc : ¬ s.id_ex.ALUSrc = true := by
      rw [hlatched.ALUSrc_iff, hop]
      decide
    rw [binput, if_neg hsrc, hdec.wreg_rt, hdec.register_rt]
    refine ⟨forwarded_settled hrt (hnever _ (.inr rfl) hne), ?_⟩
    intro hwrite haddr
    exact ⟨hfirst hrt hwrite haddr, hnever _ (.inr rfl) hne haddr⟩

/-- `add $t1 $t1 $t0` takes `$t0` from the instruction in front of it. -/
theorem rformat_operands_coherent_initial :
    let s := cycles Initial.iram Initial.register_array Initial.dram 3
    binput s.id_ex s.ex_mem s.mem_wb = s.settled (rt s.id_ex.instruction) ∧
      binput s.id_ex s.ex_mem s.mem_wb = s.ex_mem.alu_result :=
  have h := (rformat_operands_coherent Initial.iram Initial.register_array Initial.dram 3
    (by decide +kernel)).2 (by decide +kernel)
  ⟨h.1, (h.2 (by decide +kernel) (by decide +kernel)).1⟩

/-! ## Loads whose address is taken for their data -/

/-- With a load in EX, what the instruction behind it selects is decided by its register numbers. -/
theorem clock_addressUnused_lw (h : s.id_ex.Latched s.register_array)
    (hlw : opcode s.id_ex.instruction = 0x23#6) (hrt : rt s.id_ex.instruction ≠ 0) :
    (s.clock iram).AddressUnused ↔
      s.nextIdEx.wreg_rs ≠ rt s.id_ex.instruction ∧
        ¬ (s.nextIdEx.ALUSrc = false ∧ s.nextIdEx.wreg_rt = rt s.id_ex.instruction) := by
  have hmem : s.nextExMem.MemToReg = true := h.MemToReg_iff.mpr hlw
  have haddr : s.nextExMem.wreg_addr = rt s.id_ex.instruction := h.wregAddress_lw hlw
  have hselect : ∀ wreg, forward s.nextExMem s.nextMemWb wreg = 0b10 ↔
      wreg = rt s.id_ex.instruction := by
    intro wreg
    rw [forward_mem_iff, haddr]
    constructor
    · intro hw
      exact hw.2.2.symm
    · intro hw
      exact ⟨h.RegWrite_lw hlw, hrt, hw.symm⟩
  show (s.nextExMem.MemToReg = true → s.nextExMem.wreg_addr ≠ 0 →
    forward s.nextExMem s.nextMemWb s.nextIdEx.wreg_rs ≠ 0b10 ∧
      ¬ (s.nextIdEx.ALUSrc = false ∧
        forward s.nextExMem s.nextMemWb s.nextIdEx.wreg_rt = 0b10)) ↔ _
  rw [ne_eq (forward _ _ _), hselect, hselect, haddr]
  constructor
  · intro hunused
    exact hunused hmem hrt
  · intro hne _ _
    exact hne

theorem clock_addressUnused_iff (h : s.id_ex.Latched s.register_array) :
    (s.clock iram).AddressUnused ↔ ¬ s.LoadUsed := by
  rcases ne_or_eq (opcode s.id_ex.instruction) 0x23#6 with hlw | hlw
  · refine iff_of_true ?_ fun hused => hlw hused.1
    intro hload
    exact absurd (h.MemToReg_iff.mp hload) hlw
  rcases eq_or_ne (rt s.id_ex.instruction) 0 with hrt | hrt
  · refine iff_of_true ?_ fun hused => hused.2.1 hrt
    intro _ haddr
    exact absurd ((h.wregAddress_lw hlw).trans hrt) haddr
  rw [clock_addressUnused_lw h hlw hrt]
  cases hs : s.stall with
  | true =>
    have hop : opcode s.if_id.instruction = 0x00#6 := by
      rw [State.stall, pcStall] at hs
      simpa using (Bool.and_eq_true_iff.mp (Bool.and_eq_true_iff.mp hs).1).1
    -- behind the load there is now a bubble
    rw [nextIdEx_stall hs]
    exact iff_of_true ⟨Ne.symm hrt, fun h => hrt h.2.symm⟩ fun hused => hused.2.2.1 hop
  | false =>
    have hdec := nextIdEx_decoded hs
    have hsrc := IdEx.Latched.ALUSrc_iff (.inr hdec)
    rw [nextIdEx_instruction hs] at hsrc
    rw [hdec.wreg_rs, hdec.wreg_rt, nextIdEx_instruction hs, ← Bool.not_eq_true, hsrc, not_or,
      ← not_or, not_iff_not]
    constructor
    · intro hread
      refine ⟨hlw, hrt, ?_, hread⟩
      intro hop
      -- an R-type instruction would have been stalled
      rw [State.stall, pcStall, hop, hlw, loadToUse, h.wregAddress_lw hlw] at hs
      have hne : rs s.if_id.instruction ≠ rt s.id_ex.instruction ∧
          rt s.if_id.instruction ≠ rt s.id_ex.instruction := by simpa using hs
      rcases hread with hread | hread
      · exact hne.1 hread
      · exact hne.2 hread.2
    · intro hused
      exact hused.2.2.2

/-- No load's address is selected into an operand as long as no instruction other than R-type is
decoded directly behind a load that it depends on, and not a cycle longer. -/
theorem load_address_unused_iff (iram : InstMem) (registers : RegisterFile) (dram : DataRam)
    (n : Nat) :
    (∀ m ≤ n, (cycles iram registers dram m).AddressUnused) ↔
      ∀ m < n, ¬ (cycles iram registers dram m).LoadUsed := by
  have hstep : ∀ m, (cycles iram registers dram (m + 1)).AddressUnused ↔
      ¬ (cycles iram registers dram m).LoadUsed :=
    fun m => clock_addressUnused_iff (cycles_latched iram registers dram m)
  constructor
  · intro hunused m hm
    exact (hstep m).mp (hunused (m + 1) hm)
  · intro hused m hm
    cases m with
    | zero =>
      intro hload
      exact absurd hload Bool.false_ne_true
    | succ m => exact (hstep m).mpr (hused m hm)

/-- `lw $1 0($0)` and `lw $2 0($1)`: in the third cycle the base register of the second load is
the address of the first one. -/
theorem load_address_used :
    let iram := InstMem.ofList [0x8C010000, 0x8C220000]
    let s := cycles iram Initial.register_array Initial.dram 3
    iram.Supported ∧ s.ex_mem.MemToReg = true ∧ s.ex_mem.wreg_addr = 1 ∧
      opcode s.id_ex.instruction = 0x23#6 ∧ rs s.id_ex.instruction = 1 ∧ ¬ s.AddressUnused := by
  decide +kernel

end ECE3056.Mips
