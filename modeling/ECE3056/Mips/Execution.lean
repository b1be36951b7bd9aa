import ECE3056.Library.Pipeline
import ECE3056.Mips.Schedule
import ECE3056.Mips.Transfers

/-!
# The processor runs scheduled programs

Each state of the processor is related to the slots of an in-order pipeline over
the instructions that the machine executes. With stores and branches the relation
survives an edge of the clock when the program is scheduled for the processor.
-/

namespace ECE3056.Mips

open Pipeline

variable (program : BitVec 3 → Instruction) (registers : RegisterFile) (dram : DataRam)

/-- The state of the processor when the instructions are in these slots. -/
structure Executes (iram : InstMem) (s : State) (p : Slots) : Prop where
  PC_eq : s.PC = (Machine.after program registers dram p.next).PC
  decode_eq : s.if_id.instruction = p.decode.elim 0 fun k =>
    iram ((Machine.after program registers dram k).PC.extractLsb' 2 3)
  PC4_eq : ∀ k, p.decode = some k →
    s.if_id.PC4 = (Machine.after program registers dram k).PC + 4
  execute_empty : p.execute = none → s.id_ex.Empty
  execute : ∀ k, p.execute = some k → s.id_ex.Carries (Machine.instr program registers dram k)
    (Machine.after program registers dram k).PC
  execute_result : ∀ k, p.execute = some k → aluResult s.id_ex s.ex_mem s.mem_wb =
    (Machine.instr program registers dram k).result
      (Machine.after program registers dram k).registers
  execute_store : ∀ k, p.execute = some k → ∀ rt rs imm,
    Machine.instr program registers dram k = .sw rt rs imm →
    s.id_ex.register_rt = (Machine.after program registers dram k).registers rt
  memory_empty : p.memory = none → s.ex_mem.Empty
  memory : ∀ k, p.memory = some k → s.ex_mem.Carries (Machine.instr program registers dram k)
    (Machine.after program registers dram k).PC (Machine.after program registers dram k).registers
  writeback : s.mem_wb.Carries (p.writeback.bind (Machine.write program registers dram))
  registers_eq : s.registers = (Machine.after program registers dram p.retired).registers
  dram_eq : s.dram = (Machine.after program registers dram p.retired).dram

variable {program registers dram}

namespace Machine

theorem write_ne (hsched : Scheduled program registers dram) {k : Nat} {w : RegAddr × Word}
    (hw : write program registers dram k = some w) : w.1 ≠ 0 := by
  rw [write, Instruction.write] at hw
  obtain ⟨d, hd, rfl⟩ := Option.map_eq_some_iff.mp hw
  exact fun h0 => hsched.dest_ne k (by rw [hd, show d = 0 from h0])

theorem bind_write_ne (hsched : Scheduled program registers dram) {x : Option Nat}
    (w : RegAddr × Word) (hw : x.bind (write program registers dram) = some w) : w.1 ≠ 0 := by
  obtain ⟨k, -, hk⟩ := Option.bind_eq_some_iff.mp hw
  exact write_ne hsched hk

/-- The fetch goes on in a line unless there is a taken branch three instructions before. -/
theorem after_PC_succ {k : Nat}
    (h : ∀ j, j + 3 = k → target program registers dram j = none) :
    (after program registers dram (k + 1)).PC = (after program registers dram k).PC + 4 := by
  match k with
  | 0 | 1 | 2 => rfl
  | k + 3 =>
    rw [after_PC, h k rfl]
    rfl

/-- An instruction that does not write the register leaves it. -/
theorem after_registers_of_dest {k : Nat} {r : RegAddr}
    (h : (instr program registers dram k).dest ≠ some r) :
    (after program registers dram (k + 1)).registers r =
      (after program registers dram k).registers r := by
  rw [after_registers, write, Instruction.write]
  cases hd : (instr program registers dram k).dest with
  | none => rfl
  | some d =>
    have hne : r ≠ d := fun hr => h (by rw [hd, hr])
    exact Function.update_of_ne hne ..

/-- The writes of the two instructions in front of the one in decode. -/
theorem commit_pending {p : Slots} (ho : InOrder p) :
    commit (after program registers dram p.retired).registers
        (p.memory.bind (write program registers dram)) =
      (after program registers dram (p.retired + p.memory.toList.length)).registers := by
  cases hm : p.memory with
  | none => rfl
  | some m =>
    rw [ho.retired_memory m hm]
    rfl

end Machine

namespace Executes

open Machine

variable {iram : InstMem} {s : State} {p : Slots}

theorem decodeInstruction_eq (h : Executes program registers dram iram s p)
    (hdec : Decodes iram program) {k : Nat} (hd : p.decode = some k) :
    decodeInstruction s.if_id.instruction = some (instr program registers dram k) := by
  rw [h.decode_eq, hd]
  exact hdec _

theorem stall_eq_stalled (h : Executes program registers dram iram s p)
    (ho : Spaced (waits program registers dram) p) (hdec : Decodes iram program) :
    s.stall = stalled (waits program registers dram) p := by
  cases he : p.execute with
  | none =>
    rw [stall_bubble (h.execute_empty he).holds, stalled, he]
    cases p.decode <;> rfl
  | some j =>
    have hd := ho.execute_next j he
    rw [stall_interlocked (h.decodeInstruction_eq hdec hd) (h.execute j he), stalled, hd, he]
    rfl

theorem registers_zero (h : Executes program registers dram iram s p)
    (hsched : Scheduled program registers dram) (hzero : registers 0 = 0) :
    s.registers 0 = 0 := by
  rw [h.registers_eq]
  exact Machine.registers_zero hsched.dest_ne hzero _

/-! ## One edge of the clock -/

theorem nextMemWb_carries (h : Executes program registers dram iram s p)
    (ho : Spaced (waits program registers dram) p) :
    s.nextMemWb.Carries (p.memory.bind (write program registers dram)) := by
  cases hm : p.memory with
  | none => exact nextMemWb_empty (h.memory_empty hm)
  | some k =>
    have hwb := Mips.nextMemWb_carries (h.memory k hm)
    rw [h.dram_eq, ho.retired_memory k hm] at hwb
    exact hwb

theorem nextExMem_carries (h : Executes program registers dram iram s p) {k : Nat}
    (he : p.execute = some k) :
    s.nextExMem.Carries (instr program registers dram k) (after program registers dram k).PC
      (after program registers dram k).registers :=
  Mips.nextExMem_carries (h.execute k he) (h.execute_result k he) (h.execute_store k he)

/-- An operand fetched in ID is the right one when the instruction is in EX. -/
theorem operand_eq (h : Executes program registers dram iram s p)
    (ho : Spaced (waits program registers dram) p) (hsched : Scheduled program registers dram)
    {k : Nat} (hd : p.decode = some k) (hs : stalled (waits program registers dram) p = false)
    {r : RegAddr} (hreads : (instr program registers dram k).reads r) :
    forwarded s.nextExMem s.nextMemWb r (s.registers r) =
      (after program registers dram k).registers r := by
  have hmem : commit s.registers (p.memory.bind (write program registers dram)) =
      (after program registers dram (p.retired + p.memory.toList.length)).registers := by
    rw [h.registers_eq]
    exact commit_pending ho.toInOrder
  cases he : p.execute with
  | none =>
    rw [forwarded_empty (nextExMem_empty (h.execute_empty he)) (h.nextMemWb_carries ho)
      (bind_write_ne hsched), hmem, ho.decode_eq he hd]
  | some e =>
    obtain rfl : k = e + 1 := Option.some_inj.mp (hd.symm.trans (ho.execute_next e he))
    have hload : (instr program registers dram e).isLoad = true →
        (instr program registers dram e).dest ≠ some r := by
      intro hl hr
      have hwait := hsched.load_use e r hl hr hreads
      have hstall := stalled_iff.mpr ⟨e + 1, e, hd, he, hwait⟩
      simp [hs] at hstall
    rw [forwarded_carries (h.nextExMem_carries he) (h.nextMemWb_carries ho) (hsched.dest_ne e)
      (bind_write_ne hsched) hload (after program registers dram e).dram, hmem, ho.execute_eq he]
    rfl

/-- The word that `sw` has read in ID is the right one. -/
theorem store_eq (h : Executes program registers dram iram s p)
    (ho : Spaced (waits program registers dram) p) (hsched : Scheduled program registers dram)
    {k : Nat} (hd : p.decode = some k) {rt rs : RegAddr} {imm : BitVec 16}
    (hsw : instr program registers dram k = .sw rt rs imm) :
    s.registers rt = (after program registers dram k).registers rt := by
  have hnowait : ∀ j, k = j + 1 → waits program registers dram k = false := by
    intro j hj
    by_contra hwait
    rw [hj] at hwait hsw
    obtain ⟨-, op, a, b, c, hr⟩ := interlocked_cases (eq_true_of_ne_false hwait)
    simp [hsw] at hr
  rw [h.registers_eq]
  cases k with
  | zero =>
    have he : p.execute = none := by
      cases he : p.execute with
      | none => rfl
      | some e => simpa [hd] using ho.execute_next e he
    have hm : p.memory = none := by
      cases hm : p.memory with
      | none => rfl
      | some m => simpa [he, hd] using ho.memory_next m hm
    rw [ho.retired_decode 0 hm he hd]
  | succ e =>
    have he : p.execute = some e := by
      cases he : p.execute with
      | none => simpa [hnowait e rfl] using ho.memory_of_bubble e hd he
      | some e' =>
        rw [ho.execute_next e' he] at hd
        rw [Nat.succ.inj (Option.some_inj.mp hd)]
    rw [after_registers_of_dest (hsched.store_next e rt rs imm hsw)]
    cases hm : p.memory with
    | none => rw [ho.retired_execute e hm he]
    | some m =>
      obtain rfl : e = m + 1 := by
        rcases ho.memory_next m hm with hx | ⟨hx, -⟩
        · exact Option.some_inj.mp (he.symm.trans hx)
        · simp [he] at hx
      -- no bubble is between the two, so the one in MEM does not write the register either
      rw [ho.retired_memory m hm, after_registers_of_dest]
      intro hdest
      have hwait := hsched.store_second m rt rs imm hsw hdest
      rw [(ho.memory_of_execute m he).mp hm] at hwait
      exact Bool.false_ne_true hwait

/-- The branch in MEM is the one that decides what is fetched next. -/
theorem nextPC_eq (h : Executes program registers dram iram s p)
    (ho : Spaced (waits program registers dram) p) (hdec : Decodes iram program)
    (hsched : Scheduled program registers dram)
    (hs : stalled (waits program registers dram) p = false) :
    s.nextPC = (after program registers dram (p.next + 1)).PC := by
  have hstall : s.stall = false := (h.stall_eq_stalled ho hdec).trans hs
  have hline : ∀ {x : Option Word},
      (if s.ex_mem.branch && s.ex_mem.zero then some s.ex_mem.branch_PC else none) = x →
      s.nextPC = x.getD (s.PC + 4) := by
    intro x hx
    rw [State.nextPC, hstall, if_neg Bool.false_ne_true, ← hx]
    split <;> rfl
  have hempty : p.memory = none → s.nextPC = s.PC + 4 := by
    intro hm
    refine hline (x := none) ?_
    rw [(h.memory_empty hm).branch]
    rfl
  have hmem : ∀ m, p.memory = some m →
      s.nextPC = (target program registers dram m).getD (s.PC + 4) := fun m hm =>
    hline (h.memory m hm).target
  rw [h.PC_eq] at hempty hmem
  cases hd : p.decode with
  | none =>
    have hnext := ho.next_zero hd
    rw [hempty (ho.memory_none hd).2, hnext]
    rfl
  | some k =>
    have hnext : p.next = k + 1 := ho.decode_next k hd
    cases he : p.execute with
    | none =>
      cases k with
      | zero =>
        have hm : p.memory = none := by
          cases hm : p.memory with
          | none => rfl
          | some m => simpa [he, hd] using ho.memory_next m hm
        rw [hempty hm, hnext]
        rfl
      | succ j =>
        obtain ⟨hwait, hm⟩ := ho.memory_of_bubble j hd he
        rw [hmem j hm, target_waits hwait, hnext]
        refine (after_PC_succ ?_).symm
        intro i hi
        cases htaken : target program registers dram i with
        | none => rfl
        | some x =>
          have hno := hsched.branch i (by rw [htaken]; rfl)
          rw [show i + 2 = j + 1 by omega, hwait] at hno
          simp at hno
    | some e =>
      obtain rfl : k = e + 1 := Option.some_inj.mp (hd.symm.trans (ho.execute_next e he))
      cases hm : p.memory with
      | none =>
        rw [hempty hm, hnext]
        refine (after_PC_succ ?_).symm
        intro i hi
        obtain rfl : e = i + 1 := by omega
        apply target_waits
        by_contra hwait
        have hm' := (ho.memory_of_execute i he).mpr (eq_false_of_ne_true hwait)
        simp [hm] at hm'
      | some m =>
        obtain rfl : e = m + 1 := by
          rcases ho.memory_next m hm with hx | ⟨hx, -⟩
          · exact Option.some_inj.mp (he.symm.trans hx)
          · simp [he] at hx
        rw [hmem m hm, hnext, after_PC]

/-- The next data memory, the same whether the pipeline stalls or not. -/
theorem data_eq (h : Executes program registers dram iram s p)
    (ho : Spaced (waits program registers dram) p) :
    s.data = (after program registers dram (p.retired + p.memory.toList.length)).dram := by
  rw [State.data]
  cases hm : p.memory with
  | none =>
    rw [memoryWrite, (h.memory_empty hm).MemWrite, if_neg Bool.false_ne_true]
    exact h.dram_eq
  | some k =>
    rw [memoryWrite_eq, (h.memory k hm).store, h.dram_eq, ho.retired_memory k hm]
    rfl

/-- The next register file. -/
theorem registers_clock (h : Executes program registers dram iram s p)
    (ho : Spaced (waits program registers dram) p) (hsched : Scheduled program registers dram)
    (hzero : registers 0 = 0) :
    (s.clock iram).registers =
      (after program registers dram (p.retired + p.memory.toList.length)).registers := by
  have hwrite := registerWrite_carries (h.nextMemWb_carries ho) (h.registers_zero hsched hzero)
  rw [← commit_pending ho.toInOrder, ← h.registers_eq]
  exact hwrite

theorem clock_stalled (h : Executes program registers dram iram s p)
    (ho : Spaced (waits program registers dram) p) (hdec : Decodes iram program)
    (hsched : Scheduled program registers dram) (hzero : registers 0 = 0)
    (hs : stalled (waits program registers dram) p = true) :
    Executes program registers dram iram (s.clock iram)
      (Pipeline.step (waits program registers dram) p) := by
  have hstall : s.stall = true := (h.stall_eq_stalled ho hdec).trans hs
  have hif : s.nextIfId iram = s.if_id := if_pos hstall
  rw [Pipeline.step, if_pos hs]
  constructor
  · exact (if_pos hstall).trans h.PC_eq
  · exact (congrArg IfId.instruction hif).trans h.decode_eq
  · intro k hk
    exact (congrArg IfId.PC4 hif).trans (h.PC4_eq k hk)
  · intro _
    exact nextIdEx_empty (.inl hstall)
  · intro k hk
    simp at hk
  · intro k hk
    simp at hk
  · intro k hk
    simp at hk
  · intro hk
    exact nextExMem_empty (h.execute_empty hk)
  · intro k hk
    exact h.nextExMem_carries hk
  · exact h.nextMemWb_carries ho
  · exact h.registers_clock ho hsched hzero
  · exact h.data_eq ho

theorem clock_advance (h : Executes program registers dram iram s p)
    (ho : Spaced (waits program registers dram) p) (hdec : Decodes iram program)
    (hsched : Scheduled program registers dram) (hzero : registers 0 = 0)
    (hs : stalled (waits program registers dram) p = false) :
    Executes program registers dram iram (s.clock iram)
      (Pipeline.step (waits program registers dram) p) := by
  have hstall : s.stall = false := (h.stall_eq_stalled ho hdec).trans hs
  have hif : s.nextIfId iram = { PC4 := s.PC + 4, instruction := iram (s.PC.extractLsb' 2 3) } :=
    if_neg (by rw [hstall]; exact Bool.false_ne_true)
  have hcarries : ∀ k, p.decode = some k → s.nextIdEx.Carries
      (instr program registers dram k) (after program registers dram k).PC := fun k hk =>
    nextIdEx_carries hstall (h.decodeInstruction_eq hdec hk) (h.PC4_eq k hk)
  have hdecoded := nextIdEx_decoded hstall
  rw [Pipeline.step, if_neg (by rw [hs]; exact Bool.false_ne_true)]
  constructor
  · exact h.nextPC_eq ho hdec hsched hs
  · show (s.nextIfId iram).instruction = iram _
    rw [hif, h.PC_eq]
  · intro k hk
    obtain rfl := Option.some_inj.mp hk
    show (s.nextIfId iram).PC4 = _
    rw [hif, h.PC_eq]
  · intro hk
    refine nextIdEx_empty (.inr ⟨?_, h.registers_zero hsched hzero⟩)
    rw [h.decode_eq, show p.decode = none from hk]
    rfl
  · exact hcarries
  · intro k hk
    have hoperand : ∀ r, (instr program registers dram k).reads r →
        forwarded s.nextExMem s.nextMemWb r (s.registers r) =
          (after program registers dram k).registers r := fun r hr =>
      h.operand_eq ho hsched hk hs hr
    apply aluResult_carries (hcarries k hk)
    · rw [hdecoded.register_rs, ← hdecoded.wreg_rs]
      exact hoperand _
    · rw [hdecoded.register_rt, ← hdecoded.wreg_rt]
      exact hoperand _
  · intro k hk rt rs imm hsw
    have hdec' := (hcarries k hk).decode_eq
    rw [hsw] at hdec'
    show s.nextIdEx.register_rt = _
    rw [hdecoded.register_rt, (decodeInstruction_fields hdec').2.1]
    exact h.store_eq ho hsched hk hsw
  · intro hk
    exact nextExMem_empty (h.execute_empty hk)
  · intro k hk
    exact h.nextExMem_carries hk
  · exact h.nextMemWb_carries ho
  · exact h.registers_clock ho hsched hzero
  · exact h.data_eq ho

end Executes

/-! ## Every number of cycles -/

theorem executes_afterReset (iram : InstMem) (hzero : registers 0 = 0) :
    Executes program registers dram iram (.afterReset registers dram)
      (slots (Machine.waits program registers dram) 0) where
  PC_eq := rfl
  decode_eq := rfl
  PC4_eq := by
    intro k hk
    simp [slots] at hk
  execute_empty := fun _ => ⟨⟨rfl, rfl, rfl, rfl, rfl, rfl, rfl, rfl⟩, rfl, rfl⟩
  execute := by
    intro k hk
    simp [slots] at hk
  execute_result := by
    intro k hk
    simp [slots] at hk
  execute_store := by
    intro k hk
    simp [slots] at hk
  memory_empty := fun _ => ⟨rfl, rfl, rfl, rfl, rfl⟩
  memory := by
    intro k hk
    simp [slots] at hk
  writeback := .inl rfl
  registers_eq := registerWrite_carries (x := none) (.inl rfl) hzero
  dram_eq := rfl

theorem executes_cycles {iram : InstMem} (hdec : Decodes iram program)
    (hsched : Machine.Scheduled program registers dram) (hzero : registers 0 = 0) (n : Nat) :
    Executes program registers dram iram (cycles iram registers dram n)
      (slots (Machine.waits program registers dram) n) := by
  induction n with
  | zero => exact executes_afterReset iram hzero
  | succ n ih =>
    have ho := slots_spaced (Machine.waits program registers dram) n
    cases hs : stalled (Machine.waits program registers dram)
        (slots (Machine.waits program registers dram) n) with
    | true => exact ih.clock_stalled ho hdec hsched hzero hs
    | false => exact ih.clock_advance ho hdec hsched hzero hs

section

variable {iram : InstMem}

theorem wbWrite_cycles (hdec : Decodes iram program)
    (hsched : Machine.Scheduled program registers dram) (hzero : registers 0 = 0) (t : Nat) :
    (cycles iram registers dram t).wbWrite =
      (slots (Machine.waits program registers dram) t).writeback.bind
        (Machine.write program registers dram) :=
  wbWrite_carries (executes_cycles hdec hsched hzero t).writeback (Machine.bind_write_ne hsched)

theorem memWrite_cycles (hdec : Decodes iram program)
    (hsched : Machine.Scheduled program registers dram) (hzero : registers 0 = 0) (t : Nat) :
    (cycles iram registers dram t).ex_mem.write =
      (slots (Machine.waits program registers dram) t).memory.bind
        (Machine.store program registers dram) := by
  have h := executes_cycles hdec hsched hzero t
  cases hm : (slots (Machine.waits program registers dram) t).memory with
  | none =>
    rw [ExMem.write, (h.memory_empty hm).MemWrite]
    rfl
  | some k => exact (h.memory k hm).store

end

/-- The processor executes every scheduled program as the machine does: WB writes the registers and
MEM the data memory with the same values and in the same order, each instruction's in the cycles
that the interlock leaves it, and the register file and the data memory are the machine's. -/
theorem runs_scheduled_programs {iram : InstMem} (hdec : Decodes iram program)
    (hsched : Machine.Scheduled program registers dram) (hzero : registers 0 = 0) (n : Nat) :
    ∃ k k', (∀ i, i < k ↔ retire (Machine.waits program registers dram) i ≤ n) ∧
      (∀ i, i < k' ↔ retire (Machine.waits program registers dram) i ≤ n + 1) ∧
      (List.range (n + 1)).filterMap (fun t => (cycles iram registers dram t).wbWrite) =
        (List.range k).filterMap (Machine.write program registers dram) ∧
      (List.range (n + 1)).filterMap (fun t => (cycles iram registers dram t).ex_mem.write) =
        (List.range k').filterMap (Machine.store program registers dram) ∧
      (cycles iram registers dram n).registers =
        (Machine.after program registers dram k).registers ∧
      (cycles iram registers dram n).data = (Machine.after program registers dram k').dram := by
  have h := executes_cycles hdec hsched hzero n
  have ho := slots_spaced (Machine.waits program registers dram) n
  refine ⟨_, _, lt_retired_iff n, lt_retired_iff (n + 1), ?_, ?_, h.registers_eq, ?_⟩
  · rw [← writeback_stream, List.filterMap_filterMap]
    simp only [wbWrite_cycles hdec hsched hzero]
  · rw [← memory_stream, List.filterMap_filterMap]
    simp only [memWrite_cycles hdec hsched hzero]
  · rw [h.data_eq ho, retired_succ]

/-- The words of `sumLoop`. -/
def sumLoopWords : InstMem :=
  .ofList [0x8C610000, 0x8C640004, 0x00241020, 0x00842825, 0x1063FFFB, 0x00813022, 0xAC620008,
    0x00463824]

theorem runs_scheduled_programs_sumLoop :
    ∃ k', (List.range 31).filterMap
        (fun t => (cycles sumLoopWords Initial.register_array Initial.dram t).ex_mem.write) =
      (List.range k').filterMap
        (Machine.store sumLoop Initial.register_array Initial.dram) ∧
      (cycles sumLoopWords Initial.register_array Initial.dram 30).data =
        (Machine.after sumLoop Initial.register_array Initial.dram k').dram :=
  have ⟨_, k', _, _, _, hstores, _, hdata⟩ :=
    runs_scheduled_programs (show Decodes sumLoopWords sumLoop by decide)
      (schedulable_scheduled (by decide +kernel) Initial.register_array Initial.dram) rfl 30
  ⟨k', hstores, hdata⟩

end ECE3056.Mips
