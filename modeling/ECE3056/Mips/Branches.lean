import ECE3056.Mips.Latched
import ECE3056.Mips.Isa

/-!
# Branches, for every program

A branch is resolved in MEM, where its target has already been computed from the
fetch address that it has carried with it. Whether `PC` takes the target over is
decided by the stall signal, which looks at the two younger instructions only.
-/

namespace ECE3056.Mips

/-- `mem_PCSource`: in MEM is a branch whose operands are equal. -/
def State.BranchTaken (s : State) : Prop := s.ex_mem.branch = true ∧ s.ex_mem.zero = true

/-- A branch is taken while a load-use stall is raised, and `PC` is not at its target. -/
def State.BranchLost (s : State) : Prop :=
  s.BranchTaken ∧ s.stall = true ∧ s.PC ≠ s.ex_mem.branch_PC

/-- The word has been fetched at the address that its `PC4` is 4 more than. -/
def FetchedAt (iram : InstMem) (PC4 instruction : Word) : Prop :=
  ∃ pc : Word, PC4 = pc + 4 ∧ instruction = iram (pc.extractLsb' 2 3)

/-- If cycle `m` has a taken branch in MEM, then it is the `beq` that was in EX before, and `PC`
takes over its target at the next edge. -/
def Redirects (iram : InstMem) (registers : RegisterFile) (dram : DataRam) (m : Nat) : Prop :=
  (cycles iram registers dram m).BranchTaken → ∃ k, m = k + 1 ∧
    let beq := (cycles iram registers dram k).id_ex
    let target := beq.PC4 + 4 * (immediate beq.instruction).signExtend 32
    opcode beq.instruction = 0x04#6 ∧ FetchedAt iram beq.PC4 beq.instruction ∧
      (cycles iram registers dram m).ex_mem.branch_PC = target ∧
      (cycles iram registers dram (m + 1)).PC = target

variable {s : State} {iram : InstMem} {registers : RegisterFile} {dram : DataRam}

/-! ## The fetch address of an instruction -/

/-- The words in ID and EX carry their fetch addresses, unless they come from the reset or a
stall. -/
structure State.Fetched (iram : InstMem) (s : State) : Prop where
  decode : s.if_id = {} ∨ FetchedAt iram s.if_id.PC4 s.if_id.instruction
  execute : s.id_ex.instruction = 0 ∨ FetchedAt iram s.id_ex.PC4 s.id_ex.instruction

theorem State.Fetched.clock (h : s.Fetched iram) : (s.clock iram).Fetched iram := by
  constructor
  · show s.nextIfId iram = {} ∨ _
    cases hs : s.stall with
    | true =>
      have hkeep : s.nextIfId iram = s.if_id := if_pos hs
      rw [hkeep]
      exact h.decode.imp_right fun hf => by rwa [State.clock, hkeep]
    | false =>
      refine .inr ⟨s.PC, ?_, ?_⟩
      · show (s.nextIfId iram).PC4 = _
        rw [State.nextIfId, hs, if_neg Bool.false_ne_true]
      · show (s.nextIfId iram).instruction = _
        rw [State.nextIfId, hs, if_neg Bool.false_ne_true]
  · show s.nextIdEx.instruction = 0 ∨ FetchedAt iram s.nextIdEx.PC4 s.nextIdEx.instruction
    cases hs : s.stall with
    | true => exact .inl (by rw [nextIdEx_stall hs])
    | false =>
      have hPC4 : s.nextIdEx.PC4 = s.if_id.PC4 := by
        rw [State.nextIdEx, hs, if_neg Bool.false_ne_true]
      rw [hPC4, nextIdEx_instruction hs]
      exact h.decode.imp_left fun hreset => by rw [hreset]

theorem cycles_fetched (iram : InstMem) (registers : RegisterFile) (dram : DataRam) (n : Nat) :
    (cycles iram registers dram n).Fetched iram := by
  induction n with
  | zero => exact ⟨.inl rfl, .inl rfl⟩
  | succ n ih => exact ih.clock

/-! ## The target -/

/-- A branch in MEM was the `beq` in EX, which has left its target. -/
theorem clock_branch (h : s.id_ex.Latched s.register_array)
    (hbranch : (s.clock iram).ex_mem.branch = true) :
    opcode s.id_ex.instruction = 0x04#6 ∧ (s.clock iram).ex_mem.branch_PC =
      s.id_ex.PC4 + 4 * (immediate s.id_ex.instruction).signExtend 32 := by
  have hbeq : opcode s.id_ex.instruction = 0x04#6 := h.branch_iff.mp hbranch
  have hdec := h.decoded (IdEx.ne_zero_of_opcode (by rw [hbeq]; decide))
  refine ⟨hbeq, ?_⟩
  show s.id_ex.PC4 + s.id_ex.sign_extend <<< 2 = _
  rw [hdec.sign_extend, signExtend_eq, BitVec.shiftLeft_eq_mul_twoPow, BitVec.mul_comm]
  rfl

/-- The stall signal has precedence over the branch. -/
theorem nextPC_taken (h : s.BranchTaken) :
    s.nextPC = s.ex_mem.branch_PC ↔ ¬ s.BranchLost := by
  rw [State.nextPC, h.1, h.2]
  cases hs : s.stall with
  | true =>
    rw [if_pos rfl]
    constructor
    · intro hPC hlost
      exact hlost.2.2 hPC
    · intro hlost
      by_contra hPC
      exact hlost ⟨h, hs, hPC⟩
  | false => exact iff_of_true rfl fun hlost => Bool.false_ne_true (hs.symm.trans hlost.2.1)

/-! ## Every number of cycles -/

theorem redirects_iff (m : Nat) :
    Redirects iram registers dram m ↔ ¬ (cycles iram registers dram m).BranchLost := by
  constructor
  · intro hredirect hlost
    obtain ⟨k, -, -, -, htarget, hPC⟩ := hredirect hlost.1
    exact (nextPC_taken hlost.1).mp (hPC.trans htarget.symm) hlost
  · intro hlost htaken
    cases m with
    | zero => exact absurd htaken.1 Bool.false_ne_true
    | succ k =>
      obtain ⟨hbeq, htarget⟩ := clock_branch (cycles_latched iram registers dram k) htaken.1
      have hfetched : FetchedAt iram (cycles iram registers dram k).id_ex.PC4
          (cycles iram registers dram k).id_ex.instruction :=
        (cycles_fetched iram registers dram k).execute.resolve_left
          (IdEx.ne_zero_of_opcode (by rw [hbeq]; decide))
      exact ⟨k, rfl, hbeq, hfetched, htarget, ((nextPC_taken htaken).mpr hlost).trans htarget⟩

/-- Every taken branch of a program redirects the fetch exactly if no load-use stall is raised
while one is taken, other than with `PC` already at the target. -/
theorem taken_branches_redirect_iff (iram : InstMem) (registers : RegisterFile) (dram : DataRam)
    (n : Nat) :
    (∀ m ≤ n, Redirects iram registers dram m) ↔
      ∀ m ≤ n, ¬ (cycles iram registers dram m).BranchLost :=
  forall₂_congr fun m _ => redirects_iff m

/-- `beq $0 $0 3`, `lw $1 0($0)` and `add $2 $1 $1`. When the branch is taken, the stall between
the other two keeps `PC` at 12; the branch has then left the pipeline. -/
theorem taken_branch_lost :
    let iram := InstMem.ofList [0x10000003, 0x8C010000, 0x00211020]
    let s := cycles iram Initial.register_array Initial.dram 3
    iram.Supported ∧ s.ex_mem.branch = true ∧ s.ex_mem.zero = true ∧ s.ex_mem.branch_PC = 16 ∧
      (s.clock iram).PC = 12 ∧ (s.clock iram).ex_mem.branch = false := by
  decide +kernel

end ECE3056.Mips
