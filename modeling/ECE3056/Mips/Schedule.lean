import ECE3056.Mips.Machine

/-!
# A schedule that can be checked

Whether the processor runs a program right is decided by which instructions can
follow each other. An instruction is followed by the next word or by the target of
some branch of the program; where every such pair and triple is harmless, every
execution is.
-/

namespace ECE3056.Mips

namespace Instruction

/-- The register whose value `sw` stores. -/
def stored : Instruction → Option RegAddr
  | sw rt _ _ => some rt
  | rformat .. | lw .. | beq .. => none

/-- The address that a branch at `a` goes to. -/
def goesTo (a : BitVec 3) : Instruction → Option (BitVec 3)
  | beq _ _ imm => some (a + 1 + imm.extractLsb' 0 3)
  | rformat .. | lw .. | sw .. => none

/-- It is no load, or what comes next does not depend on it or waits for it. -/
def PassesOn (i j : Instruction) : Prop :=
  i.isLoad = true → (∃ d, i.dest = some d ∧ j.reads d) → interlocked i j = true

instance (i j : Instruction) : Decidable (i.PassesOn j) :=
  match i with
  | lw d _ _ =>
    decidable_of_iff (j.reads d → interlocked (lw d _ _) j = true)
      ⟨fun h _ hd => hd.elim fun _ he => h (Option.some_inj.mp he.1 ▸ he.2),
        fun h hr => h rfl ⟨d, rfl, hr⟩⟩
  | rformat .. => isTrue fun h => absurd h Bool.false_ne_true
  | sw .. => isTrue fun h => absurd h Bool.false_ne_true
  | beq .. => isTrue fun h => absurd h Bool.false_ne_true

end Instruction

variable (program : BitVec 3 → Instruction)

/-- The word at `b` can be executed directly behind the word at `a`. -/
def Follows (a b : BitVec 3) : Prop := b = a + 1 ∨ ∃ c, (program c).goesTo c = some b

instance (a b : BitVec 3) : Decidable (Follows program a b) :=
  inferInstanceAs (Decidable (_ ∨ _))

/-- The program is harmless along all paths. -/
structure Schedulable : Prop where
  dest_ne : ∀ a, (program a).dest ≠ some 0
  load_use : ∀ a b, Follows program a b → (program a).PassesOn (program b)
  store_next : ∀ a b, Follows program a b → (program b).stored.isSome = true →
    (program a).dest ≠ (program b).stored
  store_second : ∀ a b, Follows program a b → ∀ c, Follows program b c →
    (program c).stored.isSome = true → (program a).dest = (program c).stored →
      interlocked (program a) (program b) = true
  branch : ∀ a, ((program a).goesTo a).isSome = true → ∀ b, Follows program a b →
    ∀ c, Follows program b c → interlocked (program b) (program c) = false

theorem schedulable_iff : Schedulable program ↔
    (∀ a, (program a).dest ≠ some 0) ∧
      (∀ a b, Follows program a b → (program a).PassesOn (program b)) ∧
      (∀ a b, Follows program a b → (program b).stored.isSome = true →
        (program a).dest ≠ (program b).stored) ∧
      (∀ a b, Follows program a b → ∀ c, Follows program b c →
        (program c).stored.isSome = true → (program a).dest = (program c).stored →
          interlocked (program a) (program b) = true) ∧
      ∀ a, ((program a).goesTo a).isSome = true → ∀ b, Follows program a b →
        ∀ c, Follows program b c → interlocked (program b) (program c) = false :=
  ⟨fun h => ⟨h.dest_ne, h.load_use, h.store_next, h.store_second, h.branch⟩,
    fun h => ⟨h.1, h.2.1, h.2.2.1, h.2.2.2.1, h.2.2.2.2⟩⟩

instance : Decidable (Schedulable program) := decidable_of_iff _ (schedulable_iff program).symm

/-! ## The paths of an execution -/

namespace Machine

variable {program} {registers : RegisterFile} {dram : DataRam}

/-- The address of instruction `k`. -/
def address (program : BitVec 3 → Instruction) (registers : RegisterFile) (dram : DataRam)
    (k : Nat) : BitVec 3 :=
  (after program registers dram k).PC.extractLsb' 2 3

theorem extract_next (PC : Word) : (PC + 4).extractLsb' 2 3 = PC.extractLsb' 2 3 + 1 := by
  apply BitVec.eq_of_toNat_eq
  simp [BitVec.extractLsb'_toNat, Nat.shiftRight_eq_div_pow]
  omega

theorem extract_target (PC : Word) (imm : BitVec 16) :
    (PC + 4 + 4 * imm.signExtend 32).extractLsb' 2 3 =
      PC.extractLsb' 2 3 + 1 + imm.extractLsb' 0 3 := by
  have himm : (imm.signExtend 32).extractLsb' 0 3 = imm.extractLsb' 0 3 := by
    apply BitVec.eq_of_getLsbD_eq
    intro j hj
    rw [BitVec.getLsbD_extractLsb', BitVec.getLsbD_extractLsb', BitVec.getLsbD_signExtend]
    simp [hj, show j < 16 by omega, show j < 32 by omega]
  rw [← himm]
  generalize imm.signExtend 32 = offset
  apply BitVec.eq_of_toNat_eq
  simp [BitVec.extractLsb'_toNat, BitVec.toNat_mul, Nat.shiftRight_eq_div_pow]
  omega

theorem goesTo_of_target {i : Instruction} {PC t : Word} (h : i.target PC registers = some t) :
    i.goesTo (PC.extractLsb' 2 3) = some (t.extractLsb' 2 3) := by
  cases i with
  | beq rs rt imm =>
    rw [Instruction.target] at h
    split at h
    · obtain rfl := Option.some_inj.mp h
      rw [extract_target]
      rfl
    · simp at h
  | rformat | lw | sw => simp [Instruction.target] at h

theorem goesTo_address {k : Nat} {t : Word} (h : target program registers dram k = some t) :
    (program (address program registers dram k)).goesTo (address program registers dram k) =
      some (t.extractLsb' 2 3) := goesTo_of_target h

/-- What is executed next follows in the program. -/
theorem follows_address (k : Nat) :
    Follows program (address program registers dram k)
      (address program registers dram (k + 1)) := by
  have hline : (after program registers dram (k + 1)).PC =
      (after program registers dram k).PC + 4 →
      Follows program (address program registers dram k)
        (address program registers dram (k + 1)) := by
    intro h
    left
    rw [address, h]
    exact extract_next _
  match k with
  | 0 | 1 | 2 => exact hline rfl
  | k + 3 =>
    cases ht : target program registers dram k with
    | none =>
      apply hline
      rw [after_PC, ht]
      rfl
    | some t =>
      refine .inr ⟨_, (goesTo_address ht).trans ?_⟩
      rw [address, after_PC, ht]
      rfl

end Machine

/-- A program that is harmless along all paths is scheduled, whatever it computes. -/
theorem schedulable_scheduled {program : BitVec 3 → Instruction} (h : Schedulable program)
    (registers : RegisterFile) (dram : DataRam) : Machine.Scheduled program registers dram where
  dest_ne := fun k => h.dest_ne _
  load_use := by
    intro k d hload hdest hreads
    exact h.load_use _ _ (Machine.follows_address k) hload ⟨d, hdest, hreads⟩
  store_next := by
    intro k rt rs imm hsw
    have hstored : (program (Machine.address program registers dram (k + 1))).stored = some rt :=
      congrArg Instruction.stored hsw
    rw [← hstored]
    exact h.store_next _ _ (Machine.follows_address k) (by rw [hstored]; rfl)
  store_second := by
    intro k rt rs imm hsw hdest
    have hstored : (program (Machine.address program registers dram (k + 2))).stored = some rt :=
      congrArg Instruction.stored hsw
    exact h.store_second _ _ (Machine.follows_address k) _ (Machine.follows_address (k + 1))
      (by rw [hstored]; rfl) (hdest.trans hstored.symm)
  branch := by
    intro k htaken
    obtain ⟨t, ht⟩ := Option.isSome_iff_exists.mp htaken
    exact h.branch _ (by rw [Machine.goesTo_address ht]; rfl) _ (Machine.follows_address k) _
      (Machine.follows_address (k + 1))

/-- A loop: the sum of two loaded words is stored behind the branch that closes it. -/
def sumLoop : BitVec 3 → Instruction := fun a =>
  [.lw 1 3 0, .lw 4 3 4, .rformat .add 2 1 4, .rformat .or 5 4 4, .beq 3 3 0xFFFB,
    .rformat .sub 6 4 1, .sw 2 3 8, .rformat .and 7 2 6].getD a.toNat (.beq 3 3 0)

theorem schedulable_scheduled_sumLoop :
    Machine.Scheduled sumLoop Initial.register_array Initial.dram :=
  schedulable_scheduled (by decide +kernel) Initial.register_array Initial.dram

end ECE3056.Mips
