import Mathlib.Data.List.Range
import Mathlib.Tactic

/-!
# An in-order pipeline

Which instruction of a stream is in which stage of a five-stage pipeline, when
instruction `i` may have to wait one cycle behind its predecessor. `hazard i`
says that it does. Only positions are tracked; what the stages compute is left to
the machine that uses this.
-/
namespace ECE3056.Pipeline

/-- The instruction in each stage, by its index in the stream; `none` is a bubble. -/
structure Slots where
  /-- The instruction being fetched. -/
  next : Nat
  decode : Option Nat
  execute : Option Nat
  memory : Option Nat
  writeback : Option Nat
  /-- How many instructions have reached the last stage. -/
  retired : Nat

variable (hazard : Nat → Bool)

/-- The instruction in decode waits for the one in execute. -/
def stalled (p : Slots) : Bool :=
  match p.decode, p.execute with
  | some i, some _ => hazard i
  | _, _ => false

def step (p : Slots) : Slots :=
  if stalled hazard p then
    { p with
      execute := none
      memory := p.execute
      writeback := p.memory
      retired := p.retired + p.memory.toList.length }
  else
    { next := p.next + 1
      decode := some p.next
      execute := p.decode
      memory := p.execute
      writeback := p.memory
      retired := p.retired + p.memory.toList.length }

/-- The slots `n` cycles after the pipeline was empty. -/
def slots : Nat → Slots
  | 0 => ⟨0, none, none, none, none, 0⟩
  | n + 1 => step hazard (slots n)

/-- The cycle in which an instruction is in the last stage. -/
def retire : Nat → Nat
  | 0 => 4
  | i + 1 => retire i + 1 + if hazard (i + 1) then 1 else 0

/-! ## Order -/

/-- The instructions in flight are consecutive, and bubbles are never adjacent. -/
structure InOrder (p : Slots) : Prop where
  decode_next : ∀ i, p.decode = some i → p.next = i + 1
  next_zero : p.decode = none → p.next = 0
  execute_next : ∀ i, p.execute = some i → p.decode = some (i + 1)
  memory_next : ∀ i, p.memory = some i →
    p.execute = some (i + 1) ∨ p.execute = none ∧ p.decode = some (i + 1)
  writeback_next : ∀ i, p.writeback = some i →
    p.memory = some (i + 1) ∨ p.memory = none ∧ p.execute = some (i + 1)
  retired_memory : ∀ i, p.memory = some i → p.retired = i
  retired_execute : ∀ i, p.memory = none → p.execute = some i → p.retired = i
  retired_decode : ∀ i, p.memory = none → p.execute = none → p.decode = some i → p.retired = i
  retired_zero : p.decode = none → p.retired = 0

variable {hazard}

theorem InOrder.memory_none {p : Slots} (h : InOrder p) (hd : p.decode = none) :
    p.execute = none ∧ p.memory = none := by
  have he : p.execute = none := by
    cases hx : p.execute with
    | none => rfl
    | some i => simpa [hd] using h.execute_next i hx
  refine ⟨he, ?_⟩
  cases hm : p.memory with
  | none => rfl
  | some i => simpa [he, hd] using h.memory_next i hm

theorem stalled_iff {p : Slots} :
    stalled hazard p = true ↔ ∃ i j, p.decode = some i ∧ p.execute = some j ∧ hazard i = true := by
  cases hd : p.decode <;> cases he : p.execute <;> simp [stalled, hd, he]

/-- The instruction in execute is the first one behind those that leave the memory stage. -/
theorem InOrder.execute_eq {p : Slots} (h : InOrder p) {j : Nat} (he : p.execute = some j) :
    p.retired + p.memory.toList.length = j := by
  cases hm : p.memory with
  | none => simpa using h.retired_execute j hm he
  | some m =>
    rcases h.memory_next m hm with hx | ⟨hx, -⟩
    · rw [he] at hx
      simp [h.retired_memory m hm, Option.some_inj.mp hx]
    · simp [he] at hx

theorem InOrder.decode_eq {p : Slots} (h : InOrder p) {j : Nat} (he : p.execute = none)
    (hd : p.decode = some j) : p.retired + p.memory.toList.length = j := by
  cases hm : p.memory with
  | none => simpa using h.retired_decode j hm he hd
  | some m =>
    rcases h.memory_next m hm with hx | ⟨-, hx⟩
    · simp [he] at hx
    · rw [hd] at hx
      simp [h.retired_memory m hm, Option.some_inj.mp hx]

theorem InOrder.step_stalled {p : Slots} (h : InOrder p) {i j : Nat} (hd : p.decode = some i)
    (he : p.execute = some j) (hi : hazard i = true) : InOrder (step hazard p) := by
  have hs : stalled hazard p = true := stalled_iff.mpr ⟨i, j, hd, he, hi⟩
  have hij : i = j + 1 := by
    have hnext := h.execute_next j he
    rw [hd] at hnext
    exact Option.some_inj.mp hnext
  rw [step, if_pos hs]
  constructor
  · exact h.decode_next
  · exact h.next_zero
  · intro k hk
    simp at hk
  · intro k hk
    exact .inr ⟨rfl, h.execute_next k hk⟩
  · intro k hk
    rcases h.memory_next k hk with hx | ⟨hx, -⟩
    · exact .inl hx
    · simp [he] at hx
  · intro k hk
    rw [he] at hk
    exact (h.execute_eq he).trans (Option.some_inj.mp hk)
  · intro k hk
    simp [he] at hk
  · intro k hk
    simp [he] at hk
  · intro hk
    simp [hd] at hk

theorem InOrder.step_advance {p : Slots} (h : InOrder p) (hs : ¬ stalled hazard p = true) :
    InOrder (step hazard p) := by
  rw [step, if_neg hs]
  constructor
  · intro i hi
    rw [Option.some_inj.mp hi]
  · intro hd
    simp at hd
  · intro i hi
    exact congrArg some (h.decode_next i hi)
  · intro i hi
    exact .inl (h.execute_next i hi)
  · intro i hi
    exact h.memory_next i hi
  · intro i hi
    exact h.execute_eq hi
  · intro i he hd
    exact h.decode_eq he hd
  · intro i he hd hi
    obtain ⟨-, hm⟩ := h.memory_none hd
    have hzero := h.next_zero hd
    have hi' : p.next = i := Option.some_inj.mp hi
    show p.retired + p.memory.toList.length = i
    simp [hm, h.retired_zero hd, ← hi', hzero]
  · intro hd
    simp at hd

theorem InOrder.step {p : Slots} (h : InOrder p) : InOrder (step hazard p) := by
  by_cases hs : stalled hazard p = true
  · obtain ⟨i, j, hd, he, hi⟩ := stalled_iff.mp hs
    exact h.step_stalled hd he hi
  · exact h.step_advance hs

variable (hazard) in
theorem slots_inOrder (n : Nat) : InOrder (slots hazard n) := by
  induction n with
  | zero => constructor <;> simp [slots]
  | succ n ih => exact ih.step

/-! ## Time -/

variable (hazard) in
theorem retire_lt {i j : Nat} (h : i < j) : retire hazard i < retire hazard j := by
  induction j with
  | zero => omega
  | succ j ih =>
    rw [retire]
    rcases Nat.lt_succ_iff_lt_or_eq.mp h with hlt | rfl
    · have := ih hlt
      omega
    · omega

variable (hazard) in
theorem retire_le {i j : Nat} (h : i ≤ j) : retire hazard i ≤ retire hazard j := by
  rcases Nat.lt_or_eq_of_le h with hlt | rfl
  · exact (retire_lt hazard hlt).le
  · exact Nat.le_refl _

theorem retire_inj {i j : Nat} (h : retire hazard i = retire hazard j) : i = j := by
  rcases Nat.lt_trichotomy i j with hlt | heq | hgt
  · have := retire_lt hazard hlt
    omega
  · exact heq
  · have := retire_lt hazard hgt
    omega

variable (hazard) in
theorem four_le_retire (i : Nat) : 4 ≤ retire hazard i := retire_le hazard (Nat.zero_le i)

variable (hazard) in
/-- Where the clock stands when the instruction `k` is in decode: it has waited already, or
its predecessor is in execute. -/
def Timed (n : Nat) (p : Slots) : Prop :=
  (n = 0 ∧ p.decode = none) ∨
    ∃ k, p.decode = some k ∧
      ((p.execute = none ∧ n + 3 = retire hazard k ∧ (k = 0 ∨ hazard k = true)) ∨
        ∃ j, k = j + 1 ∧ p.execute = some j ∧ n + 2 = retire hazard j)

variable (hazard) in
theorem slots_timed (n : Nat) : Timed hazard n (slots hazard n) := by
  induction n with
  | zero => exact .inl ⟨rfl, rfl⟩
  | succ n ih =>
    have ho := slots_inOrder hazard n
    rw [slots]
    rcases ih with ⟨rfl, hd⟩ | ⟨k, hd, ⟨he, hn, hk⟩ | ⟨j, rfl, he, hn⟩⟩
    · -- the first instruction is fetched
      exact .inr ⟨0, rfl, .inl ⟨rfl, rfl, .inl rfl⟩⟩
    · -- the waiting instruction goes on
      have hs : ¬ stalled hazard (slots hazard n) = true := by
        rw [stalled_iff]
        intro hex
        obtain ⟨i, j, -, hx, -⟩ := hex
        simp [he] at hx
      right
      refine ⟨k + 1, ?_, .inr ⟨k, rfl, ?_, by omega⟩⟩
      · rw [step, if_neg hs]
        exact congrArg some (ho.decode_next k hd)
      · rw [step, if_neg hs]
        exact hd
    · by_cases hk : hazard (j + 1) = true
      · -- it has to wait
        have hs : stalled hazard (slots hazard n) = true := stalled_iff.mpr ⟨_, _, hd, he, hk⟩
        right
        refine ⟨j + 1, ?_, .inl ⟨?_, ?_, .inr hk⟩⟩
        · rw [step, if_pos hs]
          exact hd
        · rw [step, if_pos hs]
        · rw [retire, if_pos hk]
          omega
      · have hs : ¬ stalled hazard (slots hazard n) = true := by
          rw [stalled_iff]
          intro hex
          obtain ⟨i, l, hi, -, hz⟩ := hex
          rw [hd] at hi
          exact hk (Option.some_inj.mp hi ▸ hz)
        right
        refine ⟨j + 2, ?_, .inr ⟨j + 1, rfl, ?_, ?_⟩⟩
        · rw [step, if_neg hs]
          exact congrArg some (ho.decode_next (j + 1) hd)
        · rw [step, if_neg hs]
          exact hd
        · rw [retire, if_neg hk]
          omega

theorem execute_iff (n i : Nat) :
    (slots hazard n).execute = some i ↔ n + 2 = retire hazard i := by
  have ho := slots_inOrder hazard n
  rcases slots_timed hazard n with ⟨rfl, hd⟩ | ⟨k, hd, ⟨he, hn, hk⟩ | ⟨j, rfl, he, hn⟩⟩
  · have hfour := four_le_retire hazard i
    simp only [(ho.memory_none hd).1]
    constructor
    · intro h
      simp at h
    · intro h
      omega
  · rw [he]
    constructor
    · intro h
      simp at h
    · intro h
      -- the predecessor left execute a cycle ago
      have hlt : i < k := by
        by_contra hge
        have := retire_le hazard (Nat.le_of_not_lt hge)
        omega
      obtain ⟨l, rfl⟩ : ∃ l, k = l + 1 := ⟨k - 1, by omega⟩
      have hl := retire_le hazard (Nat.le_of_lt_succ hlt)
      rw [retire, if_pos (hk.resolve_left (Nat.succ_ne_zero l))] at hn
      omega
  · rw [he]
    constructor
    · intro h
      rw [← Option.some_inj.mp h]
      exact hn
    · intro h
      rw [retire_inj (hn.symm.trans h)]

theorem memory_iff (n i : Nat) : (slots hazard n).memory = some i ↔ n + 1 = retire hazard i := by
  cases n with
  | zero =>
    have := four_le_retire hazard i
    simp only [slots]
    constructor
    · intro h
      simp at h
    · intro h
      omega
  | succ n =>
    have hstep : (slots hazard (n + 1)).memory = (slots hazard n).execute := by
      rw [slots, step]
      split <;> rfl
    rw [hstep]
    exact execute_iff n i

/-- An instruction is in the last stage in the cycle `retire` and in no other. -/
theorem writeback_iff (n i : Nat) : (slots hazard n).writeback = some i ↔ n = retire hazard i := by
  cases n with
  | zero =>
    have := four_le_retire hazard i
    simp only [slots]
    constructor
    · intro h
      simp at h
    · intro h
      omega
  | succ n =>
    have hstep : (slots hazard (n + 1)).writeback = (slots hazard n).memory := by
      rw [slots, step]
      split <;> rfl
    rw [hstep]
    exact memory_iff n i

/-- The pipeline stalls once for each instruction that has to wait, when its predecessor is
in execute. -/
theorem stalled_slots_iff (n : Nat) :
    stalled hazard (slots hazard n) = true ↔
      ∃ i, hazard (i + 1) = true ∧ n + 2 = retire hazard i := by
  rw [stalled_iff]
  constructor
  · intro h
    obtain ⟨i, j, hd, he, hi⟩ := h
    have hnext := (slots_inOrder _ n).execute_next j he
    rw [hd] at hnext
    exact ⟨j, Option.some_inj.mp hnext ▸ hi, (execute_iff n j).mp he⟩
  · intro h
    obtain ⟨i, hi, hn⟩ := h
    have he := (execute_iff n i).mpr hn
    exact ⟨i + 1, i, (slots_inOrder _ n).execute_next i he, he, hi⟩

variable (hazard) in
/-- A bubble stands in front of each instruction that had to wait, and nowhere else. -/
structure Spaced (p : Slots) : Prop extends InOrder p where
  memory_of_execute : ∀ i, p.execute = some (i + 1) →
    (p.memory = some i ↔ hazard (i + 1) = false)
  memory_of_bubble : ∀ i, p.decode = some (i + 1) → p.execute = none →
    hazard (i + 1) = true ∧ p.memory = some i

variable (hazard) in
theorem slots_spaced (n : Nat) : Spaced hazard (slots hazard n) := by
  refine ⟨slots_inOrder hazard n, ?_, ?_⟩
  · intro i he
    have hex := (execute_iff n (i + 1)).mp he
    rw [retire] at hex
    rw [memory_iff]
    cases hi : hazard (i + 1) with
    | false =>
      rw [hi, if_neg Bool.false_ne_true] at hex
      exact iff_of_true (by omega) rfl
    | true =>
      rw [hi, if_pos rfl] at hex
      exact iff_of_false (by omega) (by simp)
  · intro i hd he
    rcases slots_timed hazard n with ⟨-, hnone⟩ | ⟨k, hk, ⟨-, hn, hwait⟩ | ⟨j, -, hj, -⟩⟩
    · simp [hd] at hnone
    · obtain rfl : i + 1 = k := Option.some_inj.mp (hd.symm.trans hk)
      have hi := hwait.resolve_left (Nat.succ_ne_zero i)
      rw [retire, if_pos hi] at hn
      exact ⟨hi, (memory_iff n i).mpr (by omega)⟩
    · simp [he] at hj

/-- The instructions that have passed the last stage are the first ones of the stream, in order. -/
theorem writeback_stream (n : Nat) :
    (List.range (n + 1)).filterMap (fun t => (slots hazard t).writeback) =
      List.range (slots hazard n).retired := by
  induction n with
  | zero => rfl
  | succ n ih =>
    have hwb : (slots hazard (n + 1)).writeback = (slots hazard n).memory := by
      rw [slots, step]
      split <;> rfl
    have hret : (slots hazard (n + 1)).retired =
        (slots hazard n).retired + (slots hazard n).memory.toList.length := by
      rw [slots, step]
      split <;> rfl
    rw [List.range_succ, List.filterMap_append, ih, hret]
    cases hm : (slots hazard n).memory with
    | none => simp [hwb, hm]
    | some m =>
      have hm' := (slots_inOrder _ n).retired_memory m hm
      simp [hwb, hm, hm', List.range_succ]

theorem lt_retired_iff (n i : Nat) : i < (slots hazard n).retired ↔ retire hazard i ≤ n := by
  rw [← List.mem_range, ← writeback_stream n, List.mem_filterMap]
  constructor
  · intro h
    obtain ⟨t, ht, hwb⟩ := h
    rw [← (writeback_iff t i).mp hwb]
    exact Nat.le_of_lt_succ (List.mem_range.mp ht)
  · intro h
    exact ⟨_, List.mem_range.mpr (Nat.lt_succ_of_le h), (writeback_iff _ i).mpr rfl⟩

theorem retired_succ (n : Nat) : (slots hazard (n + 1)).retired =
    (slots hazard n).retired + (slots hazard n).memory.toList.length := by
  rw [slots, step]
  split <;> rfl

/-- The memory stage is one instruction ahead of the last one. -/
theorem memory_stream (n : Nat) :
    (List.range (n + 1)).filterMap (fun t => (slots hazard t).memory) =
      List.range (slots hazard (n + 1)).retired := by
  have hnext : ∀ t, (slots hazard t).memory = (slots hazard (t + 1)).writeback := by
    intro t
    rw [slots, step]
    split <;> rfl
  rw [← writeback_stream (n + 1), List.range_succ_eq_map (n := n + 1), List.filterMap_cons,
    List.filterMap_map]
  exact List.filterMap_congr fun t _ => hnext t

end ECE3056.Pipeline
