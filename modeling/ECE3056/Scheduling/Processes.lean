import Mathlib.Data.Fin.VecNotation
import ECE3056.Scheduling.Simulator

/-!
# The processes

The operations arrays of `process.c`, and what follows from their shape.
-/

namespace ECE3056.Scheduling

theorem WellShaped.head {ts : List OpType} (h : WellShaped ts = true) : ts[0]? = some .cpu := by
  unfold WellShaped at h
  split at h
  · rfl
  · rfl
  · simp at h

/-- A burst is followed by an I/O request or by the end of the program. -/
theorem WellShaped.after_cpu {ts : List OpType} (h : WellShaped ts = true) {i : Nat}
    (hi : ts[i]? = some .cpu) : ts[i + 1]? = some .io ∨ ts[i + 1]? = some .terminate := by
  induction ts using WellShaped.induct generalizing i with
  | case1 =>
    match i with
    | 0 => exact .inr rfl
    | 1 => simp at hi
    | i + 2 => simp at hi
  | case2 rest ih =>
    match i with
    | 0 => exact .inl rfl
    | 1 => simp at hi
    | i + 2 => exact ih h hi
  | case3 ts h₁ h₂ =>
    rw [WellShaped] at h
    · simp at h
    · exact h₁
    · exact h₂

/-- A burst follows each I/O request. -/
theorem WellShaped.after_io {ts : List OpType} (h : WellShaped ts = true) {i : Nat}
    (hi : ts[i]? = some .io) : ts[i + 1]? = some .cpu := by
  induction ts using WellShaped.induct generalizing i with
  | case1 =>
    match i with
    | 0 => simp at hi
    | 1 => simp at hi
    | i + 2 => simp at hi
  | case2 rest ih =>
    match i with
    | 0 => simp at hi
    | 1 => exact WellShaped.head h
    | i + 2 => exact ih h hi
  | case3 ts h₁ h₂ =>
    rw [WellShaped] at h
    · simp at h
    · exact h₁
    · exact h₂

/-- The program ends there. -/
theorem WellShaped.after_terminate {ts : List OpType} (h : WellShaped ts = true) {i : Nat}
    (hi : ts[i]? = some .terminate) : ts.drop (i + 1) = [] := by
  induction ts using WellShaped.induct generalizing i with
  | case1 =>
    match i with
    | 0 => simp at hi
    | 1 => rfl
    | i + 2 => simp at hi
  | case2 rest ih =>
    match i with
    | 0 => simp at hi
    | 1 => simp at hi
    | i + 2 => exact ih h hi
  | case3 ts h₁ h₂ =>
    rw [WellShaped] at h
    · simp at h
    · exact h₁
    · exact h₂

/-- A burst is not the last operation of an array. -/
theorem exists_after_cpu {ops : List Op} (h : WellShaped (ops.map Op.type) = true) {i : Nat}
    (hi : (ops.map Op.type)[i]? = some .cpu) : ∃ op, ops[i + 1]? = some op := by
  have hnext := WellShaped.after_cpu h hi
  rw [List.getElem?_map, Option.map_eq_some_iff, Option.map_eq_some_iff] at hnext
  rcases hnext with ⟨op, hop, -⟩ | ⟨op, hop, -⟩ <;> exact ⟨op, hop⟩

/-- Storing an operation of the same type keeps the shape of an array. -/
theorem map_type_set {ops : List Op} {i : Nat} {op op' : Op} (hop : ops[i]? = some op)
    (htype : op'.type = op.type) : (ops.set i op').map Op.type = ops.map Op.type := by
  obtain ⟨hlt, rfl⟩ := List.getElem?_eq_some_iff.mp hop
  have hlt' : i < (ops.map Op.type).length := by rwa [List.length_map]
  rw [List.map_set, htype, ← List.getElem_map Op.type (h := hlt'), List.set_getElem_self]

/-! ## The table -/

def cpuIo (bursts : List (UInt32 × UInt32)) (last : UInt32) : List Op :=
  bursts.flatMap (fun b => [⟨.cpu, b.1⟩, ⟨.io, b.2⟩]) ++ [⟨.cpu, last⟩, ⟨.terminate, 0⟩]

def pid0_ops : List Op :=
  cpuIo [(2, 2), (3, 5), (1, 4), (2, 2), (3, 5), (1, 4), (2, 2), (3, 5), (1, 4), (2, 5), (1, 4),
    (2, 2), (3, 5), (1, 4)] 2

def pid1_ops : List Op :=
  cpuIo [(3, 4), (2, 6), (1, 3), (4, 4), (2, 6), (1, 3), (4, 4), (2, 6), (1, 3), (4, 3), (4, 4),
    (2, 6), (1, 3)] 4

def pid2_ops : List Op :=
  cpuIo [(1, 4), (2, 5), (1, 3), (3, 4), (2, 5), (1, 3), (3, 4), (2, 5), (1, 3), (3, 4), (2, 5),
    (1, 3)] 3

def pid3_ops : List Op :=
  cpuIo [(9, 1), (6, 1), (8, 1), (7, 1), (6, 1), (8, 1), (7, 1), (6, 1), (8, 1)] 8

def pid4_ops : List Op :=
  cpuIo [(10, 1), (14, 1), (7, 2), (11, 1), (14, 1), (7, 2), (11, 1), (14, 1), (7, 2)] 11

def pid5_ops : List Op :=
  cpuIo [(9, 1), (10, 2), (15, 1), (8, 1), (10, 2), (15, 1), (8, 1), (10, 2), (15, 1)] 8

def pid6_ops : List Op :=
  cpuIo [(6, 3), (9, 1), (14, 1), (11, 3), (9, 1), (14, 1), (11, 3), (9, 1), (14, 1)] 11

def pid7_ops : List Op :=
  cpuIo [(6, 3), (12, 3), (7, 1), (9, 3), (12, 3), (7, 1), (9, 3), (12, 3), (7, 1)] 9

/-- `PROCESS_COUNT`. -/
abbrev processCount : Nat := 8

/-- The `pc` and the `time_remaining` of `processes[]`. -/
def processes : Fin processCount → List Op × UInt32 :=
  ![(pid0_ops, 2),
    (pid1_ops, 3),
    (pid2_ops, 1),
    (pid3_ops, 9),
    (pid4_ops, 10),
    (pid5_ops, 9),
    (pid6_ops, 6),
    (pid7_ops, 6)]

theorem processes_wellShaped (p : Fin processCount) :
    WellShaped ((processes p).1.map Op.type) = true := by
  revert p
  decide

end ECE3056.Scheduling
