import Mathlib.Data.List.Nodup
import Mathlib.Logic.Function.Basic

/-!
# Singly linked lists in a heap

A heap is seen through one function, the successor of each cell; `none` is the
null link. `Segment` relates a link to the cells visited from it up to another
link, and the lemmas say what appending a cell and unlinking a cell do to the
whole list. `IsFifo` is a list with a second link, to its last cell.
-/

namespace ECE3056.LinkedList

variable {α : Type*}

/-- Following `next` from the link `h` visits exactly the cells of the list and
then arrives at the link `e`. -/
def Segment (next : α → Option α) : Option α → List α → Option α → Prop
  | h, [], e => h = e
  | h, x :: xs, e => h = some x ∧ Segment next (next x) xs e

/-- The link `h` heads a null-terminated list of these cells. -/
def IsList (next : α → Option α) (h : Option α) (xs : List α) : Prop :=
  Segment next h xs none

@[simp] theorem segment_nil (next : α → Option α) (h e : Option α) :
    Segment next h [] e ↔ h = e := Iff.rfl

@[simp] theorem segment_cons (next : α → Option α) (h e : Option α) (x : α) (xs : List α) :
    Segment next h (x :: xs) e ↔ h = some x ∧ Segment next (next x) xs e := Iff.rfl

theorem segment_append (next : α → Option α) (h e : Option α) (xs ys : List α) :
    Segment next h (xs ++ ys) e ↔ ∃ m, Segment next h xs m ∧ Segment next m ys e := by
  induction xs generalizing h with
  | nil => simp
  | cons x xs ih => simp [ih, and_assoc]

/-- A heap that agrees on the cells of the segment has the same segment. -/
theorem Segment.congr {next next' : α → Option α} {h e : Option α} {xs : List α}
    (hs : Segment next h xs e) (heq : ∀ x ∈ xs, next' x = next x) : Segment next' h xs e := by
  induction xs generalizing h with
  | nil => exact hs
  | cons x xs ih =>
    obtain ⟨hx, hs⟩ := hs
    refine ⟨hx, ?_⟩
    rw [heq x (List.mem_cons_self ..)]
    exact ih hs fun y hy => heq y (List.mem_cons_of_mem x hy)

theorem IsList.congr {next next' : α → Option α} {h : Option α} {xs : List α}
    (hl : IsList next h xs) (heq : ∀ x ∈ xs, next' x = next x) : IsList next' h xs :=
  Segment.congr hl heq

theorem IsList.head_eq {next : α → Option α} {h : Option α} {xs : List α}
    (hl : IsList next h xs) : h = xs.head? := by
  cases xs with
  | nil => exact hl
  | cons x xs => exact hl.1

theorem IsList.tail {next : α → Option α} {h : Option α} {x : α} {xs : List α}
    (hl : IsList next h (x :: xs)) : IsList next (next x) xs := hl.2

/-- The successor of a cell heads the cells that come after it. -/
theorem IsList.next_eq {next : α → Option α} {h : Option α} {xs ys : List α} {x : α}
    (hl : IsList next h (xs ++ x :: ys)) : next x = ys.head? := by
  obtain ⟨m, _, _, hs⟩ := (segment_append ..).mp hl
  exact IsList.head_eq hs

/-- The cells that a walk along `next` from the link `h` comes to. -/
inductive Reaches (next : α → Option α) (h : Option α) : α → Prop
  | head {x} : h = some x → Reaches next h x
  | next {x y} : Reaches next h x → next x = some y → Reaches next h y

theorem Reaches.cons {next : α → Option α} {h : Option α} {x y : α}
    (hx : Reaches next (next y) x) (hy : h = some y) : Reaches next h x := by
  induction hx with
  | head hz => exact .next (.head hy) hz
  | next _ hnext ih => exact .next ih hnext

/-- From the head of a null-terminated list a walk comes to its cells and no others. -/
theorem IsList.reaches_iff {next : α → Option α} {h : Option α} {xs : List α}
    (hl : IsList next h xs) (x : α) : Reaches next h x ↔ x ∈ xs := by
  constructor
  · intro hx
    induction hx with
    | head hx =>
      rw [hl.head_eq] at hx
      exact List.mem_of_head? hx
    | next _ hnext ih =>
      obtain ⟨ys, zs, rfl⟩ := List.append_of_mem ih
      rw [hl.next_eq] at hnext
      exact List.mem_append_right _ (List.mem_cons_of_mem _ (List.mem_of_head? hnext))
  · intro hx
    induction xs generalizing h with
    | nil => simp at hx
    | cons y ys ih =>
      rcases List.mem_cons.mp hx with rfl | hx
      · exact .head hl.1
      · exact (ih hl.tail hx).cons hl.1

/-! ## Queues -/

/-- The null-terminated list of these cells, with a link to the last of them. -/
structure IsFifo (next : α → Option α) (head tail : Option α) (xs : List α) : Prop where
  isList : IsList next head xs
  nodup : xs.Nodup
  tail_eq : tail = xs.getLast?

theorem IsFifo.congr {next next' : α → Option α} {head tail : Option α} {xs : List α}
    (h : IsFifo next head tail xs) (heq : ∀ x ∈ xs, next' x = next x) :
    IsFifo next' head tail xs :=
  ⟨h.isList.congr heq, h.nodup, h.tail_eq⟩

/-- A null-terminated cell is the only one. -/
theorem isFifo_singleton {next : α → Option α} {a : α} (hnull : next a = none) :
    IsFifo next (some a) (some a) [a] :=
  ⟨⟨rfl, hnull⟩, List.nodup_singleton a, rfl⟩

theorem IsFifo.eq_nil {next : α → Option α} {head : Option α} {xs : List α}
    (h : IsFifo next head none xs) : xs = [] :=
  List.getLast?_eq_none_iff.mp h.tail_eq.symm

/-- The first cell is left out; if it was the last, both links are null. -/
theorem IsFifo.pop {next : α → Option α} {head tail : Option α} {x : α} {xs : List α}
    (h : IsFifo next head tail (x :: xs)) :
    IsFifo next (next x) (if (next x).isNone then none else tail) xs := by
  refine ⟨h.isList.tail, (List.nodup_cons.mp h.nodup).2, ?_⟩
  rw [h.isList.tail.head_eq, h.tail_eq]
  cases xs with
  | nil => rfl
  | cons y ys => rw [List.getLast?_cons_cons, List.head?_cons, Option.isNone_some]; rfl

section Update

variable [DecidableEq α]

/-- Storing into a cell outside the segment leaves the segment alone. -/
theorem Segment.update_of_notMem {next : α → Option α} {h e : Option α} {xs : List α} {a : α}
    (hs : Segment next h xs e) (ha : a ∉ xs) (v : Option α) :
    Segment (Function.update next a v) h xs e := by
  apply hs.congr
  intro x hx
  have hxa : x ≠ a := by
    intro hxa
    rw [hxa] at hx
    exact ha hx
  exact Function.update_of_ne hxa v next

theorem IsList.update_of_notMem {next : α → Option α} {h : Option α} {xs : List α} {a : α}
    (hl : IsList next h xs) (ha : a ∉ xs) (v : Option α) :
    IsList (Function.update next a v) h xs :=
  Segment.update_of_notMem hl ha v

/-- Linking a null-terminated cell behind the last cell appends it. -/
theorem IsList.append_last {next : α → Option α} {h : Option α} {xs : List α} {t a : α}
    (hl : IsList next h (xs ++ [t])) (ht : t ∉ xs) (ha : a ∉ xs ++ [t]) (hnull : next a = none) :
    IsList (Function.update next t (some a)) h ((xs ++ [t]) ++ [a]) := by
  obtain ⟨m, hs, hm, _⟩ := (segment_append ..).mp hl
  have hat : a ≠ t := fun h => ha (by simp [h])
  rw [List.append_assoc]
  apply (segment_append ..).mpr
  refine ⟨m, hs.update_of_notMem ht _, hm, ?_⟩
  rw [Function.update_self]
  refine ⟨rfl, ?_⟩
  rw [Function.update_of_ne hat]
  exact hnull

/-- Redirecting the predecessor past a cell unlinks that cell. -/
theorem IsList.unlink {next : α → Option α} {h : Option α} {xs ys : List α} {p x : α}
    (hl : IsList next h (xs ++ p :: x :: ys)) (hp : p ∉ xs) (hpy : p ∉ ys) :
    IsList (Function.update next p (next x)) h (xs ++ p :: ys) := by
  obtain ⟨m, hs, hm, _, htail⟩ := (segment_append ..).mp hl
  apply (segment_append ..).mpr
  refine ⟨m, hs.update_of_notMem hp _, hm, ?_⟩
  rw [Function.update_self]
  exact Segment.update_of_notMem htail hpy _

/-- A null-terminated cell is linked behind the last one. -/
theorem IsFifo.push {next : α → Option α} {head : Option α} {xs : List α} {t a : α}
    (h : IsFifo next head (some t) xs) (ha : a ∉ xs) (hnull : next a = none) :
    t ∈ xs ∧ IsFifo (Function.update next t (some a)) head (some a) (xs ++ [a]) := by
  obtain ⟨ys, rfl⟩ := List.getLast?_eq_some_iff.mp h.tail_eq.symm
  obtain ⟨-, -, hdisj⟩ := List.nodup_append.mp h.nodup
  have ht : t ∉ ys := fun hmem => hdisj t hmem t (List.mem_singleton_self t) rfl
  refine ⟨by simp, h.isList.append_last ht ha hnull, ?_, by simp⟩
  apply List.nodup_append.mpr
  refine ⟨h.nodup, List.nodup_singleton a, ?_⟩
  intro b hb c hc hbc
  rw [hbc, List.mem_singleton.mp hc] at hb
  exact ha hb

end Update

end ECE3056.LinkedList
