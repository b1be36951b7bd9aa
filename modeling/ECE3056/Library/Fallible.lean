import Mathlib.Data.List.Range

/-!
# Computations that can fail

Evaluation rules for `Except`, pre- and postconditions of computations in it, and
the induction rule for a loop that counts upwards and may stop with an error.
-/

namespace ECE3056.Fallible

universe u v

variable {ε : Type u} {α β σ : Type v}

@[simp] theorem pure_eq_ok (a : α) : (pure a : Except ε α) = .ok a := rfl

@[simp] theorem ok_bind (a : α) (f : α → Except ε β) : (Except.ok a >>= f) = f a := rfl

@[simp] theorem error_bind (e : ε) (f : α → Except ε β) :
    ((Except.error e : Except ε α) >>= f) = .error e := rfl

theorem bind_eq_ok_iff {x : Except ε α} {f : α → Except ε β} {b : β} :
    x >>= f = .ok b ↔ ∃ a, x = .ok a ∧ f a = .ok b := by
  cases x with
  | error e => simp
  | ok a => simp

/-! ## Postconditions -/

/-- The computation stops with an error of the kind `E`, or ends in a result with the property
`P`. -/
def Ends (E : ε → Prop) (x : Except ε α) (P : α → Prop) : Prop :=
  (∃ e, x = .error e ∧ E e) ∨ ∃ a, x = .ok a ∧ P a

namespace Ends

variable {E : ε → Prop} {x : Except ε α} {P Q : α → Prop}

theorem error {e : ε} (h : E e) : Ends E (.error e) P := .inl ⟨e, rfl, h⟩

theorem ok {a : α} (h : P a) : Ends E (.ok a) P := .inr ⟨a, rfl, h⟩

theorem total (x : Except ε α) : Ends (fun _ => True) x fun _ => True := by
  cases x with
  | error e => exact error trivial
  | ok a => exact ok trivial

/-- What is said of the results alone may be added, and weakened. -/
theorem mono (h : Ends E x P) (himp : ∀ a, x = .ok a → P a → Q a) : Ends E x Q := by
  rcases h with h | ⟨a, hx, ha⟩
  · exact .inl h
  · exact .inr ⟨a, hx, himp a hx ha⟩

theorem bind {f : α → Except ε β} {R : β → Prop} (h : Ends E x P) (hf : ∀ a, P a → Ends E (f a) R) :
    Ends E (x >>= f) R := by
  rcases h with ⟨e, rfl, he⟩ | ⟨a, rfl, ha⟩
  · exact error he
  · exact hf a ha

/-- A counting loop whose step `i` takes the invariant at `i` to the invariant at `i + 1`. -/
theorem foldlM_range (step : σ → Nat → Except ε σ) (I : Nat → σ → Prop) {s : σ} (n : Nat)
    (hstep : ∀ i s, i < n → I i s → Ends E (step s i) (I (i + 1))) (hinit : I 0 s) :
    Ends E ((List.range n).foldlM step s) (I n) := by
  induction n with
  | zero => exact ok hinit
  | succ n ih =>
    rw [List.range_succ, List.foldlM_append]
    refine (ih fun i s hi => hstep i s (Nat.lt_succ_of_lt hi)).bind fun s₁ h₁ => ?_
    rw [List.foldlM_cons]
    exact (hstep n s₁ (Nat.lt_succ_self n) h₁).bind fun s₂ h₂ => ok h₂

end Ends

/-- A counting loop whose steps do not fail runs to its end. -/
theorem foldlM_range_invariant (step : σ → Nat → Except ε σ) (I : Nat → σ → Prop) {s : σ} (n : Nat)
    (hstep : ∀ i s, i < n → I i s → ∃ s', step s i = .ok s' ∧ I (i + 1) s') (hinit : I 0 s) :
    ∃ s', (List.range n).foldlM step s = .ok s' ∧ I n s' := by
  have hrun : Ends (fun _ => False) ((List.range n).foldlM step s) (I n) := by
    refine Ends.foldlM_range step I n ?_ hinit
    intro i s hi h
    obtain ⟨s', hs', h'⟩ := hstep i s hi h
    exact .inr ⟨s', hs', h'⟩
  rcases hrun with ⟨e, -, hno⟩ | hrun
  · exact hno.elim
  · exact hrun

/-- A counting loop fails with the first step that fails. -/
theorem foldlM_range_error {step : σ → Nat → Except ε σ} {s s' : σ} {e : ε} {i n : Nat} (hi : i < n)
    (hrun : (List.range i).foldlM step s = .ok s') (herr : step s' i = .error e) :
    (List.range n).foldlM step s = .error e := by
  induction n with
  | zero => exact absurd hi (Nat.not_lt_zero i)
  | succ n ih =>
    rw [List.range_succ, List.foldlM_append]
    rcases Nat.lt_succ_iff_lt_or_eq.mp hi with hlt | rfl
    · rw [ih hlt]
      rfl
    · rw [hrun, ok_bind, List.foldlM_cons, herr]
      rfl

/-- Two counting loops agree when their steps agree wherever the invariant holds. -/
theorem foldlM_range_congr {E : ε → Prop} {step step' : σ → Nat → Except ε σ}
    (I : Nat → σ → Prop) {s : σ} (n : Nat)
    (hstep : ∀ i s, i < n → I i s → Ends E (step s i) (I (i + 1)) ∧ step' s i = step s i)
    (hinit : I 0 s) : (List.range n).foldlM step' s = (List.range n).foldlM step s := by
  induction n with
  | zero => rfl
  | succ n ih =>
    have hbelow := fun i s (hi : i < n) => hstep i s (Nat.lt_succ_of_lt hi)
    rw [List.range_succ, List.foldlM_append, List.foldlM_append, ih hbelow]
    rcases Ends.foldlM_range step I n (fun i s hi h => (hbelow i s hi h).1) hinit with
      ⟨e, hrun, -⟩ | ⟨s₁, hrun, h₁⟩
    · rw [hrun]
      rfl
    · rw [hrun, ok_bind, ok_bind, List.foldlM_cons, List.foldlM_cons,
        (hstep n s₁ (Nat.lt_succ_self n) h₁).2]
      rfl

end ECE3056.Fallible
