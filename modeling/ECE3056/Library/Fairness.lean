import Mathlib.Order.Basic
import Mathlib.Tactic

/-!
# Fair runs

An infinite run of a transition system in which several parties take turns; nobody
may move at all for a while. A party is treated fairly if it moves again and again
whenever it is enabled again and again. The rules lead from what single turns do to
what happens in the end.
-/

namespace ECE3056.Fairness

variable {σ τ : Type*} {step : σ → τ → σ → Prop}

/-- At time `i` party `turn i` moves, or nobody. -/
structure Trace (step : σ → τ → σ → Prop) where
  state : ℕ → σ
  turn : ℕ → Option τ
  next : ∀ i, turn i = none ∧ state (i + 1) = state i ∨
    ∃ t, turn i = some t ∧ step (state i) t (state (i + 1))

namespace Trace

variable {r : Trace step} {P Q : ℕ → Prop} {f : ℕ → ℕ} {n : ℕ} {t : τ}

/-- Nobody ever moves. -/
def still (s : σ) : Trace step where
  state _ := s
  turn _ := none
  next _ := .inl ⟨rfl, rfl⟩

/-- One more move at the front. -/
def cons {s : σ} (r : Trace step) (h : step s t (r.state 0)) : Trace step where
  state
    | 0 => s
    | i + 1 => r.state i
  turn
    | 0 => some t
    | i + 1 => r.turn i
  next
    | 0 => .inr ⟨t, rfl, h⟩
    | i + 1 => r.next i

/-- A party that is enabled again and again moves again and again. -/
def Fair (r : Trace step) (enabled : σ → τ → Prop) (t : τ) : Prop :=
  (∀ n, ∃ i ≥ n, enabled (r.state i) t) → ∀ n, ∃ i ≥ n, r.turn i = some t

/-- A party that cannot move any more is treated fairly. -/
theorem fair_of_disabled {enabled : σ → τ → Prop} (h : ∀ i ≥ n, ¬ enabled (r.state i) t) :
    r.Fair enabled t := by
  intro hagain
  obtain ⟨i, hi, henabled⟩ := hagain n
  exact absurd henabled (h i hi)

/-- What every turn keeps, every time keeps. -/
theorem stable {p : σ → Prop} (h : p (r.state n))
    (hstep : ∀ i ≥ n, ∀ t, p (r.state i) → step (r.state i) t (r.state (i + 1)) →
      p (r.state (i + 1))) : ∀ i ≥ n, p (r.state i) := by
  intro i hi
  induction i, hi using Nat.le_induction with
  | base => exact h
  | succ i hi ih =>
    rcases r.next i with ⟨-, hsame⟩ | ⟨t, -, hmove⟩
    · rw [hsame]
      exact ih
    · exact hstep i hi t ih hmove

/-- A fair party moves in the end, when the others leave things so that it is enabled again and
again. -/
theorem taken {p : σ → Prop} {enabled : σ → τ → Prop} (hfair : r.Fair enabled t)
    (h : p (r.state n))
    (hstay : ∀ i ≥ n, ∀ u, u ≠ t → p (r.state i) → step (r.state i) u (r.state (i + 1)) →
      p (r.state (i + 1)))
    (henabled : (∀ i ≥ n, p (r.state i)) → ∀ m, ∃ i ≥ m, enabled (r.state i) t) :
    ∃ i ≥ n, r.turn i = some t ∧ p (r.state i) ∧ step (r.state i) t (r.state (i + 1)) := by
  have hmove : ∀ i, r.turn i = some t → step (r.state i) t (r.state (i + 1)) := by
    intro i hi
    rcases r.next i with ⟨hnone, -⟩ | ⟨u, hu, hstep⟩
    · simp [hi] at hnone
    · obtain rfl : t = u := Option.some_inj.mp (hi.symm.trans hu)
      exact hstep
  by_contra hnever
  have hall : ∀ i ≥ n, p (r.state i) := by
    intro i hi
    induction i, hi using Nat.le_induction with
    | base => exact h
    | succ i hi ih =>
      rcases r.next i with ⟨-, hsame⟩ | ⟨u, hu, hstep⟩
      · rw [hsame]
        exact ih
      · refine hstay i hi u ?_ ih hstep
        rintro rfl
        exact hnever ⟨i, hi, hu, ih, hstep⟩
  obtain ⟨i, hi, hturn⟩ := hfair (henabled hall) n
  exact hnever ⟨i, hi, hturn, hall i hi, hmove i hturn⟩

end Trace

/-- What comes true, or comes closer to being true, comes true in the end. -/
theorem leads_to {P Q : ℕ → Prop} {f : ℕ → ℕ}
    (h : ∀ n, P n → ∃ m ≥ n, Q m ∨ P m ∧ f m < f n) {n : ℕ} (hn : P n) : ∃ m ≥ n, Q m := by
  obtain ⟨k, hk⟩ : ∃ k, f n ≤ k := ⟨_, le_rfl⟩
  induction k generalizing n with
  | zero =>
    obtain ⟨m, hm, hq | ⟨-, hlt⟩⟩ := h n hn
    · exact ⟨m, hm, hq⟩
    · omega
  | succ k ih =>
    obtain ⟨m, hm, hq | ⟨hp, hlt⟩⟩ := h n hn
    · exact ⟨m, hm, hq⟩
    · obtain ⟨l, hl, hq⟩ := ih hp (by omega)
      exact ⟨l, hm.trans hl, hq⟩

/-- A number that never grows stops changing. -/
theorem settles {f : ℕ → ℕ} {n : ℕ} (h : ∀ i ≥ n, f (i + 1) ≤ f i) :
    ∃ m ≥ n, ∀ i ≥ m, f i = f m := by
  have hmono : ∀ m ≥ n, ∀ i ≥ m, f i ≤ f m := by
    intro m hm i hi
    induction i, hi using Nat.le_induction with
    | base => exact le_rfl
    | succ i hi ih => exact (h i (hm.trans hi)).trans ih
  obtain ⟨m, hm, hstay⟩ := leads_to (P := fun m => n ≤ m) (f := f) (n := n)
    (Q := fun m => n ≤ m ∧ ∀ i ≥ m, f i = f m) (by
      intro m hm
      by_cases hall : ∀ i ≥ m, f i = f m
      · exact ⟨m, le_rfl, .inl ⟨hm, hall⟩⟩
      · push Not at hall
        obtain ⟨i, hi, hne⟩ := hall
        have hle := hmono m hm i hi
        exact ⟨i, hi, .inr ⟨hm.trans hi, by omega⟩⟩) le_rfl
  exact ⟨m, hm, hstay.2⟩

end ECE3056.Fairness
