import Mathlib.Data.List.Basic
import Mathlib.Tactic

/-!
# Histories of a partial step function

A history is the list of inputs consumed so far, oldest first. Invariants may
mention the history, so that a statement about a state can be one about
everything that led to it.
-/
namespace ECE3056.History

variable {σ β : Type*}

/-- Where an item of an extended list can stand: at its very end, or inside the old list. -/
theorem concat_eq_append_cons {l b a : List β} {x y : β} (h : l ++ [x] = b ++ y :: a) :
    (a = [] ∧ l = b ∧ x = y) ∨ ∃ a', a = a' ++ [x] ∧ l = b ++ y :: a' := by
  rcases List.eq_nil_or_concat' a with rfl | ⟨a', z, rfl⟩
  · obtain ⟨rfl, he⟩ := List.append_inj' h rfl
    exact Or.inl ⟨rfl, rfl, by simpa using he⟩
  · rw [← List.cons_append, ← List.append_assoc] at h
    obtain ⟨rfl, he⟩ := List.append_inj' h rfl
    obtain rfl : x = z := by simpa using he
    exact Or.inr ⟨a', rfl, rfl⟩

/-- A step that always succeeds and keeps an invariant of history and state
carries it to the end of every history. -/
theorem run_invariant {step : σ → β → Option σ} {I : List β → σ → Prop} {init : σ}
    (hinit : I [] init)
    (hstep : ∀ history s a, I history s → ∃ s', step s a = some s' ∧ I (history ++ [a]) s')
    (history : List β) : ∃ s, history.foldlM step init = some s ∧ I history s := by
  induction history using List.reverseRecOn with
  | nil => exact ⟨init, rfl, hinit⟩
  | append_singleton history a ih =>
    obtain ⟨s, hs, hinv⟩ := ih
    obtain ⟨s', hs', hinv'⟩ := hstep history s a hinv
    refine ⟨s', ?_, hinv'⟩
    rw [List.foldlM_append, hs]
    simp [hs']

/-- A step that keeps an invariant whenever it succeeds carries it through every history that
runs to its end. -/
theorem run_keeps {step : σ → β → Option σ} {I : List β → σ → Prop} {init : σ}
    (hinit : I [] init)
    (hstep : ∀ history s a s', I history s → step s a = some s' → I (history ++ [a]) s')
    {history : List β} {s : σ} (hrun : history.foldlM step init = some s) : I history s := by
  induction history using List.reverseRecOn generalizing s with
  | nil =>
    obtain rfl := Option.some.inj hrun
    exact hinit
  | append_singleton history a ih =>
    rw [List.foldlM_append] at hrun
    obtain ⟨t, ht, hlast⟩ := Option.bind_eq_some_iff.mp hrun
    rw [List.foldlM_cons] at hlast
    obtain ⟨u, hu, hnil⟩ := Option.bind_eq_some_iff.mp hlast
    obtain rfl := Option.some.inj hnil
    exact hstep history t a u (ih ht) hu

/-- The number of steps of a history at which `p` holds of the past and the new item. -/
def countSteps (p : List β → β → Bool) (history : List β) : Nat :=
  (List.range history.length).countP fun i =>
    match history[i]? with
    | some a => p (history.take i) a
    | none => false

theorem countSteps_concat (p : List β → β → Bool) (history : List β) (a : β) :
    countSteps p (history ++ [a]) = countSteps p history + if p history a then 1 else 0 := by
  rw [countSteps, List.length_append, List.length_singleton, List.range_succ, List.countP_append]
  congr 1
  · apply List.countP_congr
    intro i hi
    have hlt : i < history.length := List.mem_range.mp hi
    rw [List.getElem?_append_left hlt, List.take_append_of_le_length hlt.le]
  · simp [List.countP_singleton]

theorem countSteps_mono {p q : List β → β → Bool} (h : ∀ past a, p past a = true → q past a = true)
    (history : List β) : countSteps p history ≤ countSteps q history := by
  induction history using List.reverseRecOn with
  | nil => exact le_rfl
  | append_singleton history a ih =>
    rw [countSteps_concat, countSteps_concat]
    have ha := h history a
    split_ifs with hp hq
    · omega
    · exact absurd (ha hp) hq
    · omega
    · omega

end ECE3056.History
