import Mathlib.Data.Sum.Basic
import Mathlib.Logic.Function.Basic
import ECE3056.Library.Tally

/-!
# Custody of tokens

Tokens move between hands and resting places. `place` says where each token is,
and a hand holds a token exactly when the token is in that hand; so no two hands
hold one token. The lemmas say how a token is put down and picked up.
-/

namespace ECE3056.Custody

open ECE3056.Tally

variable {τ θ ρ : Type*}

/-- The hands hold what `place` says. -/
def Keeps (hand : θ → Option τ) (place : τ → θ ⊕ ρ) : Prop :=
  ∀ h t, hand h = some t ↔ place t = .inl h

variable {hand hand' : θ → Option τ} {place : τ → θ ⊕ ρ}

/-- No two hands hold the same token. -/
theorem Keeps.hand_inj (hc : Keeps hand place) {h h' : θ} {t : τ} (hh : hand h = some t)
    (hh' : hand h' = some t) : h = h' :=
  Sum.inl_injective (((hc h t).mp hh).symm.trans ((hc h' t).mp hh'))

theorem Keeps.congr (hc : Keeps hand place) (heq : ∀ h, hand' h = hand h) :
    Keeps hand' place := by
  intro h t
  rw [heq h]
  exact hc h t

variable [DecidableEq τ] [DecidableEq θ]

theorem Keeps.putDown (hc : Keeps hand place) {h : θ} {t : τ} (ht : hand h = some t) (r : ρ)
    (hself : hand' h = none) (hother : ∀ g, g ≠ h → hand' g = hand g) :
    Keeps hand' (Function.update place t (.inr r)) := by
  intro g u
  by_cases hg : g = h
  · rw [hg, hself]
    constructor
    · intro hu
      simp at hu
    · intro hu
      by_cases hut : u = t
      · simp [hut] at hu
      · rw [Function.update_of_ne hut] at hu
        exact absurd (Option.some_inj.mp (((hc h u).mpr hu).symm.trans ht)) hut
  · rw [hother g hg, hc g u]
    by_cases hut : u = t
    · rw [hut, Function.update_self, (hc h t).mp ht]
      simp [Ne.symm hg]
    · rw [Function.update_of_ne hut]

theorem Keeps.pickUp (hc : Keeps hand place) {h : θ} {t : τ} {r : ρ} (ht : place t = .inr r)
    (hempty : hand h = none) (hself : hand' h = some t)
    (hother : ∀ g, g ≠ h → hand' g = hand g) :
    Keeps hand' (Function.update place t (.inl h)) := by
  intro g u
  by_cases hg : g = h
  · rw [hg, hself]
    by_cases hut : u = t
    · simp [hut]
    · rw [Function.update_of_ne hut, ← hc h u, hempty]
      simp [Ne.symm hut]
  · rw [hother g hg, hc g u]
    by_cases hut : u = t
    · rw [hut, Function.update_self, ht]
      simp [Ne.symm hg]
    · rw [Function.update_of_ne hut]

/-! ## Counting -/

omit [DecidableEq τ] [DecidableEq θ] in
/-- There are as many tokens in hand as hands that hold one; so too of one kind of tokens. -/
theorem Keeps.tally_hands [Fintype τ] [Fintype θ] (hc : Keeps hand place) (P : τ → Prop)
    [DecidablePred P] [DecidablePred fun h => ∃ t, hand h = some t ∧ P t] :
    (tally Finset.univ fun t => P t ∧ (place t).isLeft = true) =
      tally Finset.univ fun h => ∃ t, hand h = some t ∧ P t := by
  have hleft : ∀ t, (place t).isLeft = true → ∃ h, hand h = some t := by
    intro t ht
    obtain ⟨h, hh⟩ := Sum.isLeft_iff.mp ht
    exact ⟨h, (hc h t).mpr hh⟩
  symm
  refine Finset.card_bij (fun h hh => (hand h).get ?_) ?_ ?_ ?_
  · obtain ⟨t, ht, -⟩ := (Finset.mem_filter.mp hh).2
    exact Option.isSome_iff_exists.mpr ⟨t, ht⟩
  · intro h hh
    obtain ⟨t, ht, hP⟩ := (Finset.mem_filter.mp hh).2
    simp only [ht, Option.get_some, Finset.mem_filter, Finset.mem_univ, true_and]
    exact ⟨hP, by rw [(hc h t).mp ht]; rfl⟩
  · intro h hh g hg heq
    obtain ⟨t, ht, -⟩ := (Finset.mem_filter.mp hh).2
    obtain ⟨u, hu, -⟩ := (Finset.mem_filter.mp hg).2
    simp only [ht, hu, Option.get_some] at heq
    exact hc.hand_inj ht (heq ▸ hu)
  · intro t ht
    obtain ⟨-, hP, hin⟩ := Finset.mem_filter.mp ht
    obtain ⟨h, hh⟩ := hleft t hin
    exact ⟨h, Finset.mem_filter.mpr ⟨Finset.mem_univ h, t, hh, hP⟩, by simp [hh]⟩

end ECE3056.Custody
