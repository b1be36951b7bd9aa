import Mathlib.Algebra.BigOperators.Group.Finset.Basic
import Mathlib.Algebra.Order.BigOperators.Group.Finset
import Mathlib.Tactic

/-!
# Tallies over a finite set of places

A tally counts the places of a finite set at which a property holds, or adds up a
number over them. When a step changes one place, the tallies before and after differ
by what that place contributes. The laws are stated with a sum on both sides, so that
no truncated subtraction appears.
-/
namespace ECE3056.Tally

variable {ι : Type*} [DecidableEq ι] {s : Finset ι} {b : ι}

theorem sum_change {f g : ι → Nat} (hb : b ∈ s) (h : ∀ i ∈ s, i ≠ b → g i = f i) :
    ∑ i ∈ s, g i + f b = ∑ i ∈ s, f i + g b := by
  have hrest : ∑ i ∈ s.erase b, g i = ∑ i ∈ s.erase b, f i :=
    Finset.sum_congr rfl fun i hi => h i (Finset.mem_of_mem_erase hi) (Finset.ne_of_mem_erase hi)
  rw [← Finset.sum_erase_add s g hb, ← Finset.sum_erase_add s f hb, hrest]
  omega

/-- The number of places at which `p` holds. -/
def tally (s : Finset ι) (p : ι → Prop) [DecidablePred p] : Nat := (s.filter p).card

variable {p q : ι → Prop} [DecidablePred p] [DecidablePred q]

theorem tally_change (hb : b ∈ s) (h : ∀ i ∈ s, i ≠ b → (q i ↔ p i)) :
    tally s q + (if p b then 1 else 0) = tally s p + if q b then 1 else 0 := by
  rw [tally, tally, Finset.card_filter, Finset.card_filter]
  refine sum_change (f := fun i => if p i then 1 else 0) (g := fun i => if q i then 1 else 0) hb ?_
  intro i hi hne
  rw [if_congr (h i hi hne) rfl rfl]

omit [DecidableEq ι] in
theorem tally_mono (h : ∀ i ∈ s, q i → p i) : tally s q ≤ tally s p := by
  refine Finset.card_le_card fun i hi => ?_
  obtain ⟨hs, hq⟩ := Finset.mem_filter.mp hi
  exact Finset.mem_filter.mpr ⟨hs, h i hs hq⟩

omit [DecidableEq ι] in
theorem tally_congr (h : ∀ i ∈ s, q i ↔ p i) : tally s q = tally s p :=
  Nat.le_antisymm (tally_mono fun i hi => (h i hi).mp) (tally_mono fun i hi => (h i hi).mpr)

/-- A place at which the property no longer holds is taken off. -/
theorem tally_remove (hb : b ∈ s) (hp : p b) (h : ∀ i ∈ s, q i → p i ∧ i ≠ b) :
    tally s q + 1 ≤ tally s p := by
  have hsub : s.filter q ⊆ (s.filter p).erase b := by
    intro i hi
    obtain ⟨hs, hq⟩ := Finset.mem_filter.mp hi
    obtain ⟨hpi, hne⟩ := h i hs hq
    exact Finset.mem_erase.mpr ⟨hne, Finset.mem_filter.mpr ⟨hs, hpi⟩⟩
  have hcard := Finset.card_le_card hsub
  have hmem : b ∈ s.filter p := Finset.mem_filter.mpr ⟨hb, hp⟩
  have herase := Finset.card_erase_add_one hmem
  simp only [tally]
  omega

/-- One place at most is added. -/
theorem tally_insert (h : ∀ i ∈ s, q i → p i ∨ i = b) : tally s q ≤ tally s p + 1 := by
  have hsub : s.filter q ⊆ insert b (s.filter p) := by
    intro i hi
    obtain ⟨hs, hq⟩ := Finset.mem_filter.mp hi
    rcases h i hs hq with hpi | rfl
    · exact Finset.mem_insert_of_mem (Finset.mem_filter.mpr ⟨hs, hpi⟩)
    · exact Finset.mem_insert_self ..
  exact (Finset.card_le_card hsub).trans (Finset.card_insert_le ..)

omit [DecidableEq ι] in
/-- The places fall into those with another property and those without. -/
theorem tally_split (s : Finset ι) (p r : ι → Prop) [DecidablePred p] [DecidablePred r] :
    tally s p = (tally s fun i => p i ∧ r i) + tally s fun i => p i ∧ ¬ r i := by
  have hcard := Finset.card_filter_add_card_filter_not (s := s.filter p) r
  rw [Finset.filter_filter, Finset.filter_filter] at hcard
  exact hcard.symm

/-- The members of a list without repetition. -/
theorem tally_mem [Fintype ι] {xs : List ι} (h : xs.Nodup) :
    (tally Finset.univ fun i => i ∈ xs) = xs.length := by
  rw [← List.toFinset_card_of_nodup h, tally]
  refine congrArg Finset.card (Finset.ext fun i => ?_)
  simp

omit [DecidableEq ι] in
/-- A property of what the places are sent to, when no two are sent to one and there are no more
to be sent to. -/
theorem tally_comp {κ : Type*} {f : ι → κ} {t : Finset κ} (hmaps : ∀ i ∈ s, f i ∈ t)
    (hinj : Set.InjOn f s) (hcard : t.card ≤ s.card) (p : κ → Prop) [DecidablePred p] :
    (tally s fun i => p (f i)) = tally t p := by
  have hsurj := Finset.surjOn_of_injOn_of_card_le f hmaps hinj hcard
  refine Finset.card_nbij f ?_ (hinj.mono (Finset.coe_subset.mpr (Finset.filter_subset ..))) ?_
  · intro i hi
    obtain ⟨hs, hp⟩ := Finset.mem_filter.mp hi
    exact Finset.mem_filter.mpr ⟨hmaps i hs, hp⟩
  · intro k hk
    obtain ⟨ht, hp⟩ := Finset.mem_filter.mp hk
    obtain ⟨i, hi, rfl⟩ := hsurj ht
    exact ⟨i, Finset.mem_filter.mpr ⟨hi, hp⟩, rfl⟩

omit [DecidableEq ι] in
/-- When a place is known by two coordinates, each value of the first is that of as many places as
the second has values. -/
theorem tally_coordinate {α β : Type*} [DecidableEq α] {f : ι → α × β} {t : Finset α}
    {u : Finset β} (hmaps : ∀ i ∈ s, f i ∈ t ×ˢ u) (hinj : Set.InjOn f s)
    (hcard : t.card * u.card ≤ s.card) {v : α} (hv : v ∈ t) :
    (tally s fun i => (f i).1 = v) = u.card := by
  rw [tally_comp hmaps hinj (by rwa [Finset.card_product]) fun z => z.1 = v, tally]
  refine Finset.card_nbij Prod.snd ?_ ?_ ?_
  · intro z hz
    exact (Finset.mem_product.mp (Finset.mem_filter.mp hz).1).2
  · intro z hz z' hz' heq
    have h := (Finset.mem_filter.mp hz).2
    have h' := (Finset.mem_filter.mp hz').2
    exact Prod.ext (h.trans h'.symm) heq
  · intro b hb
    exact ⟨(v, b), Finset.mem_filter.mpr ⟨Finset.mem_product.mpr ⟨hv, hb⟩, rfl⟩, rfl⟩

omit [DecidableEq ι] in
/-- When each value is that of `m` places, so many places have one with the property. -/
theorem tally_fibers {α : Type*} [DecidableEq α] {f : ι → α} {t : Finset α} {m : Nat}
    (hmaps : ∀ i ∈ s, f i ∈ t) (hm : ∀ v ∈ t, (tally s fun i => f i = v) = m) (p : α → Prop)
    [DecidablePred p] : (tally s fun i => p (f i)) = m * tally t p := by
  have hfilter : ∀ i ∈ s.filter fun i => p (f i), f i ∈ t.filter p := by
    intro i hi
    obtain ⟨hs, hp⟩ := Finset.mem_filter.mp hi
    exact Finset.mem_filter.mpr ⟨hmaps i hs, hp⟩
  have hfiber : ∀ v ∈ t.filter p,
      ((s.filter fun i => p (f i)).filter fun i => f i = v).card = m := by
    intro v hv
    obtain ⟨ht, hp⟩ := Finset.mem_filter.mp hv
    rw [← hm v ht, tally, Finset.filter_filter]
    refine congrArg Finset.card (Finset.filter_congr fun i _ => ?_)
    exact ⟨fun h => h.2, fun h => ⟨h ▸ hp, h⟩⟩
  rw [tally, tally, Finset.card_eq_sum_card_fiberwise hfilter, Finset.sum_congr rfl hfiber,
    Finset.sum_const, smul_eq_mul, Nat.mul_comm]

/-- Half of the numbers are odd. -/
theorem tally_odd (m : Nat) : (tally (Finset.range (2 * m)) fun i => i % 2 ≠ 0) = m := by
  have hcoordinate := tally_coordinate (s := Finset.range (2 * m)) (t := Finset.range 2)
    (u := Finset.range m) (f := fun i => (i % 2, i / 2)) (v := 1)
    (fun i hi => ?_) (fun i _ j _ hij => ?_) ?_ (by decide)
  · rw [Finset.card_range] at hcoordinate
    exact (tally_congr fun i _ => Nat.mod_two_ne_zero).trans hcoordinate
  · rw [Finset.mem_range] at hi
    simp only [Finset.mem_product, Finset.mem_range]
    omega
  · obtain ⟨hmod, hdiv⟩ := Prod.mk.inj hij
    omega
  · rw [Finset.card_range, Finset.card_range, Finset.card_range]

omit [DecidableEq ι] in
/-- When each word of `n` bits is that of equally many places, half of the places have an odd
one. -/
theorem tally_words_odd {f : ι → Nat} {m n k : Nat} (hn : n = k + 1)
    (hmaps : ∀ i ∈ s, f i ∈ Finset.range (2 ^ n))
    (hm : ∀ v ∈ Finset.range (2 ^ n), (tally s fun i => f i = v) = m) :
    (tally s fun i => f i % 2 ≠ 0) = m * 2 ^ k := by
  have hodd := tally_odd (2 ^ k)
  rw [← pow_succ', ← hn] at hodd
  rw [tally_fibers hmaps hm fun v => v % 2 ≠ 0, hodd]

/-! ## The places of a table -/

/-- The places of a table of `m` rows and `n` columns. It is irreducible, so that nothing lists
the places of a large one. -/
@[irreducible] def grid (m n : Nat) : Finset (Nat × Nat) := Finset.range m ×ˢ Finset.range n

theorem mem_grid {m n : Nat} {x : Nat × Nat} : x ∈ grid m n ↔ x.1 < m ∧ x.2 < n := by
  rw [grid, Finset.mem_product, Finset.mem_range, Finset.mem_range]

end ECE3056.Tally
