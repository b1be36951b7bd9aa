import ECE3056.Library.Recency
import ECE3056.Cache.Cachesim

/-!
# A set of the L2 cache represents a recency list

The counters of the ways in use are a permutation of 0..ways-1. Read from the
largest down they order the ways by recency, and the valid ways come first in
that order. The preservation lemma covers hits and refills at once: promoting a
way moves its entry to the front of the list.
-/
namespace ECE3056.Cache

open Recency (Entries access tags position tags_eraseIdx)

/-- What a slot must hold to stand for an entry, or for an unfilled way. -/
def SlotHolds (cache : L2CacheStruct) (j : Fin 128) : Option (Addr × Bool) → Prop
  | some (t, d) => cache.validBit j = 1 ∧ cache.tag j = t ∧ cache.dirtyBit j = if d then 1 else 0
  | none => cache.validBit j = 0 ∧ cache.dirtyBit j = 0

/-- The number of ways used more recently than way `j`. -/
def rank (ways : Nat) (cache : L2CacheStruct) (j : Fin 128) : Nat :=
  ((ways : Int) - 1 - cache.lruCounter j).toNat

structure Represents (ways : Nat) (cache : L2CacheStruct) (entries : Entries Addr) : Prop where
  counter_mem : ∀ j : Fin 128, j.val < ways → 0 ≤ cache.lruCounter j ∧ cache.lruCounter j < ways
  counter_inj : ∀ i j : Fin 128, i.val < ways → j.val < ways →
    cache.lruCounter i = cache.lruCounter j → i = j
  unused : ∀ j : Fin 128, ways ≤ j.val → cache.tag j = -1 ∧ cache.validBit j = -1 ∧
    cache.dirtyBit j = -1 ∧ cache.lruCounter j = -1
  length_le : entries.length ≤ ways
  nodup : (tags entries).Nodup
  slot : ∀ j : Fin 128, j.val < ways → SlotHolds cache j entries[rank ways cache j]?

/-- The set that `cachesim_init` builds represents the empty list. -/
theorem represents_init (c : Config) : Represents c.l2Ways (initSet c) [] := by
  constructor
  · intro j hj
    simp only [initSet, hj, ↓reduceIte]
    omega
  · intro i j hi hj h
    simp only [initSet, hi, hj, ↓reduceIte] at h
    exact Fin.ext (by exact_mod_cast h)
  · intro j hj
    simp [initSet, Nat.not_lt.mpr hj]
  · simp
  · simp [tags]
  · intro j hj
    simp [SlotHolds, initSet, hj]

/-! ## The ageing loop -/

theorem ageSlot_self (b : Fin 128) (lru : Fin 128 → Int) (i : Fin 128) :
    ageSlot b lru i b = lru b := by
  unfold ageSlot
  split_ifs with h1 h2
  · have hne : b ≠ i := by rintro rfl; exact lt_irrefl _ h2
    rw [Function.update_of_ne hne]
  · rfl
  · rfl

theorem foldl_ageSlot (b : Fin 128) (l : List (Fin 128)) (hl : l.Nodup) (lru : Fin 128 → Int)
    (j : Fin 128) :
    l.foldl (ageSlot b) lru j =
      if j ∈ l ∧ lru j ≠ -1 ∧ lru b < lru j then lru j - 1 else lru j := by
  induction l generalizing lru with
  | nil => simp
  | cons i l ih =>
    obtain ⟨hi, hl⟩ := List.nodup_cons.mp hl
    rw [List.foldl_cons, ih hl, ageSlot_self]
    by_cases hij : j = i
    · subst hij
      unfold ageSlot
      by_cases h1 : lru j = -1 <;> by_cases h2 : lru b < lru j <;> simp [hi, h1, h2]
    · have hkeep : ageSlot b lru i j = lru j := by
        unfold ageSlot
        split_ifs <;> simp [hij]
      simp [hkeep, hij]

theorem setLRUCounter_apply (c : Config) (cache : L2CacheStruct) (b j : Fin 128) :
    (setLRUCounter c cache b).lruCounter j =
      if j = b then (c.l2Ways : Int) - 1
      else if cache.lruCounter j ≠ -1 ∧ cache.lruCounter b < cache.lruCounter j then
        cache.lruCounter j - 1
      else cache.lruCounter j := by
  simp only [setLRUCounter, Function.update_apply, Config.maxLRU]
  split_ifs with hj h2 <;> simp_all [foldl_ageSlot, List.nodup_finRange]

section
variable {ways : Nat} {cache : L2CacheStruct} {entries : Entries Addr}

theorem Represents.rank_lt (h : Represents ways cache entries) {j : Fin 128} (hj : j.val < ways) :
    rank ways cache j < ways := by
  have hc := h.counter_mem j hj
  unfold rank
  omega

/-- Every position of the recency order is some way's. -/
theorem Represents.exists_rank (h : Represents ways cache entries) (hw : ways ≤ 128) {k : Nat}
    (hk : k < ways) : ∃ j : Fin 128, j.val < ways ∧ rank ways cache j = k := by
  let f : Fin ways → Fin ways := fun j =>
    ⟨rank ways cache ⟨j.val, by omega⟩, h.rank_lt j.isLt⟩
  have hinj : Function.Injective f := by
    intro i j hij
    have hr : rank ways cache ⟨i.val, by omega⟩ = rank ways cache ⟨j.val, by omega⟩ :=
      congrArg Fin.val hij
    have hci := h.counter_mem ⟨i.val, by omega⟩ i.isLt
    have hcj := h.counter_mem ⟨j.val, by omega⟩ j.isLt
    have hc := h.counter_inj ⟨i.val, by omega⟩ ⟨j.val, by omega⟩ i.isLt j.isLt
      (by unfold rank at hr; omega)
    exact Fin.ext (by simpa using hc)
  obtain ⟨j, hj⟩ := Finite.surjective_of_injective hinj ⟨k, hk⟩
  exact ⟨⟨j.val, by omega⟩, j.isLt, congrArg Fin.val hj⟩

/-- Promoting way `b` after writing `(t, d)` into it moves the entry at its rank to
the front. At the last rank of a set that is not full nothing is dropped. -/
theorem Represents.promote {c : Config} (h : Represents c.l2Ways cache entries)
    {filled : L2CacheStruct} {b : Fin 128} (hb : b.val < c.l2Ways) {t : Addr} {d : Bool}
    (hlru : filled.lruCounter = cache.lruCounter)
    (hsame : ∀ j, j ≠ b → filled.tag j = cache.tag j ∧ filled.validBit j = cache.validBit j ∧
      filled.dirtyBit j = cache.dirtyBit j)
    (hslot : SlotHolds filled b (some (t, d)))
    (hfresh : t ∉ tags (entries.eraseIdx (rank c.l2Ways cache b))) :
    Represents c.l2Ways (setLRUCounter c filled b)
      ((t, d) :: entries.eraseIdx (rank c.l2Ways cache b)) := by
  have hcb := h.counter_mem b hb
  have hage : ∀ j, (setLRUCounter c filled b).lruCounter j =
      if j = b then (c.l2Ways : Int) - 1
      else if cache.lruCounter j ≠ -1 ∧ cache.lruCounter b < cache.lruCounter j then
        cache.lruCounter j - 1
      else cache.lruCounter j := by
    intro j; rw [setLRUCounter_apply, hlru]
  constructor
  · intro j hj
    have hcj := h.counter_mem j hj
    rw [hage]
    split_ifs <;> omega
  · intro i j hi hj hij
    have hci := h.counter_mem i hi
    have hcj := h.counter_mem j hj
    have hbi := fun e => h.counter_inj i b hi hb e
    have hbj := fun e => h.counter_inj j b hj hb e
    have hinj := fun e => h.counter_inj i j hi hj e
    rw [hage, hage] at hij
    by_cases hib : i = b <;> by_cases hjb : j = b
    · rw [hib, hjb]
    · rw [if_pos hib, if_neg hjb] at hij
      split_ifs at hij <;> omega
    · rw [if_neg hib, if_pos hjb] at hij
      split_ifs at hij <;> omega
    · rw [if_neg hib, if_neg hjb] at hij
      have hnei : cache.lruCounter i ≠ cache.lruCounter b := fun e => hib (hbi e)
      have hnej : cache.lruCounter j ≠ cache.lruCounter b := fun e => hjb (hbj e)
      apply hinj
      split_ifs at hij <;> omega
  · intro j hj
    have hjb : j ≠ b := by rintro rfl; omega
    obtain ⟨ht, hv, hd⟩ := hsame j hjb
    obtain ⟨ht', hv', hd', hl'⟩ := h.unused j hj
    refine ⟨ht.trans ht', hv.trans hv', hd.trans hd', ?_⟩
    rw [hage, if_neg hjb, if_neg (by simp [hl'])]
    exact hl'
  · have hr := h.rank_lt hb
    have hl := h.length_le
    rw [List.length_cons, List.length_eraseIdx]
    split_ifs <;> omega
  · refine List.nodup_cons.mpr ⟨hfresh, ?_⟩
    have hsub := h.nodup.sublist (List.eraseIdx_sublist _ (rank c.l2Ways cache b))
    rwa [← tags_eraseIdx] at hsub
  · intro j hj
    by_cases hjb : j = b
    · have hr : rank c.l2Ways (setLRUCounter c filled b) j = 0 := by
        unfold rank; rw [hage, if_pos hjb]; omega
      rw [hr, hjb]
      exact hslot
    · have hcj := h.counter_mem j hj
      have hne : cache.lruCounter j ≠ cache.lruCounter b :=
        fun e => hjb (h.counter_inj j b hj hb e)
      have hold := h.slot j hj
      have hget : ((t, d) :: entries.eraseIdx (rank c.l2Ways cache b))[rank c.l2Ways
          (setLRUCounter c filled b) j]? = entries[rank c.l2Ways cache j]? := by
        by_cases hlt : cache.lruCounter b < cache.lruCounter j
        · have hr : rank c.l2Ways (setLRUCounter c filled b) j = rank c.l2Ways cache j + 1 := by
            unfold rank; rw [hage, if_neg hjb, if_pos ⟨by omega, hlt⟩]; omega
          rw [hr, List.getElem?_cons_succ, List.getElem?_eraseIdx_of_lt (by unfold rank; omega)]
        · have hr : rank c.l2Ways (setLRUCounter c filled b) j = rank c.l2Ways cache j - 1 + 1 := by
            unfold rank; rw [hage, if_neg hjb, if_neg (fun e => hlt e.2)]; omega
          rw [hr, List.getElem?_cons_succ, List.getElem?_eraseIdx_of_ge (by unfold rank; omega)]
          congr 1
          unfold rank; omega
      obtain ⟨ht, hv, hd⟩ := hsame j hjb
      rw [hget]
      cases he : entries[rank c.l2Ways cache j]? with
      | none =>
        rw [he] at hold
        exact ⟨hv.trans hold.1, hd.trans hold.2⟩
      | some e =>
        rw [he] at hold
        exact ⟨hv.trans hold.1, ht.trans hold.2.1, hd.trans hold.2.2⟩

end

end ECE3056.Cache
