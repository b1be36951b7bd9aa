import ECE3056.Library.Tally
import ECE3056.Cache.Geometry

/-!
# What the counters add up to

Every access is counted once in front of L1 and, if it misses there, once more in
front of L2. A write that reaches L2 pays for at most one dirty bit, and each
write-back clears the dirty bit it is counted for; so write-backs and dirty ways
together never exceed the writes that reached L2.
-/
namespace ECE3056.Cache

open History (run_invariant)
open Tally (tally tally_change sum_change)

/-- The slots of a set whose dirty bit is 1. -/
def dirtySlots (set : L2CacheStruct) : Nat := tally Finset.univ fun j => set.dirtyBit j = 1

/-- The L2 ways whose dirty bit is 1. -/
def dirtyWays (c : Config) (s : Cachesim) : Nat :=
  ∑ i ∈ Finset.range c.l2IndexMax, dirtySlots (s.l2Cache i)

/-- 1 for a write, the weight of the accesses that can make a block dirty. -/
def writeWeight (a : Access) : Nat := if a.2 = 'w' then 1 else 0

/-- Promoting slot `b` changes no dirty bit; what was written into `b` before may. -/
theorem dirtySlots_promote (c : Config) (set filled : L2CacheStruct) (b : Fin 128)
    (hoff : ∀ j, j ≠ b → filled.dirtyBit j = set.dirtyBit j) :
    dirtySlots (setLRUCounter c filled b) + (if set.dirtyBit b = 1 then 1 else 0) =
      dirtySlots set + if filled.dirtyBit b = 1 then 1 else 0 :=
  tally_change (p := fun j => set.dirtyBit j = 1) (q := fun j => filled.dirtyBit j = 1)
    (Finset.mem_univ b) fun j _ hj => by rw [hoff j hj]

theorem dirtySlots_hit (c : Config) (set : L2CacheStruct) (b : Fin 128) (a : Access) :
    dirtySlots (setLRUCounter c (hitBlock set b a.2) b) ≤ dirtySlots set + writeWeight a := by
  have hpromote := dirtySlots_promote c set (hitBlock set b a.2) b <| by
    intro j hj
    unfold hitBlock
    split_ifs <;> simp [hj]
  unfold writeWeight
  by_cases hw : a.2 = 'w'
  · rw [if_pos hw]
    split_ifs at hpromote <;> omega
  · have hsame : hitBlock set b a.2 = set := if_neg hw
    rw [hsame] at hpromote ⊢
    omega

/-- A refill loses the dirty bit of the block it drops and sets one for a write. -/
theorem dirtySlots_fill (c : Config) (set : L2CacheStruct) (b : Fin 128) (tag : Addr) (a : Access) :
    dirtySlots (setLRUCounter c (fillBlock set b tag a.2) b) +
        (if set.dirtyBit b = 1 then 1 else 0) = dirtySlots set + writeWeight a := by
  have hpromote := dirtySlots_promote c set (fillBlock set b tag a.2) b <| by
    intro j hj
    unfold fillBlock
    split_ifs <;> simp [hj]
  have hdirty : (fillBlock set b tag a.2).dirtyBit b = 1 ↔ a.2 = 'w' := by
    unfold fillBlock
    by_cases hw : a.2 = 'w'
    · simp [hw]
    · by_cases hd : set.dirtyBit b = 1 <;> simp [hw, hd]
  rw [hpromote, if_congr hdirty rfl rfl, writeWeight]

theorem dirtyWays_update (c : Config) (s s' : Cachesim) {i : Nat} (hi : i < c.l2IndexMax)
    (hoff : ∀ k, k ≠ i → s'.l2Cache k = s.l2Cache k) :
    dirtyWays c s' + dirtySlots (s.l2Cache i) = dirtyWays c s + dirtySlots (s'.l2Cache i) :=
  sum_change (f := fun k => dirtySlots (s.l2Cache k)) (g := fun k => dirtySlots (s'.l2Cache k))
    (Finset.mem_range.mpr hi) fun k _ hk => by rw [hoff k hk]

/-- What one call of `l2_cachesim_access` adds to the counters and the dirty ways. -/
structure L2Charged (c : Config) (s : Cachesim) (a : Access) (s' : Cachesim) : Prop where
  accesses : s'.accesses = s.accesses + 1
  lookups : s'.l2Hit + s'.l2Miss = s.l2Hit + s.l2Miss + 1
  writeCount : s'.writeCount = s.writeCount + writeWeight a
  writeMiss : s'.writeMiss ≤ s.writeMiss + writeWeight a
  writebacks : s'.writebacks + s.l2Miss ≤ s.writebacks + s'.l2Miss
  dirty : s'.writebacks + dirtyWays c s' ≤ s.writebacks + dirtyWays c s + writeWeight a

theorem l2_charged {c : Config} {s s' : Cachesim} {a : Access}
    (h : l2CachesimAccess c s a.1 a.2 = some s') : L2Charged c s a s' := by
  have hcount : (if a.2 = 'w' then s.writeCount + 1 else s.writeCount) =
      s.writeCount + writeWeight a := by
    unfold writeWeight
    split_ifs <;> rfl
  obtain ⟨hi, ⟨b, -, rfl⟩ | ⟨b, -, -, rfl⟩⟩ := l2_cases h
  · constructor
    case accesses => rfl
    case lookups => simp only [l2OnHit, l2Count]; omega
    case writeCount => exact hcount
    case writeMiss => exact Nat.le_add_right _ _
    case writebacks => exact le_rfl
    case dirty =>
      have hset := dirtySlots_hit c (s.l2Cache (l2Index c a.1)) b a
      have hways := dirtyWays_update c s (l2OnHit c (l2Count s a.2) (l2Index c a.1) b a.2) hi
        fun k hk => Function.update_of_ne hk _ _
      have hnew : (l2OnHit c (l2Count s a.2) (l2Index c a.1) b a.2).l2Cache (l2Index c a.1) =
          setLRUCounter c (hitBlock (s.l2Cache (l2Index c a.1)) b a.2) b :=
        Function.update_self _ _ _
      rw [hnew] at hways
      show s.writebacks + _ ≤ _
      omega
  · constructor
    case accesses => rfl
    case lookups => simp only [l2OnMiss, l2Count]; omega
    case writeCount => exact hcount
    case writeMiss =>
      simp only [l2OnMiss, l2Count, writeWeight]
      split_ifs <;> omega
    case writebacks =>
      show (if (s.l2Cache (l2Index c a.1)).dirtyBit b = 1 then s.writebacks + 1
        else s.writebacks) + s.l2Miss ≤ s.writebacks + (s.l2Miss + 1)
      split_ifs <;> omega
    case dirty =>
      have hset := dirtySlots_fill c (s.l2Cache (l2Index c a.1)) b (l2Tag c a.1) a
      have hways := dirtyWays_update c s
        (l2OnMiss c (l2Count s a.2) (l2Index c a.1) b (l2Tag c a.1) a.2) hi
        fun k hk => Function.update_of_ne hk _ _
      have hnew : (l2OnMiss c (l2Count s a.2) (l2Index c a.1) b (l2Tag c a.1) a.2).l2Cache
          (l2Index c a.1) =
          setLRUCounter c (fillBlock (s.l2Cache (l2Index c a.1)) b (l2Tag c a.1) a.2) b :=
        Function.update_self _ _ _
      rw [hnew] at hways
      show (if (s.l2Cache (l2Index c a.1)).dirtyBit b = 1 then s.writebacks + 1
        else s.writebacks) + _ ≤ _
      split_ifs at hset ⊢ <;> omega

/-! ## The L1 counters -/

/-- `r`, `w` or `i`. -/
def Reference (a : Access) : Prop := a.2 = 'r' ∨ a.2 = 'w' ∨ a.2 = 'i'

instance (a : Access) : Decidable (Reference a) :=
  inferInstanceAs (Decidable (a.2 = 'r' ∨ a.2 = 'w' ∨ a.2 = 'i'))

/-- An access to the data cache. -/
def isData (a : Access) : Bool := a.2 = 'w' ∨ a.2 = 'r'

/-- An access to the instruction cache. -/
def isFetch (a : Access) : Bool := a.2 = 'i'

theorem kinds_of_reference {a : Access} (ha : Reference a) :
    (if isData a then 1 else 0) + (if isFetch a then 1 else 0) = 1 := by
  rcases ha with h | h | h <;> simp [isData, isFetch, h]

theorem writeWeight_le (a : Access) : writeWeight a ≤ if isData a then 1 else 0 := by
  unfold writeWeight isData
  split_ifs <;> simp_all

namespace L1View

variable {v : L1View} {a : Access}

theorem next_of_hit (hm : v.misses a = false) :
    (v.next a).dHit = v.dHit + (if isData a then 1 else 0) ∧
      (v.next a).iHit = v.iHit + (if isFetch a then 1 else 0) ∧
      (v.next a).dMiss = v.dMiss ∧ (v.next a).iMiss = v.iMiss := by
  simp only [misses, Bool.or_eq_false_iff] at hm
  obtain ⟨hdm, him⟩ := hm
  unfold next isData isFetch
  rw [hdm, him]
  by_cases hw : a.2 = 'w'
  · simp [hw]
  · by_cases hr : a.2 = 'r'
    · simp [hr]
    · by_cases hi : a.2 = 'i' <;> simp [hw, hr, hi]

theorem next_of_miss (hm : v.misses a = true) :
    (v.next a).dHit = v.dHit ∧ (v.next a).iHit = v.iHit ∧
      (v.next a).dMiss = v.dMiss + (if isData a then 1 else 0) ∧
      (v.next a).iMiss = v.iMiss + (if isFetch a then 1 else 0) := by
  by_cases hdm : v.dMisses a = true
  · have hd : a.2 = 'w' ∨ a.2 = 'r' := by
      simp only [dMisses, decide_eq_true_eq] at hdm
      exact hdm.1
    have hi : a.2 ≠ 'i' := by rcases hd with hd | hd <;> simp [hd]
    simp [next, hdm, isData, isFetch, hd, hi]
  · have him : v.iMisses a = true := by simpa [misses, hdm] using hm
    have hi : a.2 = 'i' := by
      simp only [iMisses, decide_eq_true_eq] at him
      exact him.1
    simp [next, hdm, him, isData, isFetch, hi]

end L1View

/-- Counted in `d_hit` or `i_hit` and nowhere else; L2 does not see the access. -/
structure CountsHit (s : Cachesim) (a : Access) (s' : Cachesim) : Prop where
  l2 : SameL2 s s'
  dHit : s'.dHit = s.dHit + if isData a then 1 else 0
  iHit : s'.iHit = s.iHit + if isFetch a then 1 else 0
  dMiss : s'.dMiss = s.dMiss
  iMiss : s'.iMiss = s.iMiss

/-- Counted in `d_miss` or `i_miss` and no L1 hit counter, and sent to L2. -/
structure CountsMiss (c : Config) (s : Cachesim) (a : Access) (s' : Cachesim) : Prop where
  l2 : SentToL2 c s a s'
  dHit : s'.dHit = s.dHit
  iHit : s'.iHit = s.iHit
  dMiss : s'.dMiss = s.dMiss + if isData a then 1 else 0
  iMiss : s'.iMiss = s.iMiss + if isFetch a then 1 else 0

theorem countsHit_of_hit {c : Config} {s s' : Cachesim} {a : Access}
    (hs : l1CachesimAccess c s a.1 a.2 = some s') (hm : (l1View s).misses a = false) :
    CountsHit s a s' := by
  obtain ⟨hview, ⟨-, hsame, -⟩ | ⟨hm', -⟩⟩ := l1_cases hs
  · obtain ⟨hdh, hih, hdm, him⟩ := L1View.next_of_hit hm
    rw [← hview] at hdh hih hdm him
    exact ⟨hsame, hdh, hih, hdm, him⟩
  · rw [hm] at hm'
    exact absurd hm' (by decide)

theorem countsMiss_of_miss {c : Config} {s s' : Cachesim} {a : Access}
    (hs : l1CachesimAccess c s a.1 a.2 = some s') (hm : (l1View s).misses a = true) :
    CountsMiss c s a s' := by
  obtain ⟨hview, ⟨hm', -⟩ | ⟨-, hsent⟩⟩ := l1_cases hs
  · rw [hm'] at hm
    exact absurd hm (by decide)
  · obtain ⟨hdh, hih, hdm, him⟩ := L1View.next_of_miss hm
    rw [← hview] at hdh hih hdm him
    exact ⟨hsent, hdh, hih, hdm, him⟩

/-! ## The ledger -/

structure Ledger (c : Config) (trace : List Access) (s : Cachesim) : Prop where
  references : s.dHit + s.dMiss + s.iHit + s.iMiss = trace.length
  lookups : s.l2Hit + s.l2Miss = s.dMiss + s.iMiss
  accesses : s.accesses = trace.length + (s.l2Hit + s.l2Miss)
  writeMiss_le : s.writeMiss ≤ s.writeCount
  writeCount_le : s.writeCount ≤ s.dMiss
  writebacks_le : s.writebacks ≤ s.l2Miss
  dirty_le : s.writebacks + dirtyWays c s ≤ s.writeCount

theorem SameL2.dirtyWays_eq {s s' : Cachesim} (h : SameL2 s s') (c : Config) :
    dirtyWays c s' = dirtyWays c s := by
  unfold dirtyWays
  rw [h.l2Cache]

theorem ledger_init (c : Config) : Ledger c [] (cachesimInit c) where
  references := rfl
  lookups := rfl
  accesses := rfl
  writeMiss_le := le_rfl
  writeCount_le := le_rfl
  writebacks_le := le_rfl
  dirty_le := by
    show 0 + dirtyWays c (cachesimInit c) ≤ 0
    have hclean : dirtySlots (initSet c) = 0 := by
      rw [dirtySlots, tally, Finset.card_eq_zero, Finset.filter_eq_empty_iff]
      intro j _
      simp only [initSet]
      split_ifs <;> decide
    simp [dirtyWays, cachesimInit, hclean]

theorem Ledger.step {c : Config} {trace : List Access} {s s' : Cachesim} {a : Access}
    (h : Ledger c trace s) (ha : Reference a) (hs : l1CachesimAccess c s a.1 a.2 = some s') :
    Ledger c (trace ++ [a]) s' := by
  have hlength : (trace ++ [a]).length = trace.length + 1 := by simp
  have hkinds := kinds_of_reference ha
  have hrefs := h.references
  have hlookups := h.lookups
  have haccesses := h.accesses
  have hcount_le := h.writeCount_le
  obtain ⟨-, ⟨hm, -, hacc⟩ | ⟨hm, -⟩⟩ := l1_cases hs
  · obtain ⟨hsame, hdh, hih, hdm, him⟩ := countsHit_of_hit hs hm
    constructor
    case references => omega
    case lookups => rw [hsame.l2Hit, hsame.l2Miss]; omega
    case accesses => rw [hacc, hsame.l2Hit, hsame.l2Miss]; omega
    case writeMiss_le => rw [hsame.writeMiss, hsame.writeCount]; exact h.writeMiss_le
    case writeCount_le => rw [hsame.writeCount, hdm]; exact hcount_le
    case writebacks_le => rw [hsame.writebacks, hsame.l2Miss]; exact h.writebacks_le
    case dirty_le =>
      rw [hsame.writebacks, hsame.writeCount, hsame.dirtyWays_eq]
      exact h.dirty_le
  · obtain ⟨⟨t, t', hst, hta, hl2, hts, hsa⟩, hdh, hih, hdm, him⟩ := countsMiss_of_miss hs hm
    have hcharged := l2_charged hl2
    have hweight := writeWeight_le a
    have htotal := hcharged.lookups
    rw [← hts.l2Hit, ← hts.l2Miss, hst.l2Hit, hst.l2Miss] at htotal
    have hwc := hcharged.writeCount
    rw [← hts.writeCount, hst.writeCount] at hwc
    constructor
    case references => omega
    case lookups => omega
    case accesses => rw [hsa, hcharged.accesses, hta]; omega
    case writeMiss_le =>
      have hwm := hcharged.writeMiss
      rw [← hts.writeMiss, hst.writeMiss] at hwm
      have hle := h.writeMiss_le
      omega
    case writeCount_le => omega
    case writebacks_le =>
      have hwb := hcharged.writebacks
      rw [← hts.writebacks, ← hts.l2Miss, hst.writebacks, hst.l2Miss] at hwb
      have hle := h.writebacks_le
      omega
    case dirty_le =>
      have hdirty := hcharged.dirty
      rw [← hts.writebacks, ← hts.dirtyWays_eq c, hst.writebacks, hst.dirtyWays_eq] at hdirty
      have hle := h.dirty_le
      omega

theorem l1Run_ledger (c : RunnableConfig) (trace : List Access) :
    ∃ s, l1Run c.toConfig (cachesimInit c.toConfig) trace = some s ∧
      ((∀ a ∈ trace, Reference a) → Ledger c.toConfig trace s) := by
  obtain ⟨s, hs, -, hledger⟩ := run_invariant
    (I := fun trace s => SetsRepresent c.toConfig s ∧
      ((∀ a ∈ trace, Reference a) → Ledger c.toConfig trace s))
    ⟨setsRepresent_init c.toConfig, fun _ => ledger_init c.toConfig⟩
    (fun history s a h => by
      obtain ⟨s', hs', hrep⟩ := h.1.l1Step a
      refine ⟨s', hs', hrep, fun hall => ?_⟩
      have hpast := h.2 fun b hb => hall b (List.mem_append_left _ hb)
      exact hpast.step (hall a (by simp)) hs') trace
  exact ⟨s, hs, hledger⟩

/-- Below 2^63 accesses no counter wraps. -/
theorem Ledger.counters_fit {c : Config} {trace : List Access} {s : Cachesim}
    (h : Ledger c trace s) (hlen : trace.length < 2 ^ 63) :
    ∀ n ∈ [s.accesses, s.writebacks, s.dHit, s.dMiss, s.iHit, s.iMiss, s.l2Hit, s.l2Miss,
      s.writeMiss, s.writeCount], n < 2 ^ 64 := by
  have hrefs := h.references
  have hlookups := h.lookups
  have haccesses := h.accesses
  have hwm := h.writeMiss_le
  have hwc := h.writeCount_le
  have hwb := h.writebacks_le
  intro n hn
  simp only [List.mem_cons, List.not_mem_nil, or_false] at hn
  omega

/-- The laws that the counters obey after any references, in any geometry. Below 2^63 references
the 64-bit counters of the simulator do not wrap. -/
theorem counters_conserved (c : RunnableConfig) (trace : List Access)
    (htrace : ∀ a ∈ trace, Reference a) :
    ∃ s, l1Run c.toConfig (cachesimInit c.toConfig) trace = some s ∧
      s.l2Hit + s.l2Miss = s.dMiss + s.iMiss ∧
      s.accesses = s.dHit + s.dMiss + s.iHit + s.iMiss + s.l2Hit + s.l2Miss ∧
      (s.writeMiss ≤ s.writeCount ∧ s.writeCount ≤ s.dMiss) ∧
      s.writebacks ≤ s.l2Miss ∧
      s.writebacks + dirtyWays c.toConfig s ≤ s.writeCount ∧
      (trace.length < 2 ^ 63 →
        ∀ n ∈ [s.accesses, s.writebacks, s.dHit, s.dMiss, s.iHit, s.iMiss, s.l2Hit, s.l2Miss,
          s.writeMiss, s.writeCount], n < 2 ^ 64) := by
  obtain ⟨s, hs, hledger⟩ := l1Run_ledger c trace
  have h := hledger htrace
  have hrefs := h.references
  have haccesses := h.accesses
  exact ⟨s, hs, h.lookups, by omega, ⟨h.writeMiss_le, h.writeCount_le⟩, h.writebacks_le, h.dirty_le,
    h.counters_fit⟩

/-- Two writes to one set of one way: the second writes the first back. -/
theorem counters_conserved_two_writes :
    ∃ s, l1Run oneWay.toConfig (cachesimInit oneWay.toConfig)
        [(0x10000, 'w'), (0x20000, 'w')] = some s ∧
      s.writebacks + dirtyWays oneWay.toConfig s ≤ s.writeCount := by
  obtain ⟨s, hs, -, -, -, -, hdirty, -⟩ :=
    counters_conserved oneWay.runnable [(0x10000, 'w'), (0x20000, 'w')] (by decide)
  exact ⟨s, hs, hdirty⟩

end ECE3056.Cache
