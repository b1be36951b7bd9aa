import ECE3056.Cache.Hierarchy

/-!
# Every set stays well formed, in any geometry

The block size and the number of sets need not be powers of two for the arrays to
stay in order: `log2` rounds down, so an index is always in range, and one bit below
the tag keeps the sentinel -1 from being a tag. The counters of the ways in use stay
a permutation, and neither lookup returns a slot past them.
-/
namespace ECE3056.Cache

open Recency (Entries access tags)
open History (run_invariant)

/-- A configuration `cachesim_init` can run with: some set and some way, at most 128
ways, at least one bit of index or offset, and an `int` cache size. -/
structure RunnableConfig extends Config where
  ways_pos : 1 ≤ l2Ways
  ways_le : l2Ways ≤ 128
  sets_pos : 1 ≤ toConfig.l2IndexMax
  bits_pos : 1 ≤ toConfig.l2IndexSize + toConfig.l2OffsetSize
  cachesize_lt : l2Cachesize < 2 ^ 31

def LegalConfig.runnable (c : LegalConfig) : RunnableConfig where
  toConfig := c.toConfig
  ways_pos := c.ways_pos
  ways_le := c.ways_le
  sets_pos := c.sets_pos
  bits_pos := c.bits_pos
  cachesize_lt := c.cachesize_lt

namespace RunnableConfig

variable (c : RunnableConfig)

theorem blocksize_pos : 1 ≤ c.l2Blocksize := by
  have hsets := c.sets_pos
  by_contra hzero
  have hb : c.l2Blocksize = 0 := by omega
  simp [Config.l2IndexMax, hb] at hsets

theorem bits_le : c.l2IndexSize + c.l2OffsetSize ≤ 64 := by
  have hbits := c.bits_lt c.blocksize_pos c.ways_pos c.sets_pos c.cachesize_lt
  omega

theorem index_lt (a : Addr) : l2Index c.toConfig a < c.l2IndexMax :=
  (c.l2_exact c.sets_pos c.bits_le).index_lt a

theorem tag_ne_sentinel (a : Addr) : l2Tag c.toConfig a ≠ -1 :=
  AddressSplit.tag_ne_allOnes c.bits_pos a

end RunnableConfig

/-- The counters of the slots in use, in slot order. -/
def counters (ways : Nat) (set : L2CacheStruct) : List Int :=
  ((List.finRange 128).filter fun j => j.val < ways).map set.lruCounter

/-- A set that the two lookups can work with. -/
structure SetSound (ways : Nat) (set : L2CacheStruct) : Prop where
  counters_perm : (counters ways set).Perm ((List.range ways).map Nat.cast)
  unused : ∀ j : Fin 128, ways ≤ j.val → set.lruCounter j = -1
  tags_distinct : ∀ i j : Fin 128, i.val < ways → j.val < ways → set.validBit i ≠ 0 →
    set.validBit j ≠ 0 → set.tag i = set.tag j → i = j
  found_lt : ∀ (tag : Addr) (b : Fin 128), checkTagAndValidBit set tag = some b → b.val < ways
  victim_lt : ∃ b : Fin 128, getLRUIndex set = some b ∧ b.val < ways

section
variable {ways : Nat} {cache : L2CacheStruct} {entries : Entries Addr}

theorem Represents.counters_perm (h : Represents ways cache entries) (hle : ways ≤ 128) :
    (counters ways cache).Perm ((List.range ways).map Nat.cast) := by
  have hslots : (counters ways cache).Nodup := by
    refine List.Nodup.map_on ?_ ((List.nodup_finRange 128).filter _)
    intro i hi j hj hij
    simp only [List.mem_filter, decide_eq_true_eq] at hi hj
    exact h.counter_inj i j hi.2 hj.2 hij
  have hrange : ((List.range ways).map (Nat.cast : Nat → Int)).Nodup :=
    List.nodup_range.map Nat.cast_injective
  refine (List.perm_ext_iff_of_nodup hslots hrange).mpr fun x => ?_
  simp only [counters, List.mem_map, List.mem_filter, List.mem_finRange, true_and,
    decide_eq_true_eq, List.mem_range]
  constructor
  · rintro ⟨j, hj, rfl⟩
    obtain ⟨hpos, hlt⟩ := h.counter_mem j hj
    exact ⟨(cache.lruCounter j).toNat, by omega, Int.toNat_of_nonneg hpos⟩
  · rintro ⟨k, hk, rfl⟩
    obtain ⟨j, hj, hr⟩ := h.exists_rank hle (k := ways - 1 - k) (by omega)
    obtain ⟨hpos, hlt⟩ := h.counter_mem j hj
    exact ⟨j, hj, by unfold rank at hr; omega⟩

/-- A valid way holds the entry at its own rank. -/
theorem Represents.entry_of_valid (h : Represents ways cache entries) {j : Fin 128}
    (hj : j.val < ways) (hv : cache.validBit j ≠ 0) :
    ∃ d, entries[rank ways cache j]? = some (cache.tag j, d) := by
  have hs := h.slot j hj
  cases he : entries[rank ways cache j]? with
  | none =>
    rw [he] at hs
    exact absurd hs.1 hv
  | some e =>
    obtain ⟨t, d⟩ := e
    rw [he] at hs
    exact ⟨d, by rw [hs.2.1]⟩

theorem Represents.tags_distinct (h : Represents ways cache entries) {i j : Fin 128}
    (hi : i.val < ways) (hj : j.val < ways) (hvi : cache.validBit i ≠ 0)
    (hvj : cache.validBit j ≠ 0) (ht : cache.tag i = cache.tag j) : i = j := by
  obtain ⟨di, hei⟩ := h.entry_of_valid hi hvi
  obtain ⟨dj, hej⟩ := h.entry_of_valid hj hvj
  have hrank : rank ways cache i = rank ways cache j := by
    rw [← h.position_eq hei, ht]
    exact h.position_eq hej
  have hci := h.counter_mem i hi
  have hcj := h.counter_mem j hj
  exact h.counter_inj i j hi hj (by unfold rank at hrank; omega)

theorem Represents.sound (h : Represents ways cache entries) (hpos : 1 ≤ ways)
    (hle : ways ≤ 128) : SetSound ways cache where
  counters_perm := h.counters_perm hle
  unused j hj := (h.unused j hj).2.2.2
  tags_distinct _ _ hi hj hvi hvj ht := h.tags_distinct hi hj hvi hvj ht
  found_lt _ _ hb := (h.lookup_some hb).1
  victim_lt := (h.victim hpos hle).imp fun _ hb => ⟨hb.1, hb.2.1⟩

end

/-! ## Runs -/

/-- Every set represents some recency list. -/
def SetsRepresent (c : Config) (s : Cachesim) : Prop :=
  ∀ i, ∃ entries, Represents c.l2Ways (s.l2Cache i) entries

theorem SetsRepresent.l2Step {c : RunnableConfig} {s : Cachesim} (h : SetsRepresent c.toConfig s)
    (a : Access) :
    ∃ s', l2CachesimAccess c.toConfig s a.1 a.2 = some s' ∧ SetsRepresent c.toConfig s' := by
  obtain ⟨entries, hset⟩ := h (l2Index c.toConfig a.1)
  have hframe : ∀ cache entries', Represents c.l2Ways cache entries' →
      ∀ i, ∃ e, Represents c.l2Ways
        (Function.update s.l2Cache (l2Index c.toConfig a.1) cache i) e := by
    intro cache entries' hc i
    by_cases hi : i = l2Index c.toConfig a.1
    · exact ⟨entries', by rwa [hi, Function.update_self]⟩
    · rw [Function.update_of_ne hi]
      exact h i
  cases hb : checkTagAndValidBit (s.l2Cache (l2Index c.toConfig a.1)) (l2Tag c.toConfig a.1) with
  | some b =>
    refine ⟨l2OnHit c.toConfig (l2Count s a.2) (l2Index c.toConfig a.1) b a.2, ?_,
      hframe _ _ (hset.hitBlock hb a.2)⟩
    simp only [l2CachesimAccess, c.index_lt a.1, ↓reduceIte, hb]
  | none =>
    have hmiss := hset.lookup_none c.ways_le (c.tag_ne_sentinel a.1) hb
    obtain ⟨b, hv, hlt, hrank⟩ := hset.victim c.ways_pos c.ways_le
    refine ⟨l2OnMiss c.toConfig (l2Count s a.2) (l2Index c.toConfig a.1) b
      (l2Tag c.toConfig a.1) a.2, ?_, hframe _ _ (hset.fillBlock hmiss hlt hrank a.2)⟩
    simp only [l2CachesimAccess, c.index_lt a.1, ↓reduceIte, hb, hv]

theorem SetsRepresent.congr {c : Config} {s s' : Cachesim} (h : SetsRepresent c s)
    (hsame : SameL2 s s') : SetsRepresent c s' :=
  fun i => hsame.l2Cache ▸ h i

theorem SetsRepresent.l1Step {c : RunnableConfig} {s : Cachesim} (h : SetsRepresent c.toConfig s)
    (a : Access) :
    ∃ s', l1CachesimAccess c.toConfig s a.1 a.2 = some s' ∧ SetsRepresent c.toConfig s' := by
  obtain ⟨s', hs'⟩ := l1_returns fun _ t ht => ((h.congr ht).l2Step a).imp fun _ hstep => hstep.1
  obtain ⟨-, ⟨-, hsame, -⟩ | ⟨-, t, t', hst, -, hacc, hts, -⟩⟩ := l1_cases hs'
  · exact ⟨s', hs', h.congr hsame⟩
  · obtain ⟨t'', ht'', hrep⟩ := (h.congr hst).l2Step a
    obtain rfl := Option.some.inj (ht''.symm.trans hacc)
    exact ⟨s', hs', hrep.congr hts⟩

theorem setsRepresent_init (c : Config) : SetsRepresent c (cachesimInit c) :=
  fun _ => ⟨[], represents_init c⟩

theorem l1Run_represents (c : RunnableConfig) (trace : List Access) :
    ∃ s, l1Run c.toConfig (cachesimInit c.toConfig) trace = some s ∧ SetsRepresent c.toConfig s :=
  run_invariant (I := fun _ s => SetsRepresent c.toConfig s) (setsRepresent_init c.toConfig)
    (fun _ _ a h => h.l1Step a) trace

theorem l2Run_represents (c : RunnableConfig) (trace : List Access) :
    ∃ s, l2Run c.toConfig (cachesimInit c.toConfig) trace = some s ∧ SetsRepresent c.toConfig s :=
  run_invariant (I := fun _ s => SetsRepresent c.toConfig s) (setsRepresent_init c.toConfig)
    (fun _ _ a h => h.l2Step a) trace

/-- After any accesses, made through L1 or to L2 directly, every set is well formed. -/
theorem l2_sets_sound (c : RunnableConfig) (trace : List Access) :
    (∃ s, l1Run c.toConfig (cachesimInit c.toConfig) trace = some s ∧
        ∀ i, SetSound c.l2Ways (s.l2Cache i)) ∧
      ∃ s, l2Run c.toConfig (cachesimInit c.toConfig) trace = some s ∧
        ∀ i, SetSound c.l2Ways (s.l2Cache i) := by
  constructor
  · obtain ⟨s, hs, hrep⟩ := l1Run_represents c trace
    exact ⟨s, hs, fun i => (hrep i).elim fun _ h => h.sound c.ways_pos c.ways_le⟩
  · obtain ⟨s, hs, hrep⟩ := l2Run_represents c trace
    exact ⟨s, hs, fun i => (hrep i).elim fun _ h => h.sound c.ways_pos c.ways_le⟩

end ECE3056.Cache
