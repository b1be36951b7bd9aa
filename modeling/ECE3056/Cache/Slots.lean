import ECE3056.Cache.Splitting
import ECE3056.Cache.L1Hits

/-!
# More ways than slots

A set has 128 slots however many ways it is asked for. With more ways than that no slot
is ever evicted: each new block takes the next slot in order, whose counter has come down
to 0, and the counters of the slots in use stay above 0. The 129th block of a set finds no
slot, and `get_LRU_index` returns the -1 that its caller uses as an index.
-/
namespace ECE3056.Cache

open History (run_keeps)

/-- The tags of the blocks that L2 set `i` is asked for: those of the accesses that miss in L1. -/
def received (c : Config) (i : Nat) (trace : List Access) : Finset Addr :=
  (((l2Trace trace).filter fun a => l2Index c a.1 = i).map fun a => l2Tag c a.1).toFinset

theorem received_concat (c : Config) (i : Nat) (trace : List Access) (a : Access) :
    received c i (trace ++ [a]) =
      if (l1Alone trace).misses a ∧ l2Index c a.1 = i then
        insert (l2Tag c a.1) (received c i trace)
      else received c i trace := by
  unfold received
  rw [l2Trace_concat]
  by_cases hm : (l1Alone trace).misses a = true
  · by_cases hi : l2Index c a.1 = i
    · rw [if_pos hm, if_pos ⟨hm, hi⟩, List.filter_append]
      ext t
      simp [hi]
    · rw [if_pos hm, if_neg fun h => hi h.2, List.filter_append]
      simp [hi]
  · rw [if_neg hm, if_neg fun h => hm h.1]

theorem received_subset (c : Config) (i : Nat) (trace : List Access) (a : Access) :
    received c i trace ⊆ received c i (trace ++ [a]) := by
  rw [received_concat]
  split_ifs
  · exact Finset.subset_insert _ _
  · exact Finset.Subset.refl _

/-! ## One set -/

/-- The first slots hold the blocks of the set, with counters that the ways keep above 0; the other
slots are unused, and their counters still follow their order. -/
structure Filling (ways : Nat) (set : L2CacheStruct) (blocks : Finset Addr) : Prop where
  card_le : blocks.card ≤ 128
  used : ∀ j : Fin 128, j.val < blocks.card →
    set.validBit j ≠ 0 ∧ (ways : Int) - blocks.card ≤ set.lruCounter j
  free : ∀ j : Fin 128, blocks.card ≤ j.val →
    set.validBit j = 0 ∧ set.lruCounter j = j.val - blocks.card
  holds : ∀ t, t ∈ blocks ↔ ∃ j : Fin 128, j.val < blocks.card ∧ set.tag j = t

theorem filling_init {c : Config} (hways : 128 < c.l2Ways) : Filling c.l2Ways (initSet c) ∅ where
  card_le := by simp
  used j hj := absurd hj (Nat.not_lt_zero _)
  free j _ := by
    have hj : j.val < c.l2Ways := j.isLt.trans hways
    simp [initSet, hj]
  holds t := by simp

section
variable {ways : Nat} {set : L2CacheStruct} {blocks : Finset Addr} {b : Fin 128} {t : Addr}

/-- A slot that a lookup finds is in use, and its block is one of the set. -/
theorem Filling.lookup_some (h : Filling ways set blocks)
    (hb : checkTagAndValidBit set t = some b) : b.val < blocks.card ∧ t ∈ blocks := by
  obtain ⟨-, hvalid, htag⟩ : set.tag b ≠ -1 ∧ set.validBit b ≠ 0 ∧ set.tag b = t := by
    simpa using List.find?_some hb
  have hlt : b.val < blocks.card := by
    by_contra hge
    exact hvalid (h.free b (Nat.le_of_not_lt hge)).1
  exact ⟨hlt, (h.holds t).mpr ⟨b, hlt, htag⟩⟩

theorem Filling.lookup_none (h : Filling ways set blocks) (ht : t ≠ -1)
    (hb : checkTagAndValidBit set t = none) : t ∉ blocks := by
  intro hmem
  obtain ⟨j, hj, rfl⟩ := (h.holds t).mp hmem
  have hnone := List.find?_eq_none.mp hb j (List.mem_finRange j)
  rw [decide_eq_true_iff] at hnone
  exact hnone ⟨ht, (h.used j hj).1, rfl⟩

/-- Only the first unused slot has counter 0. -/
theorem Filling.counter_zero (h : Filling ways set blocks) (hways : 128 < ways) (j : Fin 128) :
    set.lruCounter j = 0 ↔ j.val = blocks.card := by
  have hle := h.card_le
  by_cases hj : j.val < blocks.card
  · have hused := (h.used j hj).2
    omega
  · have hfree := (h.free j (Nat.le_of_not_lt hj)).2
    omega

theorem Filling.victim (h : Filling ways set blocks) (hways : 128 < ways)
    (hb : getLRUIndex set = some b) : b.val = blocks.card := by
  have hzero : set.lruCounter b = 0 := by simpa using List.find?_some hb
  exact (h.counter_zero hways b).mp hzero

/-- A set that holds 128 blocks has no slot left to refill, and no other set is without one. -/
theorem Filling.victim_none (h : Filling ways set blocks) (hways : 128 < ways) :
    getLRUIndex set = none ↔ blocks.card = 128 := by
  constructor
  · intro hnone
    by_contra hne
    have hle := h.card_le
    have hlt : blocks.card < 128 := by omega
    have hj := List.find?_eq_none.mp hnone ⟨blocks.card, hlt⟩ (List.mem_finRange _)
    rw [decide_eq_true_iff] at hj
    exact hj ((h.counter_zero hways _).mpr rfl)
  · intro hfull
    refine List.find?_eq_none.mpr fun j _ => ?_
    rw [decide_eq_true_iff, h.counter_zero hways, hfull]
    exact j.isLt.ne

/-- A hit writes nothing but the dirty bit. -/
theorem hitBlock_keeps (set : L2CacheStruct) (b : Fin 128) (input : Char) :
    (hitBlock set b input).lruCounter = set.lruCounter ∧
      (hitBlock set b input).validBit = set.validBit ∧
      (hitBlock set b input).tag = set.tag := by
  unfold hitBlock
  split_ifs
  · exact ⟨rfl, rfl, rfl⟩
  · exact ⟨rfl, rfl, rfl⟩

/-- Promoting a slot in use ages only slots in use. -/
theorem Filling.hitBlock {c : Config} (h : Filling c.l2Ways set blocks) (hways : 128 < c.l2Ways)
    (hb : b.val < blocks.card) (input : Char) :
    Filling c.l2Ways (setLRUCounter c (Cache.hitBlock set b input) b) blocks := by
  have hle := h.card_le
  have hcb := (h.used b hb).2
  obtain ⟨hlru, hvalid, htag⟩ := hitBlock_keeps set b input
  refine ⟨hle, fun j hj => ⟨?_, ?_⟩, fun j hj => ⟨?_, ?_⟩, ?_⟩
  · rw [setLRUCounter, hvalid]
    exact (h.used j hj).1
  · rw [setLRUCounter_apply, hlru]
    have hcj := (h.used j hj).2
    split_ifs <;> omega
  · rw [setLRUCounter, hvalid]
    exact (h.free j hj).1
  · rw [setLRUCounter_apply, hlru]
    have hcj := (h.free j hj).2
    have hjlt := j.isLt
    have hne : j ≠ b := by
      rintro rfl
      omega
    rw [if_neg hne, if_neg fun hage => by omega]
    exact hcj
  · rw [setLRUCounter, htag]
    exact h.holds

/-- A refill stores the tag in its slot, and leaves the other slots alone. -/
theorem filled_slots (c : Config) (set : L2CacheStruct) (b : Fin 128) (t : Addr) (input : Char) :
    let set' := setLRUCounter c (fillBlock set b t input) b
    (set'.validBit b = 1 ∧ set'.tag b = t) ∧
      ∀ j, j ≠ b → set'.validBit j = set.validBit j ∧ set'.tag j = set.tag j := by
  refine ⟨⟨Function.update_self .., Function.update_self ..⟩, fun j hj => ?_⟩
  exact ⟨Function.update_of_ne hj .., Function.update_of_ne hj ..⟩

/-- A refill takes the first unused slot and brings every counter but its own down by one. -/
theorem Filling.fillBlock {c : Config} (h : Filling c.l2Ways set blocks) (hways : 128 < c.l2Ways)
    (hb : getLRUIndex set = some b) (hmiss : t ∉ blocks) (input : Char) :
    Filling c.l2Ways (setLRUCounter c (Cache.fillBlock set b t input) b) (insert t blocks) := by
  have hval := h.victim hways hb
  have hzero := (h.counter_zero hways b).mpr hval
  have hblt := b.isLt
  obtain ⟨⟨hvalid, htag⟩, hother⟩ := filled_slots c set b t input
  have hlru : ∀ j, (setLRUCounter c (Cache.fillBlock set b t input) b).lruCounter j =
      if j = b then (c.l2Ways : Int) - 1
      else if set.lruCounter j ≠ -1 ∧ set.lruCounter b < set.lruCounter j then
        set.lruCounter j - 1
      else set.lruCounter j := setLRUCounter_apply c (Cache.fillBlock set b t input) b
  have hne : ∀ j : Fin 128, j ≠ b → j.val < blocks.card ∨ blocks.card + 1 ≤ j.val := by
    intro j hj
    have hvne : j.val ≠ b.val := fun hv => hj (Fin.ext hv)
    omega
  constructor <;> rw [Finset.card_insert_of_notMem hmiss]
  case card_le => omega
  case used =>
    intro j hj
    by_cases hjb : j = b
    · subst hjb
      rw [hvalid, hlru, if_pos rfl]
      refine ⟨by decide, ?_⟩
      push_cast
      omega
    · obtain ⟨hv, hc⟩ := h.used j (by have hor := hne j hjb; omega)
      rw [(hother j hjb).1, hlru, if_neg hjb]
      refine ⟨hv, ?_⟩
      push_cast
      split_ifs <;> omega
  case free =>
    intro j hj
    have hjb : j ≠ b := by
      rintro rfl
      omega
    obtain ⟨hv, hc⟩ := h.free j (by omega)
    rw [(hother j hjb).1, hlru, if_neg hjb, if_pos (by omega)]
    refine ⟨hv, ?_⟩
    push_cast
    omega
  case holds =>
    intro u
    rw [Finset.mem_insert, h.holds u]
    constructor
    · rintro (rfl | ⟨j, hj, rfl⟩)
      · exact ⟨b, by omega, htag⟩
      · have hjb : j ≠ b := by
          rintro rfl
          omega
        exact ⟨j, by omega, (hother j hjb).2⟩
    · rintro ⟨j, hj, rfl⟩
      by_cases hjb : j = b
      · subst hjb
        exact .inl htag
      · have hor := hne j hjb
        exact .inr ⟨j, by omega, (hother j hjb).2.symm⟩

end

/-! ## Runs -/

section
variable {c : SplitConfig} {s s' : Cachesim} {blocks : Nat → Finset Addr} {a : Access}

/-- An access to L2 adds its block to those of the set that it is to. -/
theorem filling_l2Step (hways : 128 < c.l2Ways)
    (h : ∀ i, Filling c.l2Ways (s.l2Cache i) (blocks i))
    (hs : l2CachesimAccess c.toConfig s a.1 a.2 = some s') (i : Nat) :
    Filling c.l2Ways (s'.l2Cache i)
      (if l2Index c.toConfig a.1 = i then insert (l2Tag c.toConfig a.1) (blocks i)
        else blocks i) := by
  have hset := h (l2Index c.toConfig a.1)
  obtain ⟨-, ⟨b, hb, rfl⟩ | ⟨b, hb, hv, rfl⟩⟩ := l2_cases hs
  · obtain ⟨hlt, hmem⟩ := hset.lookup_some hb
    by_cases hi : l2Index c.toConfig a.1 = i
    · subst hi
      rw [if_pos rfl, Finset.insert_eq_of_mem hmem]
      simpa [l2OnHit, l2Count] using hset.hitBlock hways hlt a.2
    · rw [if_neg hi]
      simpa [l2OnHit, l2Count, Function.update_of_ne (Ne.symm hi)] using h i
  · have hmiss := hset.lookup_none (c.tag_ne_sentinel a.1) hb
    by_cases hi : l2Index c.toConfig a.1 = i
    · subst hi
      rw [if_pos rfl]
      simpa [l2OnMiss, l2Count] using hset.fillBlock hways hv hmiss a.2
    · rw [if_neg hi]
      simpa [l2OnMiss, l2Count, Function.update_of_ne (Ne.symm hi)] using h i

/-- An access to L2 returns exactly when its set has room for its block. -/
theorem l2_returns_iff (hways : 128 < c.l2Ways)
    (h : ∀ i, Filling c.l2Ways (s.l2Cache i) (blocks i)) :
    (∃ s', l2CachesimAccess c.toConfig s a.1 a.2 = some s') ↔
      (insert (l2Tag c.toConfig a.1) (blocks (l2Index c.toConfig a.1))).card ≤ 128 := by
  have hset := h (l2Index c.toConfig a.1)
  constructor
  · rintro ⟨s', hs'⟩
    have hnext := filling_l2Step hways h hs' (l2Index c.toConfig a.1)
    rw [if_pos rfl] at hnext
    exact hnext.card_le
  · intro hcard
    by_contra hnone
    have hfails : l2CachesimAccess c.toConfig s a.1 a.2 = none :=
      Option.eq_none_iff_forall_ne_some.mpr fun s' hs' => hnone ⟨s', hs'⟩
    obtain ⟨hb, hv⟩ := c.lookups_of_none hfails
    have hmiss := hset.lookup_none (c.tag_ne_sentinel a.1) hb
    have hfull := (hset.victim_none hways).mp hv
    rw [Finset.card_insert_of_notMem hmiss] at hcard
    omega

end

/-- L1 runs on its own, and every L2 set fills up with what it receives. -/
structure Fills (c : Config) (trace : List Access) (s : Cachesim) : Prop where
  view : l1View s = l1Alone trace
  sets : ∀ i, Filling c.l2Ways (s.l2Cache i) (received c i trace)

section
variable {c : SplitConfig} {trace : List Access} {s s' : Cachesim} {a : Access}

theorem Fills.l1Step (h : Fills c.toConfig trace s) (hways : 128 < c.l2Ways)
    (hs : l1CachesimAccess c.toConfig s a.1 a.2 = some s') :
    Fills c.toConfig (trace ++ [a]) s' := by
  obtain ⟨hview, hl2⟩ := l1_cases hs
  refine ⟨by rw [hview, h.view, l1Alone_concat], fun i => ?_⟩
  rw [received_concat, ← h.view]
  rcases hl2 with ⟨hm, hsame, -⟩ | ⟨hm, t, t', hst, -, hacc, hts, -⟩
  · rw [hsame.l2Cache, if_neg fun hand => by simp [hm] at hand]
    exact h.sets i
  · have hsets : ∀ k, Filling c.l2Ways (t.l2Cache k) (received c.toConfig k trace) := by
      rw [hst.l2Cache]
      exact h.sets
    rw [hts.l2Cache]
    simpa only [hm, true_and] using filling_l2Step hways hsets hacc i

theorem l1Run_fills (hways : 128 < c.l2Ways)
    (hrun : l1Run c.toConfig (cachesimInit c.toConfig) trace = some s) :
    Fills c.toConfig trace s :=
  run_keeps ⟨rfl, fun _ => filling_init hways⟩ (fun _ _ _ _ h hs => h.l1Step hways hs) hrun

/-- With more ways than slots, the accesses of a trace stay within their arrays exactly when no
set is asked for more than 128 blocks. -/
theorem l1Run_returns_iff (hways : 128 < c.l2Ways) (trace : List Access) :
    (∃ s, l1Run c.toConfig (cachesimInit c.toConfig) trace = some s) ↔
      ∀ i, (received c.toConfig i trace).card ≤ 128 := by
  constructor
  · rintro ⟨s, hrun⟩ i
    exact ((l1Run_fills hways hrun).sets i).card_le
  · intro hroom
    induction trace using List.reverseRecOn with
    | nil => exact ⟨_, rfl⟩
    | append_singleton past a ih =>
      obtain ⟨s, hrun⟩ := ih fun i =>
        (Finset.card_le_card (received_subset c.toConfig i past a)).trans (hroom i)
      have hfills := l1Run_fills hways hrun
      obtain ⟨s', hs'⟩ : ∃ s', l1CachesimAccess c.toConfig s a.1 a.2 = some s' := by
        refine l1_returns fun hm t hst => ?_
        have hsets : ∀ i, Filling c.l2Ways (t.l2Cache i) (received c.toConfig i past) := by
          rw [hst.l2Cache]
          exact hfills.sets
        have hlast := hroom (l2Index c.toConfig a.1)
        rw [received_concat, ← hfills.view, if_pos ⟨hm, rfl⟩] at hlast
        exact (l2_returns_iff hways hsets).mpr hlast
      refine ⟨s', ?_⟩
      rw [l1Run, List.foldlM_append]
      change (l1Run c.toConfig (cachesimInit c.toConfig) past).bind _ = _
      rw [hrun]
      simp [hs']

end

/-! ## Reads that fill a set -/

/-- Address `k` has no bit below the tags, of either cache. -/
def aligned (k : Nat) : Addr := BitVec.ofNat 64 (k * 2 ^ 32)

/-- A read of each of the first `n` aligned addresses after 0. -/
def reads (n : Nat) : List Access := (List.range n).map fun k => (aligned (k + 1), 'r')

theorem reads_succ (n : Nat) : reads (n + 1) = reads n ++ [(aligned (n + 1), 'r')] := by
  simp [reads, List.range_succ]

theorem aligned_toNat {k : Nat} (hk : k < 2 ^ 32) : (aligned k).toNat = k * 2 ^ 32 := by
  rw [aligned, BitVec.toNat_ofNat, Nat.mod_eq_of_lt]
  omega

theorem dvd_aligned {width : Nat} (hw : width ≤ 32) {k : Nat} (hk : k < 2 ^ 32) :
    2 ^ width ∣ (aligned k).toNat := by
  rw [aligned_toNat hk]
  exact Dvd.dvd.mul_left (pow_dvd_pow 2 hw) k

theorem aligned_tag_ne {width : Nat} (hw : width ≤ 32) {j k : Nat} (hj : j < 2 ^ 32)
    (hk : k < 2 ^ 32) (hne : j ≠ k) :
    AddressSplit.tag width (aligned j) ≠ AddressSplit.tag width (aligned k) := by
  intro h
  have heq := AddressSplit.tag_inj_of_dvd (dvd_aligned hw hj) (dvd_aligned hw hk) h
  have hnat := congrArg BitVec.toNat heq
  rw [aligned_toNat hj, aligned_toNat hk] at hnat
  omega

theorem l1Index_aligned {k : Nat} (hk : k < 2 ^ 32) : l1Index (aligned k) = 0 :=
  AddressSplit.index_of_dvd (by decide) (dvd_aligned (by decide) hk)

/-- The line of the reads holds the tag of the last one, and before them that of address 0. -/
theorem reads_line (n : Nat) (hn : n < 2 ^ 32) :
    ((l1Alone (reads n)).dCache 0).tag = l1Tag (aligned n) := by
  cases n with
  | zero => decide
  | succ n =>
    rw [reads_succ, l1Alone_concat, next_dTag, if_pos ⟨rfl, l1Index_aligned hn⟩]

theorem reads_miss {n : Nat} (hn : n + 1 < 2 ^ 32) :
    (l1Alone (reads n)).misses (aligned (n + 1), 'r') = true := by
  have hline : lineTag (l1Alone (reads n)) (aligned (n + 1), 'r') = l1Tag (aligned n) := by
    rw [lineTag, if_pos (by rfl)]
    dsimp only
    rw [l1Index_aligned hn, reads_line n (by omega)]
  rw [misses_iff (.inl rfl), hline]
  exact aligned_tag_ne (by decide) (by omega) hn (by omega)

section
variable (c : SplitConfig)

theorem SplitConfig.bits_le_32 : c.l2IndexSize + c.l2OffsetSize ≤ 32 := by
  have hbits := c.bits_lt c.blocksize_pos c.ways_pos c.sets_pos c.cachesize_lt
  omega

theorem l2Index_aligned {k : Nat} (hk : k < 2 ^ 32) : l2Index c.toConfig (aligned k) = 0 :=
  AddressSplit.index_of_dvd (c.bits_le_32.trans (by decide)) (dvd_aligned c.bits_le_32 hk)

/-- In any geometry the reads all miss in L1, and ask set 0 for a new block each. -/
theorem received_reads (n : Nat) (hn : n < 2 ^ 32) :
    received c.toConfig 0 (reads n) =
      (Finset.range n).image fun k => l2Tag c.toConfig (aligned (k + 1)) := by
  induction n with
  | zero => rfl
  | succ n ih =>
    rw [reads_succ, received_concat, if_pos ⟨reads_miss hn, l2Index_aligned c hn⟩,
      ih (by omega), Finset.range_add_one, Finset.image_insert]

theorem card_received_reads (n : Nat) (hn : n < 2 ^ 32) :
    (received c.toConfig 0 (reads n)).card = n := by
  rw [received_reads c n hn, Finset.card_image_of_injOn, Finset.card_range]
  intro j hj k hk h
  have hjlt := Finset.mem_range.mp hj
  have hklt := Finset.mem_range.mp hk
  by_contra hne
  exact aligned_tag_ne c.bits_le_32 (by omega) (by omega) (by omega : j + 1 ≠ k + 1) h

/-- The reads ask no set for more blocks than they are. -/
theorem received_reads_le (n i : Nat) (hn : n < 2 ^ 32) :
    (received c.toConfig i (reads n)).card ≤ n := by
  induction n with
  | zero => exact le_rfl
  | succ n ih =>
    have hle := ih (by omega)
    rw [reads_succ, received_concat]
    split_ifs
    · exact (Finset.card_insert_le _ _).trans (by omega)
    · exact hle.trans (Nat.le_succ n)

end

/-! ## The law -/

/-- What is asked of a geometry and a trace: both splits stay within their arrays and lose nothing
of the block, no access indexes an array out of bounds, and no lookup takes one block for
another. -/
structure SplitsSafely (c : SplitConfig) (trace : List Access) : Prop where
  l2 : AddressSplit.Exact c.l2IndexMax c.l2OffsetSize (l2Index c.toConfig) (l2Tag c.toConfig)
  l1 : AddressSplit.Exact l1IndexMax l1OffsetSize l1Index l1Tag
  returns : ∃ s, l1Run c.toConfig (cachesimInit c.toConfig) trace = some s ∧
    FindsOwnBlock c.toConfig trace s

theorem SplitConfig.splitsSafely_of_returns (c : SplitConfig) {trace : List Access}
    (h : ∃ s, l1Run c.toConfig (cachesimInit c.toConfig) trace = some s) :
    SplitsSafely c trace := by
  obtain ⟨s, hrun⟩ := h
  exact ⟨c.exact, l1_exact, s, hrun, (l1Run_heldFrom hrun).findsOwnBlock⟩

theorem splitsSafely_iff (c : SplitConfig) (trace : List Access) :
    SplitsSafely c trace ↔
      c.l2Ways ≤ 128 ∨ ∀ i, (received c.toConfig i trace).card ≤ 128 := by
  constructor
  · intro h
    rcases Nat.lt_or_ge 128 c.l2Ways with hways | hways
    · obtain ⟨s, hrun, -⟩ := h.returns
      exact .inr ((l1Run_returns_iff hways trace).mp ⟨s, hrun⟩)
    · exact .inl hways
  · intro hroom
    apply c.splitsSafely_of_returns
    rcases Nat.lt_or_ge 128 c.l2Ways with hways | hways
    · exact (l1Run_returns_iff hways trace).mpr (hroom.resolve_left (by omega))
    · exact c.l1Run_returns hways trace

/-- The accesses of a trace are split and looked up safely exactly when the ways fit their slots or
no set is asked for more blocks than it has slots, and those of every trace exactly when the ways
fit. In every geometry both splits are exact, an access to L2 fails only when `get_LRU_index` finds
no slot, and no run takes one block for another. -/
theorem address_split_iff (c : SplitConfig) :
    (∀ trace, SplitsSafely c trace ↔
        c.l2Ways ≤ 128 ∨ ∀ i, (received c.toConfig i trace).card ≤ 128) ∧
      ((∀ trace, SplitsSafely c trace) ↔ c.l2Ways ≤ 128) ∧
      AddressSplit.Exact c.l2IndexMax c.l2OffsetSize (l2Index c.toConfig) (l2Tag c.toConfig) ∧
      AddressSplit.Exact l1IndexMax l1OffsetSize l1Index l1Tag ∧
      (∀ (s : Cachesim) (a : Access), l2CachesimAccess c.toConfig s a.1 a.2 = none →
        getLRUIndex (s.l2Cache (l2Index c.toConfig a.1)) = none) ∧
      ∀ trace s, l1Run c.toConfig (cachesimInit c.toConfig) trace = some s →
        FindsOwnBlock c.toConfig trace s := by
  refine ⟨splitsSafely_iff c, ⟨fun h => ?_, fun hways trace => ?_⟩, c.exact, l1_exact,
    fun _ _ h => (c.lookups_of_none h).2, fun _ _ hrun => (l1Run_heldFrom hrun).findsOwnBlock⟩
  · refine ((splitsSafely_iff c (reads 129)).mp (h _)).resolve_right fun hroom => ?_
    have hcard := hroom 0
    rw [card_received_reads c 129 (by decide)] at hcard
    omega
  · exact (splitsSafely_iff c trace).mpr (.inl hways)

/-- Six sets of three 48-byte blocks. -/
def sixSets : SplitConfig where
  l2Blocksize := 48
  l2Cachesize := 1000
  l2Ways := 3
  blocksize_pos := by decide
  ways_pos := by decide
  cachesize_ge := by decide
  cachesize_lt := by decide
  bits_pos := by decide
  bits_le := by decide

/-- Block size and number of sets are no powers of two: 32 bytes share a tag and an index. -/
theorem address_split_iff_six : ∀ trace, SplitsSafely sixSets trace :=
  (address_split_iff sixSets).2.1.mpr (by decide)

/-- One set of 129 ways. -/
def oneSet : SplitConfig where
  l2Blocksize := 64
  l2Cachesize := 8256
  l2Ways := 129
  blocksize_pos := by decide
  ways_pos := by decide
  cachesize_ge := by decide
  cachesize_lt := by decide
  bits_pos := by decide
  bits_le := by decide

/-- After 128 blocks the set has no slot with counter 0, and the 129th indexes it at -1. -/
theorem address_split_overfull :
    (∃ s, l1Run oneSet.toConfig (cachesimInit oneSet.toConfig) (reads 128) = some s ∧
        getLRUIndex (s.l2Cache 0) = none) ∧
      l1Run oneSet.toConfig (cachesimInit oneSet.toConfig) (reads 129) = none ∧
      ¬ SplitsSafely oneSet (reads 129) := by
  have hways : 128 < oneSet.l2Ways := by decide
  have hfull := card_received_reads oneSet 128 (by decide)
  have hover := card_received_reads oneSet 129 (by decide)
  have hnone : ¬ ∃ s,
      l1Run oneSet.toConfig (cachesimInit oneSet.toConfig) (reads 129) = some s := by
    intro h
    have hle := (l1Run_returns_iff hways (reads 129)).mp h 0
    omega
  refine ⟨?_, ?_, fun h => hnone (h.returns.imp fun _ hs => hs.1)⟩
  · obtain ⟨s, hrun⟩ := (l1Run_returns_iff hways (reads 128)).mpr fun i =>
      received_reads_le oneSet 128 i (by decide)
    exact ⟨s, hrun, (((l1Run_fills hways hrun).sets 0).victim_none hways).mpr hfull⟩
  · exact Option.eq_none_iff_forall_ne_some.mpr fun s hs => hnone ⟨s, hs⟩

end ECE3056.Cache
