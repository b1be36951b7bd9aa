import ECE3056.Library.History
import ECE3056.Cache.SetInvariant

/-!
# The L2 cache refines a write-back LRU cache

Each access to the L2 cache is one touch of the set it maps to. The run lemma
carries the representation of every set, and the hit, miss and write-back
counters, along an arbitrary sequence of accesses after `cachesim_init`.
-/
namespace ECE3056.Cache

open Recency (Entries access tags position evicted recency DirtySince)
open History (countSteps countSteps_concat run_invariant)

section Lookup
variable {ways : Nat} {cache : L2CacheStruct} {entries : Entries Addr} {t : Addr}

theorem Represents.position_eq (h : Represents ways cache entries) {k : Nat} {d : Bool}
    (he : entries[k]? = some (t, d)) : position entries t = k := by
  have ht : (tags entries)[k]? = some t := by rw [tags, List.getElem?_map, he]; rfl
  obtain ⟨hk, hget⟩ := List.getElem?_eq_some_iff.mp ht
  rw [position, ← hget]
  exact h.nodup.idxOf_getElem k hk

/-- A found slot is a way in use, and it holds the entry at its own rank. -/
theorem Represents.lookup_some (h : Represents ways cache entries) {b : Fin 128}
    (hb : checkTagAndValidBit cache t = some b) :
    b.val < ways ∧ rank ways cache b = position entries t ∧
      ∃ d, entries[position entries t]? = some (t, d) ∧ SlotHolds cache b (some (t, d)) := by
  obtain ⟨hsent, hvalid, htag⟩ : cache.tag b ≠ -1 ∧ cache.validBit b ≠ 0 ∧ cache.tag b = t := by
    simpa using List.find?_some hb
  have hlt : b.val < ways := by
    by_contra hge
    exact hsent (h.unused b (Nat.le_of_not_lt hge)).1
  have hs := h.slot b hlt
  cases he : entries[rank ways cache b]? with
  | none =>
    rw [he] at hs
    exact absurd hs.1 hvalid
  | some e =>
    obtain ⟨t', d⟩ := e
    rw [he] at hs
    obtain rfl : t' = t := hs.2.1.symm.trans htag
    have hp := h.position_eq he
    exact ⟨hlt, hp.symm, d, hp ▸ he, hs⟩

theorem Represents.lookup_none (h : Represents ways cache entries) (hle : ways ≤ 128)
    (ht : t ≠ -1) (hb : checkTagAndValidBit cache t = none) : t ∉ tags entries := by
  intro hmem
  obtain ⟨d, he⟩ := Recency.getElem?_position hmem
  obtain ⟨hk, -⟩ := List.getElem?_eq_some_iff.mp he
  obtain ⟨j, hj, hr⟩ := h.exists_rank hle (hk.trans_le h.length_le)
  have hs := h.slot j hj
  rw [hr, he] at hs
  have hnone := List.find?_eq_none.mp hb j (List.mem_finRange j)
  rw [decide_eq_true_iff] at hnone
  exact hnone ⟨by rwa [hs.2.1], by rw [hs.1]; decide, hs.2.1⟩

/-- The slot with counter 0 exists; it is the way at the last rank. -/
theorem Represents.victim (h : Represents ways cache entries) (hpos : 1 ≤ ways)
    (hle : ways ≤ 128) :
    ∃ b, getLRUIndex cache = some b ∧ b.val < ways ∧ rank ways cache b = ways - 1 := by
  obtain ⟨j, hj, hr⟩ := h.exists_rank (k := ways - 1) hle (by omega)
  have hcj := h.counter_mem j hj
  have hzero : cache.lruCounter j = 0 := by unfold rank at hr; omega
  cases hb : getLRUIndex cache with
  | none =>
    have hnone := List.find?_eq_none.mp hb j (List.mem_finRange j)
    simp [hzero] at hnone
  | some b =>
    have hzb : cache.lruCounter b = 0 := by simpa using List.find?_some hb
    have hlt : b.val < ways := by
      by_contra hge
      have hun := (h.unused b (Nat.le_of_not_lt hge)).2.2.2
      omega
    refine ⟨b, rfl, hlt, ?_⟩
    unfold rank
    omega

theorem Represents.hitBlock {c : Config} (h : Represents c.l2Ways cache entries) {b : Fin 128}
    (hb : checkTagAndValidBit cache t = some b) (input : Char) :
    Represents c.l2Ways (setLRUCounter c (hitBlock cache b input) b)
      (access c.l2Ways entries t (input = 'w')) := by
  obtain ⟨hlt, hrank, d, he, hs⟩ := h.lookup_some hb
  rw [Recency.access_hit he, ← hrank]
  have hfresh : t ∉ tags (entries.eraseIdx (rank c.l2Ways cache b)) := by
    rw [Recency.tags_eraseIdx, hrank, position, ← List.erase_eq_eraseIdx_of_idxOf rfl]
    exact h.nodup.not_mem_erase
  refine h.promote hlt ?_ ?_ ?_ hfresh
  · unfold Cache.hitBlock; split_ifs <;> rfl
  · intro j hj
    unfold Cache.hitBlock
    split_ifs <;> simp [hj]
  · unfold Cache.hitBlock
    obtain ⟨hv, ht, hd⟩ := hs
    split_ifs with hw
    · exact ⟨hv, ht, by simp [hw]⟩
    · exact ⟨hv, ht, by simp [hw, hd]⟩

theorem Represents.fillBlock {c : Config} (h : Represents c.l2Ways cache entries) {b : Fin 128}
    (hmiss : t ∉ tags entries) (hlt : b.val < c.l2Ways)
    (hrank : rank c.l2Ways cache b = c.l2Ways - 1) (input : Char) :
    Represents c.l2Ways (setLRUCounter c (fillBlock cache b t input) b)
      (access c.l2Ways entries t (input = 'w')) := by
  rw [Recency.access_miss hmiss, ← hrank]
  have hfresh : t ∉ tags (entries.eraseIdx (rank c.l2Ways cache b)) := by
    rw [Recency.tags_eraseIdx]
    exact fun hm => hmiss (List.mem_of_mem_eraseIdx hm)
  have hdirty : cache.dirtyBit b = 0 ∨ cache.dirtyBit b = 1 := by
    have hs := h.slot b hlt
    cases he : entries[rank c.l2Ways cache b]? with
    | none => rw [he] at hs; exact Or.inl hs.2
    | some e =>
      rw [he] at hs
      rcases e with ⟨_, _ | _⟩
      · exact Or.inl (by simpa using hs.2.2)
      · exact Or.inr (by simpa using hs.2.2)
  refine h.promote hlt rfl ?_ ?_ hfresh
  · intro j hj
    unfold Cache.fillBlock
    split_ifs <;> simp [hj]
  · unfold Cache.fillBlock
    refine ⟨by simp, by simp, ?_⟩
    by_cases hw : input = 'w'
    · simp [hw]
    · rcases hdirty with hd | hd <;> simp [hw, hd]

end Lookup

/-! ## Whole runs -/

/-- The touches of one set that a sequence of L2 accesses makes. -/
def setHistory (c : Config) (i : Nat) (trace : List Access) : List (Addr × Bool) :=
  (trace.filter fun a => l2Index c a.1 = i).map fun a => (l2Tag c a.1, decide (a.2 = 'w'))

/-- The blocks that the reference LRU set `i` holds after a trace. -/
def lruSet (c : Config) (i : Nat) (trace : List Access) : Entries Addr :=
  Recency.run c.l2Ways (setHistory c i trace)

/-- The access finds its tag among the last `ways` distinct tags of its set. -/
def hits (c : Config) (past : List Access) (a : Access) : Bool :=
  l2Tag c a.1 ∈ (recency ((setHistory c (l2Index c a.1) past).map Prod.fst)).take c.l2Ways

/-- The access pushes a dirty block out of its set. -/
def evictsDirty (c : Config) (past : List Access) (a : Access) : Bool :=
  (evicted c.l2Ways (lruSet c (l2Index c a.1) past) (l2Tag c a.1)).any Prod.snd

theorem setHistory_concat_self (c : Config) (trace : List Access) (a : Access) :
    setHistory c (l2Index c a.1) (trace ++ [a]) =
      setHistory c (l2Index c a.1) trace ++ [(l2Tag c a.1, decide (a.2 = 'w'))] := by
  simp [setHistory]

theorem setHistory_concat_of_ne {c : Config} {i : Nat} (trace : List Access) {a : Access}
    (h : l2Index c a.1 ≠ i) : setHistory c i (trace ++ [a]) = setHistory c i trace := by
  simp [setHistory, h]

theorem lruSet_concat_self (c : Config) (trace : List Access) (a : Access) :
    lruSet c (l2Index c a.1) (trace ++ [a]) =
      access c.l2Ways (lruSet c (l2Index c a.1) trace) (l2Tag c a.1) (decide (a.2 = 'w')) := by
  rw [lruSet, setHistory_concat_self, Recency.run_concat]
  rfl

theorem lruSet_concat_of_ne {c : Config} {i : Nat} (trace : List Access) {a : Access}
    (h : l2Index c a.1 ≠ i) : lruSet c i (trace ++ [a]) = lruSet c i trace := by
  rw [lruSet, setHistory_concat_of_ne trace h, lruSet]

/-- What the L2 state says about the accesses that produced it. -/
structure L2Inv (c : LegalConfig) (trace : List Access) (s : Cachesim) : Prop where
  sets : ∀ i, Represents c.l2Ways (s.l2Cache i) (lruSet c.toConfig i trace)
  l2Hit_eq : s.l2Hit = countSteps (hits c.toConfig) trace
  l2Miss_eq : s.l2Miss = countSteps (fun past a => !hits c.toConfig past a) trace
  writebacks_eq : s.writebacks = countSteps (evictsDirty c.toConfig) trace

theorem l2Inv_init (c : LegalConfig) : L2Inv c [] (cachesimInit c.toConfig) where
  sets _ := represents_init c.toConfig
  l2Hit_eq := rfl
  l2Miss_eq := rfl
  writebacks_eq := rfl

theorem hits_iff (c : LegalConfig) (past : List Access) (a : Access) :
    hits c.toConfig past a = true ↔
      l2Tag c.toConfig a.1 ∈ tags (lruSet c.toConfig (l2Index c.toConfig a.1) past) := by
  rw [hits, decide_eq_true_iff, lruSet, Recency.tags_run c.ways_pos]

/-- One access keeps the invariant; it leaves every other set alone. -/
theorem L2Inv.step {c : LegalConfig} {trace : List Access} {s : Cachesim} (h : L2Inv c trace s)
    (a : Access) :
    ∃ s', l2CachesimAccess c.toConfig s a.1 a.2 = some s' ∧ L2Inv c (trace ++ [a]) s' ∧
      ∀ i, i ≠ l2Index c.toConfig a.1 → s'.l2Cache i = s.l2Cache i := by
  have hset := h.sets (l2Index c.toConfig a.1)
  have hframe : ∀ (cache : L2CacheStruct), Represents c.l2Ways cache
      (access c.l2Ways (lruSet c.toConfig (l2Index c.toConfig a.1) trace) (l2Tag c.toConfig a.1)
        (decide (a.2 = 'w'))) →
      ∀ i, Represents c.l2Ways (Function.update s.l2Cache (l2Index c.toConfig a.1) cache i)
        (lruSet c.toConfig i (trace ++ [a])) := by
    intro cache hc i
    by_cases hi : i = l2Index c.toConfig a.1
    · rw [hi, Function.update_self, lruSet_concat_self]
      exact hc
    · rw [Function.update_of_ne hi, lruSet_concat_of_ne trace (Ne.symm hi)]
      exact h.sets i
  cases hb : checkTagAndValidBit (s.l2Cache (l2Index c.toConfig a.1)) (l2Tag c.toConfig a.1) with
  | some b =>
    obtain ⟨-, -, d, he, -⟩ := hset.lookup_some hb
    have hmem : l2Tag c.toConfig a.1 ∈
        tags (lruSet c.toConfig (l2Index c.toConfig a.1) trace) :=
      List.mem_map.mpr ⟨_, List.mem_of_getElem? he, rfl⟩
    have hhit : hits c.toConfig trace a = true := (hits_iff c trace a).mpr hmem
    refine ⟨l2OnHit c.toConfig (l2Count s a.2) (l2Index c.toConfig a.1) b a.2, ?_,
      ⟨hframe _ (hset.hitBlock hb a.2), ?_, ?_, ?_⟩, fun i hi => Function.update_of_ne hi _ _⟩
    · simp only [l2CachesimAccess, c.index_lt a.1, ↓reduceIte, hb]
    · rw [countSteps_concat, hhit, ← h.l2Hit_eq]; rfl
    · rw [countSteps_concat, hhit, ← h.l2Miss_eq]; rfl
    · rw [countSteps_concat, ← h.writebacks_eq, evictsDirty, evicted, if_pos hmem]; rfl
  | none =>
    have hmiss := hset.lookup_none c.ways_le (c.tag_ne_sentinel a.1) hb
    have hhit : hits c.toConfig trace a = false := by
      rw [← Bool.not_eq_true, hits_iff]
      exact hmiss
    obtain ⟨b, hv, hlt, hrank⟩ := hset.victim c.ways_pos c.ways_le
    refine ⟨l2OnMiss c.toConfig (l2Count s a.2) (l2Index c.toConfig a.1) b
      (l2Tag c.toConfig a.1) a.2, ?_, ⟨hframe _ (hset.fillBlock hmiss hlt hrank a.2), ?_, ?_, ?_⟩,
      fun i hi => Function.update_of_ne hi _ _⟩
    · simp only [l2CachesimAccess, c.index_lt a.1, ↓reduceIte, hb, hv]
    · rw [countSteps_concat, hhit, ← h.l2Hit_eq]; rfl
    · rw [countSteps_concat, hhit, ← h.l2Miss_eq]; rfl
    · have hs := hset.slot b hlt
      rw [countSteps_concat, ← h.writebacks_eq, evictsDirty, evicted, if_neg hmiss, ← hrank]
      cases he : (lruSet c.toConfig (l2Index c.toConfig a.1) trace)[rank c.l2Ways
          (s.l2Cache (l2Index c.toConfig a.1)) b]? with
      | none =>
        rw [he] at hs
        simp [l2OnMiss, l2Count, hs.2]
      | some e =>
        rw [he] at hs
        rcases e with ⟨t, _ | _⟩
        · simp [l2OnMiss, l2Count, hs.2.2]
        · simp [l2OnMiss, l2Count, hs.2.2]

theorem l2Run_inv (c : LegalConfig) (trace : List Access) :
    ∃ s, l2Run c.toConfig (cachesimInit c.toConfig) trace = some s ∧ L2Inv c trace s :=
  run_invariant (l2Inv_init c)
    (fun _ _ a h => (h.step a).imp fun _ hs => ⟨hs.1, hs.2.1⟩) trace

/-! ## The order the counters encode -/

/-- The valid slots with their dirty bits, from the largest counter down. -/
def recencyOrder (c : Config) (cache : L2CacheStruct) : List (Addr × Int) :=
  (List.range c.l2Ways).filterMap fun (k : Nat) =>
    ((List.finRange 128).find? fun j =>
      cache.lruCounter j = (c.l2Ways : Int) - 1 - k ∧ cache.validBit j ≠ 0).map fun j =>
        (cache.tag j, cache.dirtyBit j)

def dirtyInt (e : Addr × Bool) : Addr × Int := (e.1, if e.2 then 1 else 0)

theorem filterMap_getElem?_range {α β : Type*} (f : α → β) (l : List α) (n : Nat) :
    (List.range n).filterMap (fun k => l[k]?.map f) = (l.take n).map f := by
  induction n with
  | zero => simp
  | succ n ih =>
    rw [List.range_succ, List.filterMap_append, ih, List.take_add_one, List.map_append]
    congr 1
    cases he : l[n]? <;> simp [he]

theorem Represents.recencyOrder_eq {c : LegalConfig} {cache : L2CacheStruct}
    {entries : Entries Addr} (h : Represents c.l2Ways cache entries) :
    recencyOrder c.toConfig cache = entries.map dirtyInt := by
  have hk : ∀ k ∈ List.range c.l2Ways,
      (((List.finRange 128).find? fun j => cache.lruCounter j = (c.l2Ways : Int) - 1 - k ∧
        cache.validBit j ≠ 0).map fun j => (cache.tag j, cache.dirtyBit j)) =
      entries[k]?.map dirtyInt := by
    intro k hmem
    have hlt : k < c.l2Ways := List.mem_range.mp hmem
    obtain ⟨j, hj, hr⟩ := h.exists_rank c.ways_le hlt
    have hcj := h.counter_mem j hj
    have hlru : cache.lruCounter j = (c.l2Ways : Int) - 1 - k := by unfold rank at hr; omega
    have hslot := h.slot j hj
    rw [hr] at hslot
    -- only way `j` can carry this counter: the slots past `ways` carry -1
    have hunique : ∀ i, cache.lruCounter i = (c.l2Ways : Int) - 1 - k → i = j := by
      intro i hi
      refine h.counter_inj i j ?_ hj (hi.trans hlru.symm)
      by_contra hge
      have hun := (h.unused i (Nat.le_of_not_lt hge)).2.2.2
      omega
    cases hf : (List.finRange 128).find? fun j =>
        cache.lruCounter j = (c.l2Ways : Int) - 1 - k ∧ cache.validBit j ≠ 0 with
    | none =>
      have hnone := List.find?_eq_none.mp hf j (List.mem_finRange j)
      have hv : cache.validBit j = 0 := by simpa [hlru] using hnone
      cases he : entries[k]? with
      | none => rfl
      | some e =>
        rw [he] at hslot
        have h1 := hslot.1
        omega
    | some i =>
      obtain ⟨hi, hv⟩ : cache.lruCounter i = (c.l2Ways : Int) - 1 - k ∧ cache.validBit i ≠ 0 := by
        simpa using List.find?_some hf
      obtain rfl := hunique i hi
      cases he : entries[k]? with
      | none =>
        rw [he] at hslot
        exact absurd hslot.1 hv
      | some e =>
        rw [he] at hslot
        simp [dirtyInt, hslot.2.1, hslot.2.2]
  rw [recencyOrder, List.filterMap_congr hk, filterMap_getElem?_range,
    List.take_of_length_le h.length_le]

theorem Represents.recencyOrder_tags {c : LegalConfig} {cache : L2CacheStruct}
    {entries : Entries Addr} (h : Represents c.l2Ways cache entries) :
    (recencyOrder c.toConfig cache).map Prod.fst = tags entries := by
  rw [h.recencyOrder_eq, List.map_map, tags]
  rfl

/-- After any accesses from `cachesim_init`, the counters order each set's blocks as a
write-back LRU cache would hold them, hits and write-backs are that cache's, and the next
access changes its own set only, dropping the least recently used block of a full set. -/
theorem l2_write_back_lru (c : LegalConfig) (trace : List Access) :
    ∃ s, l2Run c.toConfig (cachesimInit c.toConfig) trace = some s ∧
      (∀ i < c.l2IndexMax,
        (recencyOrder c.toConfig (s.l2Cache i)).map Prod.fst =
          (recency ((setHistory c.toConfig i trace).map Prod.fst)).take c.l2Ways ∧
        ∀ t d, (t, d) ∈ recencyOrder c.toConfig (s.l2Cache i) →
          (d = 0 ∨ d = 1) ∧
          (d = 1 ↔ DirtySince c.l2Ways (setHistory c.toConfig i trace) t)) ∧
      s.l2Hit = countSteps (hits c.toConfig) trace ∧
      s.l2Miss = countSteps (fun past a => !hits c.toConfig past a) trace ∧
      s.writebacks = countSteps (evictsDirty c.toConfig) trace ∧
      ∀ a : Access, ∃ s', l2CachesimAccess c.toConfig s a.1 a.2 = some s' ∧
        (∀ i, i ≠ l2Index c.toConfig a.1 → s'.l2Cache i = s.l2Cache i) ∧
        (s'.l2Hit = s.l2Hit + 1 ↔ l2Tag c.toConfig a.1 ∈
          (recencyOrder c.toConfig (s.l2Cache (l2Index c.toConfig a.1))).map Prod.fst) ∧
        ∀ t, t ∈ (recencyOrder c.toConfig (s.l2Cache (l2Index c.toConfig a.1))).map Prod.fst →
          t ∉ (recencyOrder c.toConfig (s'.l2Cache (l2Index c.toConfig a.1))).map Prod.fst →
          (∀ j : Fin 128, j.val < c.l2Ways →
            (s.l2Cache (l2Index c.toConfig a.1)).validBit j = 1) ∧
          ((recencyOrder c.toConfig (s.l2Cache (l2Index c.toConfig a.1))).map
            Prod.fst).getLast? = some t := by
  obtain ⟨s, hrun, hinv⟩ := l2Run_inv c trace
  refine ⟨s, hrun, fun i _ => ⟨?_, fun t d hmem => ?_⟩, hinv.l2Hit_eq, hinv.l2Miss_eq,
    hinv.writebacks_eq, fun a => ?_⟩
  · rw [(hinv.sets i).recencyOrder_tags]
    exact Recency.tags_run c.ways_pos _
  · rw [(hinv.sets i).recencyOrder_eq, List.mem_map] at hmem
    obtain ⟨⟨t', b⟩, hb, he⟩ := hmem
    obtain ⟨rfl, rfl⟩ := Prod.mk.inj he
    rw [← Recency.dirty_run c.ways_pos _ hb]
    cases b <;> simp
  · obtain ⟨s', hs', hinv', hframe⟩ := hinv.step a
    have hold := hinv.sets (l2Index c.toConfig a.1)
    have hnew := hinv'.sets (l2Index c.toConfig a.1)
    refine ⟨s', hs', hframe, ?_, fun t ht hlost => ?_⟩
    · rw [hold.recencyOrder_tags, ← hits_iff, hinv'.l2Hit_eq, countSteps_concat, hinv.l2Hit_eq]
      split_ifs with hh <;> simp [hh]
    · rw [hold.recencyOrder_tags] at ht ⊢
      rw [hnew.recencyOrder_tags, lruSet_concat_self] at hlost
      obtain ⟨hfull, hlast⟩ := Recency.lost_by_access hold.length_le ht hlost
      refine ⟨fun j hj => ?_, hlast⟩
      have hslot := hold.slot j hj
      have hr : rank c.l2Ways (s.l2Cache (l2Index c.toConfig a.1)) j <
          (lruSet c.toConfig (l2Index c.toConfig a.1) trace).length := by
        rw [hfull]; exact hold.rank_lt hj
      rw [List.getElem?_eq_getElem hr] at hslot
      exact hslot.1

end ECE3056.Cache
