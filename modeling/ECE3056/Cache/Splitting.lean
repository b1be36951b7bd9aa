import ECE3056.Cache.Geometry

/-!
# No two blocks are confused, in any geometry

Block size, ways and cache size need not be powers of two: `log2` rounds down, so the
index field names at most as many sets as there are, and the tag keeps every bit above
it. Whatever a lookup finds was therefore stored by an access to the block it looks for.
Up to 128 ways, no access indexes an array out of bounds.
-/
namespace ECE3056.Cache

open History (run_keeps)

/-- A geometry whose addresses can be split: an `int` cache size that holds at least one set of
some blocks, with between 1 and 63 bits below the tag. -/
structure SplitConfig extends Config where
  blocksize_pos : 1 ≤ l2Blocksize
  ways_pos : 1 ≤ l2Ways
  cachesize_ge : l2Blocksize * l2Ways ≤ l2Cachesize
  cachesize_lt : l2Cachesize < 2 ^ 31
  bits_pos : 1 ≤ toConfig.l2IndexSize + toConfig.l2OffsetSize
  bits_le : toConfig.l2IndexSize + toConfig.l2OffsetSize ≤ 63

namespace SplitConfig

variable (c : SplitConfig)

theorem sets_pos : 1 ≤ c.l2IndexMax :=
  Nat.div_pos c.cachesize_ge (Nat.mul_pos c.blocksize_pos c.ways_pos)

theorem exact : AddressSplit.Exact c.l2IndexMax c.l2OffsetSize (l2Index c.toConfig)
    (l2Tag c.toConfig) :=
  c.l2_exact c.sets_pos (c.bits_le.trans (by decide))

theorem tag_ne_sentinel (a : Addr) : l2Tag c.toConfig a ≠ -1 :=
  AddressSplit.tag_ne_allOnes c.bits_pos a

/-- The simulator has 128 slots a set. -/
def runnable (hle : c.l2Ways ≤ 128) : RunnableConfig where
  toConfig := c.toConfig
  ways_pos := c.ways_pos
  ways_le := hle
  sets_pos := c.sets_pos
  bits_pos := c.bits_pos
  cachesize_lt := c.cachesize_lt

theorem l1Run_returns (hle : c.l2Ways ≤ 128) (trace : List Access) :
    ∃ s, l1Run c.toConfig (cachesimInit c.toConfig) trace = some s :=
  (l1Run_represents (c.runnable hle) trace).imp fun _ h => h.1

/-- An access to L2 fails only for want of a slot to refill, never for its index. -/
theorem lookups_of_none {s : Cachesim} {a : Access}
    (h : l2CachesimAccess c.toConfig s a.1 a.2 = none) :
    checkTagAndValidBit (s.l2Cache (l2Index c.toConfig a.1)) (l2Tag c.toConfig a.1) = none ∧
      getLRUIndex (s.l2Cache (l2Index c.toConfig a.1)) = none := by
  simp only [l2CachesimAccess, c.exact.index_lt a.1, ↓reduceIte] at h
  cases hb : checkTagAndValidBit (s.l2Cache (l2Index c.toConfig a.1)) (l2Tag c.toConfig a.1) with
  | some b => simp [hb] at h
  | none =>
    cases hv : getLRUIndex (s.l2Cache (l2Index c.toConfig a.1)) with
    | some b => simp [hb, hv] at h
    | none => exact ⟨rfl, rfl⟩

end SplitConfig

/-! ## What the lines and the slots hold -/

/-- Some access of the trace was split into this index and this tag. -/
def Accessed (index : Addr → Nat) (tag : Addr → Addr) (trace : List Access) (i : Nat) (t : Addr) :
    Prop :=
  ∃ b ∈ trace, tag b.1 = t ∧ index b.1 = i

section
variable {index : Addr → Nat} {tag : Addr → Addr} {trace : List Access} {i : Nat} {t : Addr}

theorem Accessed.concat (h : Accessed index tag trace i t) (a : Access) :
    Accessed index tag (trace ++ [a]) i t := by
  obtain ⟨b, hb, hsplit⟩ := h
  exact ⟨b, List.mem_append_left _ hb, hsplit⟩

theorem accessed_last (index : Addr → Nat) (tag : Addr → Addr) (trace : List Access) (a : Access) :
    Accessed index tag (trace ++ [a]) (index a.1) (tag a.1) :=
  ⟨a, by simp, rfl, rfl⟩

/-- An exact split leads from index and tag back to the block. -/
theorem Accessed.same_block {max offsetSize : Nat} {x : Addr}
    (h : Accessed index tag trace (index x) (tag x))
    (hexact : AddressSplit.Exact max offsetSize index tag) :
    ∃ b ∈ trace, b.1 >>> offsetSize = x >>> offsetSize := by
  obtain ⟨b, hb, hsplit⟩ := h
  exact ⟨b, hb, (hexact.same_iff b.1 x).mp hsplit⟩

end

/-- Every L1 line in use holds the tag of an access to it. -/
def LinesFrom (trace : List Access) (lines : Nat → L1CacheStruct) : Prop :=
  ∀ i, (lines i).validBit ≠ 0 → Accessed l1Index l1Tag trace i (lines i).tag

/-- Every L2 slot in use holds the tag of an access to its set. -/
def SetsFrom (c : Config) (trace : List Access) (sets : Nat → L2CacheStruct) : Prop :=
  ∀ i j, (sets i).tag j ≠ -1 → (sets i).validBit j ≠ 0 →
    Accessed (l2Index c) (l2Tag c) trace i ((sets i).tag j)

section
variable {c : Config} {trace : List Access} {lines : Nat → L1CacheStruct}
  {sets : Nat → L2CacheStruct}

theorem LinesFrom.concat (h : LinesFrom trace lines) (a : Access) :
    LinesFrom (trace ++ [a]) lines :=
  fun i hv => (h i hv).concat a

theorem LinesFrom.refill (h : LinesFrom trace lines) (a : Access) :
    LinesFrom (trace ++ [a]) (Function.update lines (l1Index a.1)
      (refillLine (lines (l1Index a.1)) (l1Tag a.1) a.2)) := by
  intro i hv
  by_cases hi : i = l1Index a.1
  · rw [hi, Function.update_self]
    exact accessed_last l1Index l1Tag trace a
  · rw [Function.update_of_ne hi] at hv ⊢
    exact h.concat a i hv

theorem LinesFrom.dirty (h : LinesFrom trace lines) (i : Nat) (d : Int) :
    LinesFrom trace (Function.update lines i { lines i with dirtyBit := d }) := by
  intro k hv
  by_cases hk : k = i
  · rw [hk, Function.update_self] at hv ⊢
    exact h i hv
  · rw [Function.update_of_ne hk] at hv ⊢
    exact h k hv

theorem linesFrom_next {v : L1View} (hd : LinesFrom trace v.dCache) (hi : LinesFrom trace v.iCache)
    (a : Access) :
    LinesFrom (trace ++ [a]) (v.next a).dCache ∧ LinesFrom (trace ++ [a]) (v.next a).iCache := by
  unfold L1View.next
  dsimp only
  split_ifs
  · exact ⟨hd.refill a, hi.concat a⟩
  · exact ⟨(hd.concat a).dirty _ 1, hi.concat a⟩
  · exact ⟨hd.concat a, hi.concat a⟩
  · exact ⟨hd.concat a, hi.refill a⟩
  · exact ⟨hd.concat a, hi.concat a⟩
  · exact ⟨hd.concat a, hi.concat a⟩

theorem SetsFrom.concat (h : SetsFrom c trace sets) (a : Access) : SetsFrom c (trace ++ [a]) sets :=
  fun i j ht hv => (h i j ht hv).concat a

/-- A set whose slots were in use before, or hold the tag of the access, takes the place of the
set that the access is to. -/
theorem SetsFrom.replace (h : SetsFrom c trace sets) {a : Access} {set : L2CacheStruct}
    (hset : ∀ j, set.tag j = l2Tag c a.1 ∨ set.tag j = (sets (l2Index c a.1)).tag j ∧
      set.validBit j = (sets (l2Index c a.1)).validBit j) :
    SetsFrom c (trace ++ [a]) (Function.update sets (l2Index c a.1) set) := by
  intro i j ht hv
  by_cases hi : i = l2Index c a.1
  · subst hi
    rw [Function.update_self] at ht hv ⊢
    rcases hset j with htag | ⟨htag, hvalid⟩
    · rw [htag]
      exact accessed_last (l2Index c) (l2Tag c) trace a
    · rw [htag] at ht ⊢
      rw [hvalid] at hv
      exact h.concat a _ j ht hv
  · rw [Function.update_of_ne hi] at ht hv ⊢
    exact h.concat a i j ht hv

theorem SetsFrom.l2Step {s s' : Cachesim} {a : Access} (h : SetsFrom c trace s.l2Cache)
    (hs : l2CachesimAccess c s a.1 a.2 = some s') : SetsFrom c (trace ++ [a]) s'.l2Cache := by
  obtain ⟨-, ⟨b, -, rfl⟩ | ⟨b, -, -, rfl⟩⟩ := l2_cases hs
  · refine h.replace fun j => .inr ?_
    simp only [setLRUCounter, hitBlock, l2Count]
    split <;> exact ⟨rfl, rfl⟩
  · refine h.replace fun j => ?_
    simp only [setLRUCounter, fillBlock, l2Count]
    by_cases hj : j = b
    · rw [hj, Function.update_self]
      exact .inl rfl
    · rw [Function.update_of_ne hj, Function.update_of_ne hj]
      exact .inr ⟨rfl, rfl⟩

end

/-- What the caches hold after a trace comes from its accesses. -/
structure HeldFrom (c : Config) (trace : List Access) (s : Cachesim) : Prop where
  data : LinesFrom trace s.dCache
  fetch : LinesFrom trace s.iCache
  sets : SetsFrom c trace s.l2Cache

theorem heldFrom_init (c : Config) : HeldFrom c [] (cachesimInit c) where
  data _ hv := absurd rfl hv
  fetch _ hv := absurd rfl hv
  sets _ j ht hv := by
    by_cases hj : j.val < c.l2Ways
    · exact absurd (if_pos hj) hv
    · exact absurd (if_neg hj) ht

theorem HeldFrom.l1Step {c : Config} {trace : List Access} {s s' : Cachesim} {a : Access}
    (h : HeldFrom c trace s) (hs : l1CachesimAccess c s a.1 a.2 = some s') :
    HeldFrom c (trace ++ [a]) s' := by
  obtain ⟨hview, hl2⟩ := l1_cases hs
  have hlines : LinesFrom (trace ++ [a]) (l1View s').dCache ∧
      LinesFrom (trace ++ [a]) (l1View s').iCache := by
    rw [hview]
    exact linesFrom_next h.data h.fetch a
  refine ⟨hlines.1, hlines.2, ?_⟩
  rcases hl2 with ⟨-, hsame, -⟩ | ⟨-, t, t', hst, -, hacc, hts, -⟩
  · rw [hsame.l2Cache]
    exact h.sets.concat a
  · have ht : SetsFrom c trace t.l2Cache := hst.l2Cache ▸ h.sets
    rw [hts.l2Cache]
    exact ht.l2Step hacc

theorem l1Run_heldFrom {c : Config} {trace : List Access} {s : Cachesim}
    (hrun : l1Run c (cachesimInit c) trace = some s) : HeldFrom c trace s :=
  run_keeps (heldFrom_init c) (fun _ _ _ _ h hs => h.l1Step hs) hrun

/-! ## Lookups -/

/-- Whatever a lookup finds in a line or a slot in use was stored by an access to the same
block. -/
structure FindsOwnBlock (c : Config) (trace : List Access) (s : Cachesim) : Prop where
  data : ∀ a, (s.dCache (l1Index a)).validBit ≠ 0 → (s.dCache (l1Index a)).tag = l1Tag a →
    ∃ b ∈ trace, b.1 >>> l1OffsetSize = a >>> l1OffsetSize
  fetch : ∀ a, (s.iCache (l1Index a)).validBit ≠ 0 → (s.iCache (l1Index a)).tag = l1Tag a →
    ∃ b ∈ trace, b.1 >>> l1OffsetSize = a >>> l1OffsetSize
  slot : ∀ a j, checkTagAndValidBit (s.l2Cache (l2Index c a)) (l2Tag c a) = some j →
    ∃ b ∈ trace, b.1 >>> c.l2OffsetSize = a >>> c.l2OffsetSize

theorem LinesFrom.finds {trace : List Access} {lines : Nat → L1CacheStruct}
    (h : LinesFrom trace lines) (a : Addr) (hv : (lines (l1Index a)).validBit ≠ 0)
    (ht : (lines (l1Index a)).tag = l1Tag a) :
    ∃ b ∈ trace, b.1 >>> l1OffsetSize = a >>> l1OffsetSize := by
  have haccessed := h (l1Index a) hv
  rw [ht] at haccessed
  exact haccessed.same_block l1_exact

theorem SetsFrom.finds {c : SplitConfig} {trace : List Access} {sets : Nat → L2CacheStruct}
    (h : SetsFrom c.toConfig trace sets) (a : Addr) (j : Fin 128)
    (hj : checkTagAndValidBit (sets (l2Index c.toConfig a)) (l2Tag c.toConfig a) = some j) :
    ∃ b ∈ trace, b.1 >>> c.l2OffsetSize = a >>> c.l2OffsetSize := by
  have hfound := List.find?_some hj
  rw [decide_eq_true_iff] at hfound
  obtain ⟨hne, hv, ht⟩ := hfound
  have haccessed := h _ j hne hv
  rw [ht] at haccessed
  exact haccessed.same_block c.exact

theorem HeldFrom.findsOwnBlock {c : SplitConfig} {trace : List Access} {s : Cachesim}
    (h : HeldFrom c.toConfig trace s) : FindsOwnBlock c.toConfig trace s where
  data := h.data.finds
  fetch := h.fetch.finds
  slot := h.sets.finds

end ECE3056.Cache
