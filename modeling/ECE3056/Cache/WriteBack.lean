import ECE3056.Cache.Hierarchy

/-!
# Who is responsible for modified data

A write makes a block pending until a write-back of that block is counted. The
hierarchy keeps a pending block as long as the block is dirty in the data cache or
in L2. A replaced dirty line is only cleared, so the responsibility is lost exactly
when a data miss replaces the dirty line of a pending block that is clean in L2.
-/
namespace ECE3056.Cache

open Recency (tags access evicted)

/-- Two addresses of one 64-byte block. -/
def sameBlock (x y : Addr) : Prop := AddressSplit.block 6 x = AddressSplit.block 6 y

instance (x y : Addr) : Decidable (sameBlock x y) :=
  inferInstanceAs (Decidable (AddressSplit.block 6 x = AddressSplit.block 6 y))

/-- The block of `x` is dirty in the data cache. -/
def dDirty (s : Cachesim) (x : Addr) : Prop :=
  (s.dCache (l1Index x)).tag = l1Tag x ∧ (s.dCache (l1Index x)).dirtyBit = 1

/-- The block of `x` is valid and dirty in L2. -/
def l2Dirty (c : Config) (s : Cachesim) (x : Addr) : Prop :=
  ∃ j : Fin 128, (s.l2Cache (l2Index c x)).validBit j ≠ 0 ∧
    (s.l2Cache (l2Index c x)).tag j = l2Tag c x ∧ (s.l2Cache (l2Index c x)).dirtyBit j = 1

/-- Index and tag of the block whose write-back an access counts, if it counts one. -/
def writtenBack (c : Config) (s : Cachesim) (a : Access) : Option (Nat × Addr) :=
  let cache := s.l2Cache (l2Index c a.1)
  if (l1View s).misses a then
    match checkTagAndValidBit cache (l2Tag c a.1) with
    | some _ => none
    | none =>
      match getLRUIndex cache with
      | some b => if cache.dirtyBit b = 1 then some (l2Index c a.1, cache.tag b) else none
      | none => none
  else none

/-- Access `e`, made after `past`, counts no write-back of the block of `x`. -/
def Keeps (c : Config) (past : List Access) (e : Access) (x : Addr) : Prop :=
  ∀ s, l1Run c (cachesimInit c) past = some s → writtenBack c s e ≠ some (l2Index c x, l2Tag c x)

/-- The block of `x` has been written and no write-back of it has been counted since. -/
def Pending (c : Config) (trace : List Access) (x : Addr) : Prop :=
  ∃ before y after, trace = before ++ (y, 'w') :: after ∧ sameBlock x y ∧
    ∀ b e a, after = b ++ e :: a → Keeps c (before ++ (y, 'w') :: b) e x

/-- No modified data has been dropped: every pending block is dirty somewhere. -/
def NoDrop (c : Config) (trace : List Access) : Prop :=
  ∀ s, l1Run c (cachesimInit c) trace = some s →
    ∀ x, Pending c trace x → dDirty s x ∨ l2Dirty c s x

/-- The access is a hit, or no data access, or replaces a line that is clean, not pending,
or backed by a dirty block in L2. -/
def ReplacesSafely (c : Config) (past : List Access) (e : Access) : Prop :=
  ∀ s, l1Run c (cachesimInit c) past = some s →
    (l1View s).dMisses e = true →
      ∀ x, l1Index x = l1Index e.1 → dDirty s x → Pending c past x → l2Dirty c s x

/-! ## Blocks and their two splits -/

section Blocks
variable {c : LegalConfig} {x y : Addr}

theorem sameBlock_iff_l1 : (l1Tag x = l1Tag y ∧ l1Index x = l1Index y) ↔ sameBlock x y :=
  AddressSplit.split_eq_iff 8 6 (by decide) x y

theorem sameBlock_iff_l2 (hb : c.l2Blocksize = 64) :
    (l2Tag c.toConfig x = l2Tag c.toConfig y ∧ l2Index c.toConfig x = l2Index c.toConfig y) ↔
      sameBlock x y := by
  have hoff : c.l2OffsetSize = 6 := by rw [Config.l2OffsetSize, hb]; decide
  have hbits := c.bits_le
  have h := AddressSplit.split_eq_iff c.l2IndexSize c.l2OffsetSize (by omega) x y
  rw [sameBlock, ← hoff]
  exact h

end Blocks

/-! ## One step -/

section Step
variable {c : LegalConfig} {l2 : List Access} {s : Cachesim}

theorem l2Dirty_iff (h : L2Inv c l2 s) (x : Addr) :
    l2Dirty c.toConfig s x ↔
      (l2Tag c.toConfig x, true) ∈ lruSet c.toConfig (l2Index c.toConfig x) l2 := by
  have hset := h.sets (l2Index c.toConfig x)
  constructor
  · rintro ⟨j, hv, ht, hd⟩
    have hj : j.val < c.l2Ways := by
      by_contra hge
      have hun := (hset.unused j (Nat.le_of_not_lt hge)).2.2.1
      omega
    have hslot := hset.slot j hj
    cases he : (lruSet c.toConfig (l2Index c.toConfig x) l2)[rank c.l2Ways
        (s.l2Cache (l2Index c.toConfig x)) j]? with
    | none =>
      rw [he] at hslot
      exact absurd hslot.1 hv
    | some e =>
      obtain ⟨t, d⟩ := e
      rw [he] at hslot
      have hd' := hslot.2.2
      obtain rfl : d = true := by
        cases d
        · simp [hd] at hd'
        · rfl
      rw [← ht, hslot.2.1]
      exact List.mem_of_getElem? he
  · intro hmem
    obtain ⟨k, hk⟩ := List.mem_iff_getElem?.mp hmem
    obtain ⟨hlt, -⟩ := List.getElem?_eq_some_iff.mp hk
    obtain ⟨j, hj, hr⟩ := hset.exists_rank c.ways_le (hlt.trans_le hset.length_le)
    have hslot := hset.slot j hj
    rw [hr, hk] at hslot
    exact ⟨j, by rw [hslot.1]; decide, hslot.2.1, by simpa using hslot.2.2⟩

/-- The counted write-back is of the dirty block that the reference set evicts. -/
theorem writtenBack_iff (h : L2Inv c l2 s) (a : Access) (i : Nat) (t : Addr) :
    writtenBack c.toConfig s a = some (i, t) ↔
      (l1View s).misses a = true ∧ i = l2Index c.toConfig a.1 ∧
        evicted c.l2Ways (lruSet c.toConfig i l2) (l2Tag c.toConfig a.1) = some (t, true) := by
  have hset := h.sets (l2Index c.toConfig a.1)
  unfold writtenBack
  by_cases hm : (l1View s).misses a = true
  · simp only [hm, ↓reduceIte, true_and]
    cases hb : checkTagAndValidBit (s.l2Cache (l2Index c.toConfig a.1)) (l2Tag c.toConfig a.1) with
    | some b =>
      obtain ⟨-, -, d, he, -⟩ := hset.lookup_some hb
      have hmem : l2Tag c.toConfig a.1 ∈
          tags (lruSet c.toConfig (l2Index c.toConfig a.1) l2) :=
        List.mem_map.mpr ⟨_, List.mem_of_getElem? he, rfl⟩
      constructor
      · intro he; simp at he
      · rintro ⟨rfl, he⟩
        rw [evicted, if_pos hmem] at he
        simp at he
    | none =>
      have hmiss := hset.lookup_none c.ways_le (c.tag_ne_sentinel a.1) hb
      obtain ⟨b, hv, hlt, hrank⟩ := hset.victim c.ways_pos c.ways_le
      have hslot := hset.slot b hlt
      have hev : evicted c.l2Ways (lruSet c.toConfig (l2Index c.toConfig a.1) l2)
          (l2Tag c.toConfig a.1) = (lruSet c.toConfig (l2Index c.toConfig a.1) l2)[rank c.l2Ways
            (s.l2Cache (l2Index c.toConfig a.1)) b]? := by
        rw [evicted, if_neg hmiss, hrank]
      simp only [hv]
      cases he : (lruSet c.toConfig (l2Index c.toConfig a.1) l2)[rank c.l2Ways
          (s.l2Cache (l2Index c.toConfig a.1)) b]? with
      | none =>
        rw [he] at hslot hev
        simp only [hslot.2]
        constructor
        · intro hh; simp at hh
        · rintro ⟨rfl, hh⟩
          rw [hev] at hh
          simp at hh
      | some e =>
        obtain ⟨u, d⟩ := e
        rw [he] at hslot hev
        obtain ⟨-, ht, hd⟩ := hslot
        rw [ht, hd]
        cases d
        · constructor
          · intro hh; simp at hh
          · rintro ⟨rfl, hh⟩
            rw [hev] at hh
            simp at hh
        · constructor
          · intro hh
            simp only [↓reduceIte, Option.some.injEq, Prod.mk.injEq] at hh
            obtain ⟨rfl, rfl⟩ := hh
            exact ⟨rfl, hev⟩
          · rintro ⟨rfl, hh⟩
            rw [hev] at hh
            simpa using hh
  · simp [hm]

/-- The counter moves exactly when a written-back block is named. -/
theorem writebacks_step (h : L2Inv c l2 s) {a : Access} {s' : Cachesim}
    (h' : L2Inv c (if (l1View s).misses a then l2 ++ [a] else l2) s') :
    s'.writebacks = s.writebacks + if (writtenBack c.toConfig s a).isSome then 1 else 0 := by
  have hsome : (writtenBack c.toConfig s a).isSome = true ↔
      (l1View s).misses a = true ∧ evictsDirty c.toConfig l2 a = true := by
    rw [Option.isSome_iff_exists, evictsDirty, Option.any_eq_true]
    constructor
    · rintro ⟨⟨i, t⟩, hwb⟩
      obtain ⟨hm, rfl, hev⟩ := (writtenBack_iff h a i t).mp hwb
      exact ⟨hm, (t, true), hev, rfl⟩
    · rintro ⟨hm, ⟨t, d⟩, hev, hd⟩
      obtain rfl : d = true := hd
      exact ⟨_, (writtenBack_iff h a _ t).mpr ⟨hm, rfl, hev⟩⟩
  rw [h'.writebacks_eq, h.writebacks_eq]
  by_cases hm : (l1View s).misses a = true
  · rw [if_pos hm, History.countSteps_concat]
    by_cases hev : evictsDirty c.toConfig l2 a = true <;> simp [hsome, hm, hev]
  · simp [hsome, hm]

/-- A block dirty in L2 stays so unless the access counts its write-back. -/
theorem l2Dirty_keep (h : L2Inv c l2 s) {a : Access} {x : Addr} {s' : Cachesim}
    (h' : L2Inv c (if (l1View s).misses a then l2 ++ [a] else l2) s')
    (hkeep : writtenBack c.toConfig s a ≠ some (l2Index c.toConfig x, l2Tag c.toConfig x))
    (hd : l2Dirty c.toConfig s x) : l2Dirty c.toConfig s' x := by
  rw [l2Dirty_iff h] at hd
  rw [l2Dirty_iff h']
  by_cases hm : (l1View s).misses a = true
  · rw [if_pos hm]
    by_cases hi : l2Index c.toConfig a.1 = l2Index c.toConfig x
    · rw [← hi] at hd ⊢
      rw [lruSet_concat_self]
      refine Recency.dirty_mem_access (Recency.tags_run_nodup c.ways_pos _) hd ?_ _
      intro hev
      exact hkeep ((writtenBack_iff h a _ _).mpr ⟨hm, hi.symm, hi ▸ hev⟩)
    · rw [lruSet_concat_of_ne _ hi]
      exact hd
  · rw [if_neg hm]
    exact hd

/-- An access to another block makes no block dirty in L2. -/
theorem l2Dirty_of_step (hb : c.l2Blocksize = 64) (h : L2Inv c l2 s) {a : Access} {x : Addr}
    {s' : Cachesim} (h' : L2Inv c (if (l1View s).misses a then l2 ++ [a] else l2) s')
    (hne : ¬ sameBlock x a.1) (hd : l2Dirty c.toConfig s' x) : l2Dirty c.toConfig s x := by
  rw [l2Dirty_iff h]
  rw [l2Dirty_iff h'] at hd
  by_cases hm : (l1View s).misses a = true
  · rw [if_pos hm] at hd
    by_cases hi : l2Index c.toConfig a.1 = l2Index c.toConfig x
    · rw [← hi] at hd ⊢
      rw [lruSet_concat_self] at hd
      refine Recency.mem_of_dirty_mem_access (fun ht => hne ?_) hd
      exact (sameBlock_iff_l2 hb).mp ⟨ht, hi.symm⟩
    · rwa [lruSet_concat_of_ne _ hi] at hd
  · rwa [if_neg hm] at hd

/-- A write leaves its block dirty in the data cache, whether it hit or missed. -/
theorem dDirty_of_write {a : Access} {s' : Cachesim} (hview : l1View s' = (l1View s).next a)
    (hw : a.2 = 'w') {x : Addr} (hx : sameBlock x a.1) : dDirty s' x := by
  obtain ⟨ht, hi⟩ := sameBlock_iff_l1.mpr hx
  have hd : s'.dCache = ((l1View s).next a).dCache := congrArg L1View.dCache hview
  rw [dDirty, hd, ht, hi]
  by_cases hm : (l1View s).dMisses a = true
  · simp [L1View.next, hm, refillLine, hw]
  · have htag : ((l1View s).dCache (l1Index a.1)).tag = l1Tag a.1 := by
      simpa [L1View.dMisses, hw] using hm
    simp [L1View.next, hm, hw, htag]

/-- A dirty line stays dirty unless a data miss replaces it. -/
theorem dDirty_keep {a : Access} {s' : Cachesim} (hview : l1View s' = (l1View s).next a) {x : Addr}
    (hkeep : ¬ ((l1View s).dMisses a = true ∧ l1Index x = l1Index a.1)) (hd : dDirty s x) :
    dDirty s' x := by
  have hdc : s'.dCache = ((l1View s).next a).dCache := congrArg L1View.dCache hview
  have hold : dDirty s x ↔ ((l1View s).dCache (l1Index x)).tag = l1Tag x ∧
    ((l1View s).dCache (l1Index x)).dirtyBit = 1 := Iff.rfl
  rw [hold] at hd
  rw [dDirty, hdc]
  unfold L1View.next
  by_cases hi : l1Index x = l1Index a.1
  · have hm : (l1View s).dMisses a = false := by
      rw [← Bool.not_eq_true]
      exact fun hm => hkeep ⟨hm, hi⟩
    rw [hi] at hd ⊢
    simp only [hm, Bool.false_eq_true, ↓reduceIte]
    split_ifs <;> simp [hd]
  · dsimp only
    split_ifs <;> simp [hi, hd]

/-- The line a data miss brings in belongs to the block accessed. -/
theorem sameBlock_of_refill {a : Access} {s' : Cachesim} (hview : l1View s' = (l1View s).next a)
    (hm : (l1View s).dMisses a = true) {x : Addr} (hi : l1Index x = l1Index a.1)
    (hd : dDirty s' x) : sameBlock x a.1 := by
  have hdc : s'.dCache = ((l1View s).next a).dCache := congrArg L1View.dCache hview
  have ht := hd.1
  rw [hdc, hi] at ht
  simp only [L1View.next, hm, ↓reduceIte, Function.update_self, refillLine] at ht
  exact sameBlock_iff_l1.mp ⟨ht.symm, hi⟩

/-- The dirty line that a data miss replaces is another block's. -/
theorem not_sameBlock_of_replaced {a : Access} (hm : (l1View s).dMisses a = true) {x : Addr}
    (hd : dDirty s x) : ¬ sameBlock x a.1 := by
  intro hx
  obtain ⟨ht, hi⟩ := sameBlock_iff_l1.mpr hx
  have htag : (s.dCache (l1Index a.1)).tag = l1Tag a.1 := by
    rw [← hi, ← ht]
    exact hd.1
  simp [L1View.dMisses, l1View, htag] at hm

end Step

/-! ## Whole runs -/

theorem pending_concat {c : Config} {trace : List Access} {e : Access} {x : Addr} :
    Pending c (trace ++ [e]) x ↔
      (e.2 = 'w' ∧ sameBlock x e.1) ∨ (Pending c trace x ∧ Keeps c trace e x) := by
  constructor
  · rintro ⟨before, y, after, h, hxy, hkeep⟩
    rcases History.concat_eq_append_cons h with ⟨rfl, rfl, rfl⟩ | ⟨after, rfl, rfl⟩
    · exact Or.inl ⟨rfl, hxy⟩
    · refine Or.inr ⟨⟨before, y, after, rfl, hxy, fun b f a hb => ?_⟩, hkeep after e [] rfl⟩
      exact hkeep b f (a ++ [e]) (by rw [hb]; simp)
  · rintro (⟨hw, hx⟩ | ⟨⟨before, y, after, rfl, hxy, hlater⟩, hkeep⟩)
    · refine ⟨trace, e.1, [], ?_, hx, fun b f a hb => by simp at hb⟩
      rw [← hw]
    · refine ⟨before, y, after ++ [e], by simp, hxy, fun b f a hb => ?_⟩
      rcases History.concat_eq_append_cons hb with ⟨-, rfl, rfl⟩ | ⟨a, -, rfl⟩
      · exact hkeep
      · exact hlater b f a rfl

theorem pending_nil (c : Config) (x : Addr) : ¬ Pending c [] x := by
  rintro ⟨before, y, after, h, -⟩
  simp at h

/-- The state after one more access, with what the last step did. -/
theorem l1Run_concat (c : LegalConfig) (past : List Access) (e : Access) :
    ∃ s s', l1Run c.toConfig (cachesimInit c.toConfig) past = some s ∧
      l1Run c.toConfig (cachesimInit c.toConfig) (past ++ [e]) = some s' ∧
      L2Inv c (l2Trace past) s ∧ l1View s' = (l1View s).next e ∧
      L2Inv c (if (l1View s).misses e then l2Trace past ++ [e] else l2Trace past) s' := by
  obtain ⟨s, hs, -, hinv⟩ := l1Run_inv c past
  obtain ⟨s', hs', hview, hinv'⟩ := l1_step hinv e
  refine ⟨s, s', hs, ?_, hinv, hview, hinv'⟩
  rw [l1Run, List.foldlM_append, show past.foldlM (fun s a => l1CachesimAccess c.toConfig s a.1 a.2)
    (cachesimInit c.toConfig) = some s from hs]
  simp [hs']

theorem noDrop_step {c : LegalConfig} {past : List Access} {e : Access}
    (h : NoDrop c.toConfig past) (hsafe : ReplacesSafely c.toConfig past e) :
    NoDrop c.toConfig (past ++ [e]) := by
  obtain ⟨s, s', hs, hs', hinv, hview, hinv'⟩ := l1Run_concat c past e
  intro t ht x hx
  obtain rfl : s' = t := Option.some.inj (hs'.symm.trans ht)
  rcases pending_concat.mp hx with ⟨hw, hxe⟩ | ⟨hpend, hkeep⟩
  · exact Or.inl (dDirty_of_write hview hw hxe)
  · have hl2 := fun hd => l2Dirty_keep hinv hinv' (hkeep s hs) hd
    rcases h s hs x hpend with hd | hd
    · by_cases hrep : (l1View s).dMisses e = true ∧ l1Index x = l1Index e.1
      · exact Or.inr (hl2 (hsafe s hs hrep.1 x hrep.2 hd hpend))
      · exact Or.inl (dDirty_keep hview hrep hd)
    · exact Or.inr (hl2 hd)

theorem replacesSafely_of_noDrop {c : LegalConfig} (hb : c.l2Blocksize = 64) {past : List Access}
    {e : Access} (h : NoDrop c.toConfig (past ++ [e])) : ReplacesSafely c.toConfig past e := by
  obtain ⟨s, s', hs, hs', hinv, hview, hinv'⟩ := l1Run_concat c past e
  intro t ht hm x hi hd hpend
  obtain rfl : s = t := Option.some.inj (hs.symm.trans ht)
  have hne := not_sameBlock_of_replaced hm hd
  by_cases hwb : writtenBack c.toConfig s e = some (l2Index c.toConfig x, l2Tag c.toConfig x)
  · -- the write-back counted in this very step is of a block that was dirty in L2
    rw [l2Dirty_iff hinv]
    exact Recency.evicted_mem ((writtenBack_iff hinv e _ _).mp hwb).2.2
  · have hkeep : Keeps c.toConfig past e x := by
      intro u hu
      obtain rfl : s = u := Option.some.inj (hs.symm.trans hu)
      exact hwb
    rcases h s' hs' x (pending_concat.mpr (Or.inr ⟨hpend, hkeep⟩)) with hd' | hd'
    · exact absurd (sameBlock_of_refill hview hm hi hd') hne
    · exact l2Dirty_of_step hb hinv hinv' hne hd'

/-- Along a run no modified data is dropped in any state if and only if no access replaces,
on a data miss, the dirty line of a pending block that is not dirty in L2. Each access counts the
write-back that it is said to make, and no other. -/
theorem no_drop_iff_replaces_safely (c : LegalConfig) (hb : c.l2Blocksize = 64)
    (trace : List Access) :
    ((∀ past rest, trace = past ++ rest → NoDrop c.toConfig past) ↔
      ∀ past e rest, trace = past ++ e :: rest → ReplacesSafely c.toConfig past e) ∧
    ∀ past e rest, trace = past ++ e :: rest → ∃ s s',
      l1Run c.toConfig (cachesimInit c.toConfig) past = some s ∧
        l1CachesimAccess c.toConfig s e.1 e.2 = some s' ∧
        s'.writebacks = s.writebacks + if (writtenBack c.toConfig s e).isSome then 1 else 0 := by
  refine ⟨⟨?_, ?_⟩, ?_⟩
  · intro h past e rest htrace
    exact replacesSafely_of_noDrop hb (h (past ++ [e]) rest (by rw [htrace]; simp))
  · intro h past
    induction past using List.reverseRecOn with
    | nil =>
      intro rest _ s _ x hx
      exact absurd hx (pending_nil c.toConfig x)
    | append_singleton past e ih =>
      intro rest htrace
      have htrace' : trace = past ++ e :: rest := by rw [htrace]; simp
      exact noDrop_step (ih (e :: rest) htrace') (h past e rest htrace')
  · intro past e rest _
    obtain ⟨s, hs, -, hinv⟩ := l1Run_inv c past
    obtain ⟨s', hs', -, hinv'⟩ := l1_step hinv e
    exact ⟨s, s', hs, hs', writebacks_step hinv hinv'⟩

/-- The equivalence for a read, a write hit and a conflicting read in a two-way L2. -/
theorem no_drop_iff_two_ways :
    (∀ past rest, [((0x10000, 'r') : Access), (0x10000, 'w'), (0x20000, 'r')] = past ++ rest →
      NoDrop twoWays.toConfig past) ↔
    ∀ past e rest, [((0x10000, 'r') : Access), (0x10000, 'w'), (0x20000, 'r')] = past ++ e :: rest →
      ReplacesSafely twoWays.toConfig past e :=
  (no_drop_iff_replaces_safely twoWays rfl _).1

/-- A block is read, written by a hit in L1 and replaced by a conflicting read: its line is
cleared, L2 still holds it clean, and no write-back has been counted. -/
theorem dirty_line_dropped :
    ¬ NoDrop twoWays.toConfig [(0x10000, 'r'), (0x10000, 'w'), (0x20000, 'r')] := by
  intro h
  obtain ⟨s, hs, hview, hinv⟩ :=
    l1Run_inv twoWays [(0x10000, 'r'), (0x10000, 'w'), (0x20000, 'r')]
  have hpend :
      Pending twoWays.toConfig [(0x10000, 'r'), (0x10000, 'w'), (0x20000, 'r')] 0x10000 := by
    refine ⟨[(0x10000, 'r')], 0x10000, [(0x20000, 'r')], rfl, rfl, fun b e a hb t ht hwb => ?_⟩
    obtain ⟨rfl, rfl⟩ : b = [] ∧ e = (0x20000, 'r') := by
      cases b with
      | nil => exact ⟨rfl, (List.cons.inj hb).1.symm⟩
      | cons f b => simp at hb
    obtain ⟨t', ht', -, hinvt⟩ := l1Run_inv twoWays [(0x10000, 'r'), (0x10000, 'w')]
    obtain rfl : t' = t := Option.some.inj (ht'.symm.trans ht)
    have hev := ((writtenBack_iff hinvt _ _ _).mp hwb).2.2
    revert hev
    decide +kernel
  rcases h s hs 0x10000 hpend with hd | hd
  · have hdc : s.dCache = (l1Alone [(0x10000, 'r'), (0x10000, 'w'), (0x20000, 'r')]).dCache :=
      congrArg L1View.dCache hview
    rw [dDirty, hdc] at hd
    revert hd
    decide +kernel
  · rw [l2Dirty_iff hinv] at hd
    revert hd
    decide +kernel

end ECE3056.Cache
