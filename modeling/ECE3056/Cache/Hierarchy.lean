import ECE3056.Cache.L2Lru

/-!
# The L1 caches in front of the L2 cache

The L1 caches never look at the L2 cache, so what they do is a function of the
trace alone: their lines, their counters and the sub-trace of misses that reaches
L2. Two runs that differ in associativity only therefore send L2 the same
accesses, and the larger recency window hits wherever the smaller one does.
-/
namespace ECE3056.Cache

open History (countSteps countSteps_concat run_invariant)

/-- The part of the state that the L1 lookups read and write. -/
structure L1View where
  dCache : Nat → L1CacheStruct
  iCache : Nat → L1CacheStruct
  dHit : Nat
  dMiss : Nat
  iHit : Nat
  iMiss : Nat

def l1View (s : Cachesim) : L1View := ⟨s.dCache, s.iCache, s.dHit, s.dMiss, s.iHit, s.iMiss⟩

namespace L1View

def init : L1View := ⟨fun _ => initLine, fun _ => initLine, 0, 0, 0, 0⟩

/-- A data access that finds another tag in its data line. -/
def dMisses (v : L1View) (a : Access) : Bool :=
  (a.2 = 'w' ∨ a.2 = 'r') ∧ (v.dCache (l1Index a.1)).tag ≠ l1Tag a.1

/-- An instruction fetch that finds another tag in its instruction line. -/
def iMisses (v : L1View) (a : Access) : Bool :=
  a.2 = 'i' ∧ (v.iCache (l1Index a.1)).tag ≠ l1Tag a.1

def misses (v : L1View) (a : Access) : Bool := v.dMisses a || v.iMisses a

def next (v : L1View) (a : Access) : L1View :=
  let index := l1Index a.1
  if v.dMisses a then
    { v with
      dMiss := v.dMiss + 1
      dCache := Function.update v.dCache index (refillLine (v.dCache index) (l1Tag a.1) a.2) }
  else if a.2 = 'w' then
    { v with
      dHit := v.dHit + 1
      dCache := Function.update v.dCache index { v.dCache index with dirtyBit := 1 } }
  else if a.2 = 'r' then { v with dHit := v.dHit + 1 }
  else if v.iMisses a then
    { v with
      iMiss := v.iMiss + 1
      iCache := Function.update v.iCache index (refillLine (v.iCache index) (l1Tag a.1) a.2) }
  else if a.2 = 'i' then { v with iHit := v.iHit + 1 }
  else v

end L1View

/-- The L1 caches after a trace, on their own. -/
def l1Alone (trace : List Access) : L1View := trace.foldl L1View.next L1View.init

/-- The accesses of a trace that miss in L1, in order. -/
def l2Trace (trace : List Access) : List Access :=
  (trace.foldl (fun (p : L1View × List Access) a =>
    (p.1.next a, if p.1.misses a then p.2 ++ [a] else p.2)) (L1View.init, [])).2

@[simp] theorem l1Alone_concat (trace : List Access) (a : Access) :
    l1Alone (trace ++ [a]) = (l1Alone trace).next a := by
  simp [l1Alone]

theorem l2Trace_concat (trace : List Access) (a : Access) :
    l2Trace (trace ++ [a]) =
      if (l1Alone trace).misses a then l2Trace trace ++ [a] else l2Trace trace := by
  have hfst : ∀ (t : List Access) (p : L1View × List Access),
      (t.foldl (fun (p : L1View × List Access) a =>
        (p.1.next a, if p.1.misses a then p.2 ++ [a] else p.2)) p).1 = t.foldl L1View.next p.1 := by
    intro t
    induction t with
    | nil => intro p; rfl
    | cons b t ih => intro p; exact ih _
  rw [l2Trace, List.foldl_append, l1Alone, ← hfst trace (L1View.init, [])]
  rfl

/-- What belongs to the L2 cache is the same in both states. -/
structure SameL2 (s s' : Cachesim) : Prop where
  l2Cache : s'.l2Cache = s.l2Cache
  l2Hit : s'.l2Hit = s.l2Hit
  l2Miss : s'.l2Miss = s.l2Miss
  writebacks : s'.writebacks = s.writebacks
  writeMiss : s'.writeMiss = s.writeMiss
  writeCount : s'.writeCount = s.writeCount

/-- The access called `l2_cachesim_access` once; L1 changed nothing of L2 before or after. -/
def SentToL2 (c : Config) (s : Cachesim) (a : Access) (s' : Cachesim) : Prop :=
  ∃ t t', SameL2 s t ∧ t.accesses = s.accesses + 1 ∧ l2CachesimAccess c t a.1 a.2 = some t' ∧
    SameL2 t' s' ∧ s'.accesses = t'.accesses

/-- The L2 invariant reads nothing that an L1 lookup changes. -/
theorem L2Inv.congr {c : LegalConfig} {trace : List Access} {s s' : Cachesim} (h : L2Inv c trace s)
    (hsame : SameL2 s s') : L2Inv c trace s' where
  sets i := hsame.l2Cache ▸ h.sets i
  l2Hit_eq := hsame.l2Hit.trans h.l2Hit_eq
  l2Miss_eq := hsame.l2Miss.trans h.l2Miss_eq
  writebacks_eq := hsame.writebacks.trans h.writebacks_eq

/-- What a call that returns did: a hit in some slot, or a refill of the slot with counter 0. -/
theorem l2_cases {c : Config} {s s' : Cachesim} {a : Access}
    (h : l2CachesimAccess c s a.1 a.2 = some s') :
    l2Index c a.1 < c.l2IndexMax ∧
      ((∃ b, checkTagAndValidBit (s.l2Cache (l2Index c a.1)) (l2Tag c a.1) = some b ∧
          s' = l2OnHit c (l2Count s a.2) (l2Index c a.1) b a.2) ∨
        ∃ b, checkTagAndValidBit (s.l2Cache (l2Index c a.1)) (l2Tag c a.1) = none ∧
          getLRUIndex (s.l2Cache (l2Index c a.1)) = some b ∧
          s' = l2OnMiss c (l2Count s a.2) (l2Index c a.1) b (l2Tag c a.1) a.2) := by
  simp only [l2CachesimAccess] at h
  split at h
  case isFalse => simp at h
  case isTrue hlt =>
    refine ⟨hlt, ?_⟩
    cases hb : checkTagAndValidBit (s.l2Cache (l2Index c a.1)) (l2Tag c a.1) with
    | some b =>
      rw [hb] at h
      exact Or.inl ⟨b, rfl, (Option.some.inj h).symm⟩
    | none =>
      rw [hb] at h
      cases hv : getLRUIndex (s.l2Cache (l2Index c a.1)) with
      | none => rw [hv] at h; simp at h
      | some b =>
        rw [hv] at h
        exact Or.inr ⟨b, rfl, rfl, (Option.some.inj h).symm⟩

theorem l2_view {c : Config} {s s' : Cachesim} {a : Access}
    (h : l2CachesimAccess c s a.1 a.2 = some s') : l1View s' = l1View s := by
  obtain ⟨-, ⟨b, -, rfl⟩ | ⟨b, -, -, rfl⟩⟩ := l2_cases h
  · rfl
  · rfl

theorem l1_data_hit (c : Config) (s : Cachesim) (a : Access) (hd : a.2 = 'w' ∨ a.2 = 'r')
    (ht : (s.dCache (l1Index a.1)).tag = l1Tag a.1) :
    l1CachesimAccess c s a.1 a.2 = some { s with
      accesses := s.accesses + 1
      dHit := s.dHit + 1
      dCache := if a.2 = 'w' then
        Function.update s.dCache (l1Index a.1) { s.dCache (l1Index a.1) with dirtyBit := 1 }
        else s.dCache } := by
  simp only [l1CachesimAccess, hd, ht, ↓reduceIte]

theorem l1_data_miss (c : Config) (s : Cachesim) (a : Access) (hd : a.2 = 'w' ∨ a.2 = 'r')
    (ht : (s.dCache (l1Index a.1)).tag ≠ l1Tag a.1) :
    l1CachesimAccess c s a.1 a.2 =
      (l2CachesimAccess c { s with accesses := s.accesses + 1, dMiss := s.dMiss + 1 } a.1 a.2).map
        fun s => { s with
          dCache := Function.update s.dCache (l1Index a.1)
            (refillLine (s.dCache (l1Index a.1)) (l1Tag a.1) a.2) } := by
  simp only [l1CachesimAccess, hd, ht, ↓reduceIte]

theorem l1_fetch_hit (c : Config) (s : Cachesim) (a : Access) (hi : a.2 = 'i')
    (ht : (s.iCache (l1Index a.1)).tag = l1Tag a.1) :
    l1CachesimAccess c s a.1 a.2 =
      some { s with accesses := s.accesses + 1, iHit := s.iHit + 1 } := by
  simp [l1CachesimAccess, hi, ht]

theorem l1_fetch_miss (c : Config) (s : Cachesim) (a : Access) (hi : a.2 = 'i')
    (ht : (s.iCache (l1Index a.1)).tag ≠ l1Tag a.1) :
    l1CachesimAccess c s a.1 a.2 =
      (l2CachesimAccess c { s with accesses := s.accesses + 1, iMiss := s.iMiss + 1 } a.1 a.2).map
        fun s => { s with
          iCache := Function.update s.iCache (l1Index a.1)
            (refillLine (s.iCache (l1Index a.1)) (l1Tag a.1) a.2) } := by
  simp [l1CachesimAccess, hi, ht]

theorem l1_other (c : Config) (s : Cachesim) (a : Access) (hd : ¬ (a.2 = 'w' ∨ a.2 = 'r'))
    (hi : a.2 ≠ 'i') :
    l1CachesimAccess c s a.1 a.2 = some { s with accesses := s.accesses + 1 } := by
  simp only [l1CachesimAccess, hd, hi, ↓reduceIte]

/-- One access through L1: the L1 part moves on its own, and L2 sees it iff it missed. -/
theorem l1_cases {c : Config} {s s' : Cachesim} {a : Access}
    (h : l1CachesimAccess c s a.1 a.2 = some s') :
    l1View s' = (l1View s).next a ∧
      (((l1View s).misses a = false ∧ SameL2 s s' ∧ s'.accesses = s.accesses + 1) ∨
        ((l1View s).misses a = true ∧ SentToL2 c s a s')) := by
  by_cases hd : a.2 = 'w' ∨ a.2 = 'r'
  · have hi : a.2 ≠ 'i' := by rcases hd with hd | hd <;> simp [hd]
    have him : (l1View s).iMisses a = false := by simp [L1View.iMisses, hi]
    by_cases ht : (s.dCache (l1Index a.1)).tag = l1Tag a.1
    · have hdm : (l1View s).dMisses a = false := by simp [L1View.dMisses, l1View, ht]
      obtain rfl := Option.some.inj ((l1_data_hit c s a hd ht).symm.trans h)
      refine ⟨?_, Or.inl ⟨by rw [L1View.misses, hdm, him]; rfl,
        ⟨rfl, rfl, rfl, rfl, rfl, rfl⟩, rfl⟩⟩
      rw [L1View.next, hdm]
      rcases hd with hd | hd <;> simp [hd, l1View]
    · have hdm : (l1View s).dMisses a = true := by simp [L1View.dMisses, l1View, ht, hd]
      rw [l1_data_miss c s a hd ht, Option.map_eq_some_iff] at h
      obtain ⟨t, hl2, rfl⟩ := h
      have hview := l2_view hl2
      simp only [l1View, L1View.mk.injEq] at hview
      obtain ⟨hdc, hic, hdh, hdmi, hih, himi⟩ := hview
      refine ⟨?_, Or.inr ⟨by rw [L1View.misses, hdm]; rfl,
        { s with accesses := s.accesses + 1, dMiss := s.dMiss + 1 }, t,
        ⟨rfl, rfl, rfl, rfl, rfl, rfl⟩, rfl, hl2, ⟨rfl, rfl, rfl, rfl, rfl, rfl⟩, rfl⟩⟩
      rw [L1View.next, hdm]
      simp [l1View, hdc, hic, hdh, hdmi, hih, himi]
  · have hdm : (l1View s).dMisses a = false := by simp [L1View.dMisses, hd]
    obtain ⟨hw, hr⟩ := not_or.mp hd
    by_cases hi : a.2 = 'i'
    · by_cases ht : (s.iCache (l1Index a.1)).tag = l1Tag a.1
      · have him : (l1View s).iMisses a = false := by simp [L1View.iMisses, l1View, ht]
        obtain rfl := Option.some.inj ((l1_fetch_hit c s a hi ht).symm.trans h)
        refine ⟨?_, Or.inl ⟨by rw [L1View.misses, hdm, him]; rfl,
          ⟨rfl, rfl, rfl, rfl, rfl, rfl⟩, rfl⟩⟩
        rw [L1View.next, hdm, him]
        simp [hi, l1View]
      · have him : (l1View s).iMisses a = true := by simp [L1View.iMisses, l1View, ht, hi]
        rw [l1_fetch_miss c s a hi ht, Option.map_eq_some_iff] at h
        obtain ⟨t, hl2, rfl⟩ := h
        have hview := l2_view hl2
        simp only [l1View, L1View.mk.injEq] at hview
        obtain ⟨hdc, hic, hdh, hdmi, hih, himi⟩ := hview
        refine ⟨?_, Or.inr ⟨by rw [L1View.misses, hdm, him]; rfl,
          { s with accesses := s.accesses + 1, iMiss := s.iMiss + 1 }, t,
          ⟨rfl, rfl, rfl, rfl, rfl, rfl⟩, rfl, hl2, ⟨rfl, rfl, rfl, rfl, rfl, rfl⟩, rfl⟩⟩
        rw [L1View.next, hdm, him]
        simp [l1View, hdc, hic, hdh, hdmi, hih, himi, hi]
    · have him : (l1View s).iMisses a = false := by simp [L1View.iMisses, hi]
      obtain rfl := Option.some.inj ((l1_other c s a hd hi).symm.trans h)
      refine ⟨?_, Or.inl ⟨by rw [L1View.misses, hdm, him]; rfl,
        ⟨rfl, rfl, rfl, rfl, rfl, rfl⟩, rfl⟩⟩
      rw [L1View.next, hdm, him]
      simp [hw, hr, hi, l1View]

/-- An L1 access returns if the access to L2 that it makes on a miss does. -/
theorem l1_returns {c : Config} {s : Cachesim} {a : Access}
    (hl2 : (l1View s).misses a = true →
      ∀ t : Cachesim, SameL2 s t → ∃ t', l2CachesimAccess c t a.1 a.2 = some t') :
    ∃ s', l1CachesimAccess c s a.1 a.2 = some s' := by
  by_cases hd : a.2 = 'w' ∨ a.2 = 'r'
  · by_cases ht : (s.dCache (l1Index a.1)).tag = l1Tag a.1
    · exact ⟨_, l1_data_hit c s a hd ht⟩
    · have hm : (l1View s).misses a = true := by
        simp [L1View.misses, L1View.dMisses, l1View, hd, ht]
      obtain ⟨t', ht'⟩ := hl2 hm { s with accesses := s.accesses + 1, dMiss := s.dMiss + 1 }
        ⟨rfl, rfl, rfl, rfl, rfl, rfl⟩
      rw [l1_data_miss c s a hd ht, ht']
      exact ⟨_, rfl⟩
  · by_cases hi : a.2 = 'i'
    · by_cases ht : (s.iCache (l1Index a.1)).tag = l1Tag a.1
      · exact ⟨_, l1_fetch_hit c s a hi ht⟩
      · have hm : (l1View s).misses a = true := by
          simp [L1View.misses, L1View.iMisses, l1View, hi, ht]
        obtain ⟨t', ht'⟩ := hl2 hm { s with accesses := s.accesses + 1, iMiss := s.iMiss + 1 }
          ⟨rfl, rfl, rfl, rfl, rfl, rfl⟩
        rw [l1_fetch_miss c s a hi ht, ht']
        exact ⟨_, rfl⟩
    · exact ⟨_, l1_other c s a hd hi⟩

theorem l1_step {c : LegalConfig} {trace : List Access} {s : Cachesim} (h : L2Inv c trace s)
    (a : Access) :
    ∃ s', l1CachesimAccess c.toConfig s a.1 a.2 = some s' ∧ l1View s' = (l1View s).next a ∧
      L2Inv c (if (l1View s).misses a then trace ++ [a] else trace) s' := by
  obtain ⟨s', hs'⟩ := l1_returns fun _ t ht =>
    ((h.congr ht).step a).imp fun _ hstep => hstep.1
  obtain ⟨hview, ⟨hm, hsame, -⟩ | ⟨hm, t, t', hst, -, hacc, hts, -⟩⟩ := l1_cases hs'
  · refine ⟨s', hs', hview, ?_⟩
    rw [hm]
    exact h.congr hsame
  · refine ⟨s', hs', hview, ?_⟩
    obtain ⟨t'', ht'', hinv, -⟩ := (h.congr hst).step a
    obtain rfl := Option.some.inj (ht''.symm.trans hacc)
    rw [hm]
    exact hinv.congr hts

/-- A whole run: the L1 part is a function of the trace, and L2 has seen its misses. -/
theorem l1Run_inv (c : LegalConfig) (trace : List Access) :
    ∃ s, l1Run c.toConfig (cachesimInit c.toConfig) trace = some s ∧
      l1View s = l1Alone trace ∧ L2Inv c (l2Trace trace) s := by
  refine run_invariant (I := fun t s => l1View s = l1Alone t ∧ L2Inv c (l2Trace t) s)
    ⟨rfl, l2Inv_init c⟩ ?_ trace
  rintro t s a ⟨hview, hinv⟩
  obtain ⟨s', hs', hview', hinv'⟩ := l1_step hinv a
  refine ⟨s', hs', ?_, ?_⟩
  · rw [hview', hview, l1Alone_concat]
  · rwa [l2Trace_concat, ← hview]

end ECE3056.Cache
