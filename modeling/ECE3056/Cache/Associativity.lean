import ECE3056.Cache.Hierarchy

/-!
# More ways never cost a hit

Two simulators with the same block size and number of sets, fed the same trace,
have the same L1 behaviour and send L2 the same accesses. The set contents of the
one with fewer ways are a recency prefix of the other's.
-/
namespace ECE3056.Cache

open History (countSteps countSteps_concat countSteps_mono)

section
variable {c c' : LegalConfig}

theorem l2Index_congr (hblock : c.l2Blocksize = c'.l2Blocksize)
    (hsets : c.l2IndexMax = c'.l2IndexMax) : l2Index c.toConfig = l2Index c'.toConfig := by
  funext a
  simp only [l2Index, Config.l2TagSize, Config.l2IndexSize, Config.l2OffsetSize, hblock, hsets]

theorem l2Tag_congr (hblock : c.l2Blocksize = c'.l2Blocksize)
    (hsets : c.l2IndexMax = c'.l2IndexMax) : l2Tag c.toConfig = l2Tag c'.toConfig := by
  funext a
  simp only [l2Tag, Config.l2IndexSize, Config.l2OffsetSize, hblock, hsets]

theorem setHistory_congr (hblock : c.l2Blocksize = c'.l2Blocksize)
    (hsets : c.l2IndexMax = c'.l2IndexMax) (i : Nat) (trace : List Access) :
    setHistory c.toConfig i trace = setHistory c'.toConfig i trace := by
  rw [setHistory, setHistory, l2Index_congr hblock hsets, l2Tag_congr hblock hsets]

/-- A hit among the last `ways` tags of a set is one among any larger number of them. -/
theorem hits_mono (hblock : c.l2Blocksize = c'.l2Blocksize) (hsets : c.l2IndexMax = c'.l2IndexMax)
    (hways : c.l2Ways ≤ c'.l2Ways) {past : List Access} {a : Access}
    (h : hits c.toConfig past a = true) : hits c'.toConfig past a = true := by
  rw [hits, decide_eq_true_iff] at h ⊢
  rw [setHistory_congr hblock hsets, l2Index_congr hblock hsets, l2Tag_congr hblock hsets] at h
  exact Recency.mem_take_mono hways h

theorem misses_anti (hblock : c.l2Blocksize = c'.l2Blocksize)
    (hsets : c.l2IndexMax = c'.l2IndexMax) (hways : c.l2Ways ≤ c'.l2Ways) {past : List Access}
    {a : Access} (h : (!hits c'.toConfig past a) = true) : (!hits c.toConfig past a) = true := by
  rw [Bool.not_eq_true'] at h ⊢
  rw [← Bool.not_eq_true] at h ⊢
  exact fun hh => h (hits_mono hblock hsets hways hh)

end

/-- With the same block size and number of sets, a run with at least as many ways has the
same L1 counters, hits in L2 wherever the other does, and misses in L2 at most as often. -/
theorem more_ways_never_hurt (c c' : LegalConfig) (hblock : c.l2Blocksize = c'.l2Blocksize)
    (hsets : c.l2IndexMax = c'.l2IndexMax) (hways : c.l2Ways ≤ c'.l2Ways) (trace : List Access) :
    ∃ s s', l1Run c.toConfig (cachesimInit c.toConfig) trace = some s ∧
      l1Run c'.toConfig (cachesimInit c'.toConfig) trace = some s' ∧
      s'.dHit = s.dHit ∧ s'.dMiss = s.dMiss ∧ s'.iHit = s.iHit ∧ s'.iMiss = s.iMiss ∧
      s'.l2Miss ≤ s.l2Miss ∧
      ∀ a : Access, ∃ t t', l1CachesimAccess c.toConfig s a.1 a.2 = some t ∧
        l1CachesimAccess c'.toConfig s' a.1 a.2 = some t' ∧
        (t.l2Hit = s.l2Hit + 1 → t'.l2Hit = s'.l2Hit + 1) := by
  obtain ⟨s, hs, hview, hinv⟩ := l1Run_inv c trace
  obtain ⟨s', hs', hview', hinv'⟩ := l1Run_inv c' trace
  have hsame : l1View s' = l1View s := hview'.trans hview.symm
  refine ⟨s, s', hs, hs', congrArg L1View.dHit hsame, congrArg L1View.dMiss hsame,
    congrArg L1View.iHit hsame, congrArg L1View.iMiss hsame, ?_, fun a => ?_⟩
  · rw [hinv.l2Miss_eq, hinv'.l2Miss_eq]
    exact countSteps_mono (fun _ _ h => misses_anti hblock hsets hways h) _
  · obtain ⟨t, ht, -, hinvt⟩ := l1_step hinv a
    obtain ⟨t', ht', -, hinvt'⟩ := l1_step hinv' a
    refine ⟨t, t', ht, ht', fun hhit => ?_⟩
    rw [hsame] at hinvt'
    have heq := hinvt.l2Hit_eq
    have heq' := hinvt'.l2Hit_eq
    by_cases hm : (l1View s).misses a = true
    · rw [if_pos hm, countSteps_concat, ← hinv.l2Hit_eq] at heq
      rw [if_pos hm, countSteps_concat, ← hinv'.l2Hit_eq] at heq'
      have hh : hits c.toConfig (l2Trace trace) a = true := by
        by_contra hno
        rw [if_neg hno] at heq
        omega
      rw [heq', if_pos (hits_mono hblock hsets hways hh)]
    · rw [if_neg hm, ← hinv.l2Hit_eq] at heq
      omega

/-- One way against two, on a trace that alternates between two blocks of one set. -/
theorem two_ways_against_one :
    ∃ s s', l1Run oneWay.toConfig
        (cachesimInit oneWay.toConfig)
        [(0x10000, 'r'), (0x20000, 'w'), (0x10000, 'r')] = some s ∧
      l1Run twoWays.toConfig
        (cachesimInit twoWays.toConfig)
        [(0x10000, 'r'), (0x20000, 'w'), (0x10000, 'r')] = some s' ∧
      s'.l2Miss ≤ s.l2Miss := by
  obtain ⟨s, s', hs, hs', -, -, -, -, hmiss, -⟩ :=
    more_ways_never_hurt oneWay twoWays
      rfl (by decide) (by decide) [(0x10000, 'r'), (0x20000, 'w'), (0x10000, 'r')]
  exact ⟨s, s', hs, hs', hmiss⟩

end ECE3056.Cache
