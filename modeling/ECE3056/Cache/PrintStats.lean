import Mathlib.Tactic
import Mathlib.Data.Rat.Defs
import ECE3056.Cache.Counters

/-!
# The rates that are printed, `cachesim_print_stats`

The last rate is printed under the name "Glob miss rate". Its denominator adds the
L2 hits to the L1 misses, where the references are the L1 hits and the L1 misses.
-/
namespace ECE3056.Cache

open History (run_invariant)

/-- What `cachesim_print_stats` prints, with exact quotients; a rate of nothing has no value. -/
structure PrintedStats where
  access : Nat
  dHit : Nat
  dMiss : Nat
  iHit : Nat
  iMiss : Nat
  l2Hit : Nat
  l2Miss : Nat
  dMissRate : Option Rat
  iMissRate : Option Rat
  l2MissRate : Option Rat
  globMissRate : Option Rat

/-- The quotient of two counters as `double`; 0 divided by 0 is printed as a NaN. -/
def rate (misses lookups : Nat) : Option Rat :=
  if lookups = 0 then none else some ((misses : Rat) / lookups)

theorem rate_of_pos {lookups : Nat} (h : 1 ≤ lookups) (misses : Nat) :
    rate misses lookups = some ((misses : Rat) / lookups) :=
  if_neg (Nat.one_le_iff_ne_zero.mp h)

def cachesimPrintStats (s : Cachesim) : PrintedStats where
  access := s.accesses
  dHit := s.dHit
  dMiss := s.dMiss
  iHit := s.iHit
  iMiss := s.iMiss
  l2Hit := s.l2Hit
  l2Miss := s.l2Miss
  dMissRate := rate s.dMiss (s.dMiss + s.dHit)
  iMissRate := rate s.iMiss (s.iMiss + s.iHit)
  l2MissRate := rate s.l2Miss (s.l2Miss + s.l2Hit)
  globMissRate := rate s.l2Miss (s.dMiss + s.iMiss + s.l2Hit)

/-- The overall L1 miss rate. -/
def l1MissRate (s : Cachesim) : Rat :=
  (s.dMiss + s.iMiss : Nat) / (s.dHit + s.dMiss + s.iHit + s.iMiss : Nat)

/-- The printed global rate is the fraction of the references that missed in L1 and in L2,
which is the product of the two levels' miss rates. -/
def GlobalRate (trace : List Access) (s : Cachesim) : Prop :=
  (cachesimPrintStats s).globMissRate = some ((s.l2Miss : Rat) / trace.length) ∧
    (cachesimPrintStats s).globMissRate =
      (cachesimPrintStats s).l2MissRate.map fun l2 => l1MissRate s * l2

/-! ## The first access to L2 misses -/

/-- Until L2 has missed once it is as `cachesim_init` left it, and has not hit either. -/
def StartsCold (c : Config) (s : Cachesim) : Prop :=
  s.l2Miss = 0 → s.l2Hit = 0 ∧ ∀ i, s.l2Cache i = initSet c

theorem initSet_misses (c : Config) (tag : Addr) :
    checkTagAndValidBit (initSet c) tag = none := by
  refine List.find?_eq_none.mpr fun j _ => ?_
  rw [decide_eq_true_iff]
  rintro ⟨htag, hvalid, -⟩
  by_cases hj : j.val < c.l2Ways
  · exact hvalid (if_pos hj)
  · exact htag (if_neg hj)

theorem StartsCold.congr {c : Config} {s s' : Cachesim} (h : StartsCold c s)
    (hsame : SameL2 s s') : StartsCold c s' := by
  unfold StartsCold
  rw [hsame.l2Miss, hsame.l2Hit, hsame.l2Cache]
  exact h

theorem StartsCold.step {c : Config} {s s' : Cachesim} {a : Access} (h : StartsCold c s)
    (hs : l1CachesimAccess c s a.1 a.2 = some s') : StartsCold c s' := by
  obtain ⟨-, ⟨-, hsame, -⟩ | ⟨-, t, t', hst, -, hl2, hts, -⟩⟩ := l1_cases hs
  · exact h.congr hsame
  · refine StartsCold.congr (fun hzero => ?_) hts
    obtain ⟨-, ⟨b, hb, rfl⟩ | ⟨b, -, -, rfl⟩⟩ := l2_cases hl2
    · obtain ⟨-, hinit⟩ := h.congr hst hzero
      rw [hinit, initSet_misses] at hb
      exact absurd hb (by simp)
    · exact absurd hzero (Nat.succ_ne_zero _)

theorem l1Run_cold (c : RunnableConfig) (trace : List Access) :
    ∃ s, l1Run c.toConfig (cachesimInit c.toConfig) trace = some s ∧ StartsCold c.toConfig s := by
  obtain ⟨s, hs, -, hcold⟩ := run_invariant
    (I := fun _ s => SetsRepresent c.toConfig s ∧ StartsCold c.toConfig s)
    ⟨setsRepresent_init c.toConfig, fun _ => ⟨rfl, fun _ => rfl⟩⟩
    (fun _ s a h => by
      obtain ⟨s', hs', hrep⟩ := h.1.l1Step a
      exact ⟨s', hs', hrep, h.2.step hs'⟩) trace
  exact ⟨s, hs, hcold⟩

/-! ## When the printed rate is right -/

theorem Ledger.globalRate_iff {c : Config} {trace : List Access} {s : Cachesim}
    (h : Ledger c trace s) (hcold : StartsCold c s) (hmiss : 1 ≤ s.dMiss + s.iMiss) :
    GlobalRate trace s ↔ s.l2Hit = s.dHit + s.iHit := by
  have hrefs := h.references
  have hlookups := h.lookups
  have hl2 : s.l2Miss ≠ 0 := by
    intro hzero
    obtain ⟨hhit, -⟩ := hcold hzero
    omega
  have hl2' : (s.l2Miss : Rat) ≠ 0 := Nat.cast_ne_zero.mpr hl2
  have hproduct : ((cachesimPrintStats s).l2MissRate.map fun l2 => l1MissRate s * l2) =
      some ((s.l2Miss : Rat) / trace.length) := by
    have hm : ((s.dMiss + s.iMiss : Nat) : Rat) ≠ 0 := Nat.cast_ne_zero.mpr (by omega)
    have hrate : (cachesimPrintStats s).l2MissRate =
        some ((s.l2Miss : Rat) / (s.dMiss + s.iMiss : Nat)) := by
      rw [show s.dMiss + s.iMiss = s.l2Miss + s.l2Hit by omega]
      exact rate_of_pos (by omega) _
    rw [hrate, Option.map_some, l1MissRate,
      show s.dHit + s.dMiss + s.iHit + s.iMiss = trace.length by omega]
    rw [div_mul_div_comm, mul_comm (trace.length : Rat), mul_div_mul_left _ _ hm]
  rw [GlobalRate, hproduct, and_self]
  have hglob : (cachesimPrintStats s).globMissRate =
      some ((s.l2Miss : Rat) / (s.dMiss + s.iMiss + s.l2Hit : Nat)) := rate_of_pos (by omega) _
  rw [hglob, Option.some_inj, div_eq_mul_inv, div_eq_mul_inv, mul_right_inj' hl2', inv_inj,
    Nat.cast_inj]
  omega

/-- After references at least one of which missed in L1, the printed global miss rate is
right exactly when as many references hit in L1 as lookups hit in L2. -/
theorem glob_miss_rate_iff (c : RunnableConfig) {trace : List Access} {s : Cachesim}
    (htrace : ∀ a ∈ trace, Reference a)
    (hrun : l1Run c.toConfig (cachesimInit c.toConfig) trace = some s)
    (hmiss : 1 ≤ s.dMiss + s.iMiss) :
    GlobalRate trace s ↔ s.l2Hit = s.dHit + s.iHit := by
  obtain ⟨t, ht, hledger⟩ := l1Run_ledger c trace
  obtain ⟨t', ht', hcold⟩ := l1Run_cold c trace
  obtain rfl := Option.some.inj (hrun.symm.trans ht)
  obtain rfl := Option.some.inj (hrun.symm.trans ht')
  exact (hledger htrace).globalRate_iff hcold hmiss

/-- A single read misses at both levels, and the printed rate is 1 as it should be. -/
theorem glob_miss_rate_iff_one_read :
    ∃ s, l1Run oneWay.toConfig (cachesimInit oneWay.toConfig) [(0x10000, 'r')] = some s ∧
      (GlobalRate [(0x10000, 'r')] s ↔ s.l2Hit = s.dHit + s.iHit) := by
  obtain ⟨s, hs, hview, -⟩ := l1Run_inv oneWay [(0x10000, 'r')]
  have hmiss : s.dMiss = 1 := (congrArg L1View.dMiss hview).trans (by decide +kernel)
  exact ⟨s, hs, glob_miss_rate_iff oneWay.runnable (by decide) hs (by omega)⟩

/-- Two reads of one address: half of the references miss everywhere, and 1 is printed. -/
theorem glob_miss_rate_two_reads :
    ∃ s, l1Run oneWay.toConfig (cachesimInit oneWay.toConfig)
        [(0x10000, 'r'), (0x10000, 'r')] = some s ∧
      1 ≤ s.dMiss + s.iMiss ∧
      (cachesimPrintStats s).globMissRate = some 1 ∧
      ((cachesimPrintStats s).l2MissRate.map fun l2 => l1MissRate s * l2) = some (1 / 2) ∧
      ¬ GlobalRate [(0x10000, 'r'), (0x10000, 'r')] s := by
  obtain ⟨s, hs, hview, hinv⟩ := l1Run_inv oneWay [(0x10000, 'r'), (0x10000, 'r')]
  have hdm : s.dMiss = 1 := (congrArg L1View.dMiss hview).trans (by decide +kernel)
  have hdh : s.dHit = 1 := (congrArg L1View.dHit hview).trans (by decide +kernel)
  have him : s.iMiss = 0 := (congrArg L1View.iMiss hview).trans (by decide +kernel)
  have hih : s.iHit = 0 := (congrArg L1View.iHit hview).trans (by decide +kernel)
  have hl2h : s.l2Hit = 0 := hinv.l2Hit_eq.trans (by decide +kernel)
  have hl2m : s.l2Miss = 1 := hinv.l2Miss_eq.trans (by decide +kernel)
  have hglob : (cachesimPrintStats s).globMissRate = some 1 := by
    simp [cachesimPrintStats, rate, hl2m, hdm, him, hl2h]
  have hproduct : ((cachesimPrintStats s).l2MissRate.map fun l2 => l1MissRate s * l2) =
      some (1 / 2) := by
    simp [l1MissRate, cachesimPrintStats, rate, hdm, him, hdh, hih, hl2m, hl2h]
  refine ⟨s, hs, by omega, hglob, hproduct, fun h => ?_⟩
  rw [GlobalRate, hproduct, hglob] at h
  norm_num at h

end ECE3056.Cache
