import ECE3056.Cache.Counters

/-!
# When an L1 access counts as a hit

A line holds the tag of the latest access of its cache that mapped to it. The hit
test compares tags and does not read the valid bit, and an unused line holds the tag
0 from `cachesim_init`. So the first access to a line is counted as a hit exactly
when the tag of its address is 0; every other access is counted as it should be.
-/
namespace ECE3056.Cache

open History (run_invariant)

/-- Both accesses go to the same line of the same cache. -/
def sameLine (a b : Access) : Bool :=
  ((isData a ∧ isData b) ∨ (isFetch a ∧ isFetch b)) ∧ l1Index b.1 = l1Index a.1

/-- The latest earlier access to the line of `a`. -/
def lastOnLine (past : List Access) (a : Access) : Option Access :=
  (past.filter (sameLine a)).getLast?

/-- There is an earlier access to the line, and the latest had the tag of `a`. -/
def ShouldHit (past : List Access) (a : Access) : Prop :=
  ∃ b, lastOnLine past a = some b ∧ l1Tag b.1 = l1Tag a.1

/-- After `past`, the access `a` is counted the way it should be. -/
def CountedRight (c : Config) (past : List Access) (a : Access) : Prop :=
  ∃ s s', l1Run c (cachesimInit c) past = some s ∧ l1CachesimAccess c s a.1 a.2 = some s' ∧
    (ShouldHit past a → CountsHit s a s') ∧ (¬ ShouldHit past a → CountsMiss c s a s')

/-- The first access to its line, at an address whose tag is the initial one. -/
def FirstAtTagZero (past : List Access) (a : Access) : Prop :=
  lastOnLine past a = none ∧ l1Tag a.1 = 0

theorem lastOnLine_concat (past : List Access) (a b : Access) :
    lastOnLine (past ++ [b]) a = if sameLine a b then some b else lastOnLine past a := by
  rw [lastOnLine, List.filter_append]
  by_cases hsame : sameLine a b = true
  · rw [List.filter_cons_of_pos hsame, List.filter_nil, List.getLast?_concat, if_pos hsame]
  · rw [List.filter_cons_of_neg hsame, List.filter_nil, List.append_nil, if_neg hsame, lastOnLine]

/-! ## The tag a line holds -/

/-- The tag that the lookup of `a` compares with. -/
def lineTag (v : L1View) (a : Access) : Addr :=
  if isData a then (v.dCache (l1Index a.1)).tag else (v.iCache (l1Index a.1)).tag

theorem misses_iff {v : L1View} {a : Access} (ha : Reference a) :
    v.misses a = true ↔ lineTag v a ≠ l1Tag a.1 := by
  rcases ha with h | h | h <;>
    simp [L1View.misses, L1View.dMisses, L1View.iMisses, lineTag, isData, h]

/-- A data access leaves its tag in its line: a refill stores it, a hit found it there. -/
theorem next_dTag (v : L1View) (b : Access) (i : Nat) :
    ((v.next b).dCache i).tag =
      if isData b ∧ l1Index b.1 = i then l1Tag b.1 else (v.dCache i).tag := by
  by_cases hd : isData b = true
  · have hdata : b.2 = 'w' ∨ b.2 = 'r' := by simpa [isData] using hd
    by_cases hm : v.dMisses b = true
    · by_cases hi : l1Index b.1 = i
      · subst hi
        simp [L1View.next, hm, hd, refillLine]
      · simp [L1View.next, hm, hi, Ne.symm hi]
    · have ht : (v.dCache (l1Index b.1)).tag = l1Tag b.1 := by
        simpa [L1View.dMisses, hdata] using hm
      by_cases hi : l1Index b.1 = i
      · subst hi
        rcases hdata with h | h <;> simp [L1View.next, hm, hd, h, ht]
      · rcases hdata with h | h <;> simp [L1View.next, hm, h, hi, Ne.symm hi]
  · have hno : ¬ (b.2 = 'w' ∨ b.2 = 'r') := by simpa [isData] using hd
    obtain ⟨hw, hr⟩ := not_or.mp hno
    have hm : v.dMisses b = false := by simp [L1View.dMisses, hno]
    rw [if_neg (fun h => hd h.1), L1View.next, hm]
    simp only [hw, hr, Bool.false_eq_true, ↓reduceIte]
    split_ifs <;> rfl

theorem next_iTag (v : L1View) (b : Access) (i : Nat) :
    ((v.next b).iCache i).tag =
      if isFetch b ∧ l1Index b.1 = i then l1Tag b.1 else (v.iCache i).tag := by
  by_cases hf : isFetch b = true
  · have hfetch : b.2 = 'i' := by simpa [isFetch] using hf
    have hdm : v.dMisses b = false := by simp [L1View.dMisses, hfetch]
    by_cases hm : v.iMisses b = true
    · by_cases hi : l1Index b.1 = i
      · subst hi
        simp [L1View.next, hdm, hm, hf, hfetch, refillLine]
      · simp [L1View.next, hdm, hm, hfetch, hi, Ne.symm hi]
    · have ht : (v.iCache (l1Index b.1)).tag = l1Tag b.1 := by
        simpa [L1View.iMisses, hfetch] using hm
      by_cases hi : l1Index b.1 = i
      · subst hi
        simp [L1View.next, hdm, hm, hf, hfetch, ht]
      · simp [L1View.next, hdm, hm, hfetch, hi]
  · have hno : b.2 ≠ 'i' := by simpa [isFetch] using hf
    have hm : v.iMisses b = false := by simp [L1View.iMisses, hno]
    rw [if_neg (fun h => hf h.1), L1View.next, hm]
    split_ifs <;> first | rfl | contradiction

theorem lineTag_next (v : L1View) {a : Access} (ha : Reference a) (b : Access) :
    lineTag (v.next b) a = if sameLine a b then l1Tag b.1 else lineTag v a := by
  unfold lineTag sameLine
  rw [next_dTag, next_iTag]
  rcases ha with h | h | h <;> simp [isData, isFetch, h]

/-- The last access to a line decides its tag; before any, the tag is 0. -/
theorem lineTag_last (past : List Access) {a : Access} (ha : Reference a) :
    lineTag (l1Alone past) a = ((lastOnLine past a).map fun b => l1Tag b.1).getD 0 := by
  induction past using List.reverseRecOn with
  | nil =>
    unfold lineTag
    split_ifs <;> rfl
  | append_singleton past b ih =>
    rw [l1Alone_concat, lineTag_next _ ha, lastOnLine_concat, ih]
    split_ifs <;> rfl

/-! ## The law -/

theorem l1Run_view (c : RunnableConfig) (trace : List Access) :
    ∃ s, l1Run c.toConfig (cachesimInit c.toConfig) trace = some s ∧
      SetsRepresent c.toConfig s ∧ l1View s = l1Alone trace :=
  run_invariant (I := fun trace s => SetsRepresent c.toConfig s ∧ l1View s = l1Alone trace)
    ⟨setsRepresent_init c.toConfig, rfl⟩
    (fun _ s a h => by
      obtain ⟨s', hs', hrep⟩ := h.1.l1Step a
      exact ⟨s', hs', hrep, by rw [(l1_cases hs').1, h.2, l1Alone_concat]⟩) trace

/-- The code hits where it should, and on a first access at tag 0 besides. -/
theorem misses_iff_not_shouldHit {past : List Access} {a : Access} (ha : Reference a)
    (hfirst : ¬ FirstAtTagZero past a) :
    (l1Alone past).misses a = true ↔ ¬ ShouldHit past a := by
  rw [misses_iff ha, lineTag_last past ha, not_iff_not]
  cases hlast : lastOnLine past a with
  | none =>
    simp only [Option.map_none, Option.getD_none, ShouldHit, hlast, reduceCtorEq, false_and,
      exists_false, iff_false]
    exact fun hz => hfirst ⟨hlast, hz.symm⟩
  | some b => simp [ShouldHit, hlast]

theorem countedRight_iff (c : RunnableConfig) (past : List Access) {a : Access}
    (ha : Reference a) : CountedRight c.toConfig past a ↔ ¬ FirstAtTagZero past a := by
  obtain ⟨s, hs, hrep, hview⟩ := l1Run_view c past
  obtain ⟨s', hs', -⟩ := hrep.l1Step a
  constructor
  · rintro ⟨t, t', ht, ht', -, hmiss⟩ ⟨hlast, hzero⟩
    obtain rfl := Option.some.inj (hs.symm.trans ht)
    obtain rfl := Option.some.inj (hs'.symm.trans ht')
    have hno : ¬ ShouldHit past a := by simp [ShouldHit, hlast]
    have hfound : (l1View s).misses a = false := by
      rw [← Bool.not_eq_true, misses_iff ha, hview, lineTag_last past ha, hlast, hzero, not_not]
      rfl
    have hdm := (countsHit_of_hit hs' hfound).dMiss
    have him := (countsHit_of_hit hs' hfound).iMiss
    have hdm' := (hmiss hno).dMiss
    have him' := (hmiss hno).iMiss
    have hkind := kinds_of_reference ha
    omega
  · intro hfirst
    refine ⟨s, s', hs, hs', fun hhit => countsHit_of_hit hs' ?_, fun hno =>
      countsMiss_of_miss hs' ?_⟩
    · rw [hview, ← Bool.not_eq_true, misses_iff_not_shouldHit ha hfirst]
      exact not_not.mpr hhit
    · rw [hview, misses_iff_not_shouldHit ha hfirst]
      exact hno

/-- Every access of the trace is counted the way it should be. -/
def HitsRight (c : Config) (trace : List Access) : Prop :=
  ∀ past a rest, trace = past ++ a :: rest → CountedRight c past a

/-- Every access of a trace is counted right exactly when none is the first to its line
at an address whose tag is 0. -/
theorem hits_right_iff (c : RunnableConfig) (trace : List Access)
    (htrace : ∀ a ∈ trace, Reference a) :
    HitsRight c.toConfig trace ↔
      ∀ past a rest, trace = past ++ a :: rest → ¬ FirstAtTagZero past a := by
  have href : ∀ past a rest, trace = past ++ a :: rest → Reference a :=
    fun past a rest h => htrace a (by rw [h]; simp)
  constructor
  · intro h past a rest hsplit
    exact (countedRight_iff c past (href past a rest hsplit)).mp (h past a rest hsplit)
  · intro h past a rest hsplit
    exact (countedRight_iff c past (href past a rest hsplit)).mpr (h past a rest hsplit)

/-- A read, a write to the same line and a fetch, all at an address with a tag. -/
theorem hits_right_iff_three :
    HitsRight oneWay.toConfig [(0x10000, 'r'), (0x10004, 'w'), (0x10000, 'i')] ↔
      ∀ past a rest, [((0x10000, 'r') : Access), (0x10004, 'w'), (0x10000, 'i')] =
        past ++ a :: rest → ¬ FirstAtTagZero past a :=
  hits_right_iff oneWay.runnable _ (by decide)

/-- The very first read, of address 0, is counted as a hit. -/
theorem first_read_hits :
    ¬ HitsRight oneWay.toConfig [(0, 'r')] ∧
      ∃ s, l1Run oneWay.toConfig (cachesimInit oneWay.toConfig) [(0, 'r')] = some s ∧
        s.dHit = 1 ∧ s.dMiss = 0 ∧ s.l2Miss = 0 := by
  constructor
  · intro h
    have hright := h [] (0, 'r') [] rfl
    rw [show oneWay.toConfig = oneWay.runnable.toConfig from rfl,
      countedRight_iff oneWay.runnable [] (by decide)] at hright
    exact hright ⟨rfl, by decide⟩
  · obtain ⟨s, hs, hview, hinv⟩ := l1Run_inv oneWay [(0, 'r')]
    exact ⟨s, hs, (congrArg L1View.dHit hview).trans (by decide +kernel),
      (congrArg L1View.dMiss hview).trans (by decide +kernel),
      hinv.l2Miss_eq.trans (by decide +kernel)⟩

end ECE3056.Cache
