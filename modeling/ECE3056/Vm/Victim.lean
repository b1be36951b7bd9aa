import ECE3056.Vm.MainLoop

/-!
# When a victim is found

`select_victim_frame` over every frame table, both replacement modes that `main`
accepts and every sequence of random numbers.
-/

namespace ECE3056.Vm

open ECE3056.Fallible

def Unprotected (frameTable : Nat → Fte) (i : Nat) : Prop :=
  i < numFrames ∧ (frameTable i).isProtected = 0

/-- A frame that the first loop of `select_victim_frame` takes. -/
def Free (frameTable : Nat → Fte) (i : Nat) : Prop :=
  Unprotected frameTable i ∧ (frameTable i).mapped = 0

/-- Victim selection gives up only when memory is exhausted, and `free_frame` evicts a page only
when no frame is free. -/
structure SelectsVictim (s : State) : Prop where
  finds : (∃ i, Unprotected s.frameTable i) →
    ∃ i prng, selectVictimFrame s = .ok (i, { s with prng := prng }) ∧
      Unprotected s.frameTable i ∧ ((∃ j, Free s.frameTable j) → Free s.frameTable i)
  panics_iff : selectVictimFrame s = .error outOfMemory ↔ ¬ ∃ i, Unprotected s.frameTable i
  /-- The victim's frame table entry is all that changes. -/
  spares : (∃ j, Free s.frameTable j) →
    ∃ i, Free s.frameTable i ∧
      freeFrame s = .ok (i, { s with
        frameTable := Function.update s.frameTable i { s.frameTable i with referenced := 0 } })

variable {frameTable : Nat → Fte} {s : State}

/-! ## The two loops -/

theorem firstFree_free {i : Nat} (h : firstFree frameTable = some i) : Free frameTable i := by
  have hmapped := List.find?_some h
  simp only [decide_eq_true_eq] at hmapped
  exact ⟨firstFree_some h, hmapped.2⟩

theorem firstFree_none (h : firstFree frameTable = none) (j : Nat) : ¬ Free frameTable j := by
  intro hj
  obtain ⟨⟨hlt, hprot⟩, hmapped⟩ := hj
  have hall := List.find?_eq_none.mp h j (List.mem_range.mpr hlt)
  simp only [decide_eq_true_eq] at hall
  exact hall ⟨hprot, hmapped⟩

/-- The second loop ends without a victim only when it has not seen an unprotected frame. -/
theorem russianRoulette_none {frames : List Nat} {last : Nat} {prng : Nat → Nat}
    (hframes : ∀ f ∈ frames, f < numFrames)
    (h : (russianRoulette frameTable frames last prng).1 = none) :
    numFrames ≤ last ∧ ∀ f ∈ frames, (frameTable f).isProtected ≠ 0 := by
  induction frames generalizing last prng with
  | nil =>
    rw [russianRoulette] at h
    split at h
    · simp at h
    · rename_i hlast
      exact ⟨Nat.le_of_not_lt hlast, by simp⟩
  | cons f frames ih =>
    have hrest : ∀ g ∈ frames, g < numFrames := fun g hg => hframes g (List.mem_cons_of_mem f hg)
    rw [russianRoulette] at h
    split at h
    · split at h
      · simp at h
      · -- the frame is remembered, so a victim is found in the end
        have hle := (ih hrest h).1
        have hlt := hframes f (List.mem_cons_self ..)
        omega
    · rename_i hprot
      obtain ⟨hle, hall⟩ := ih hrest h
      refine ⟨hle, ?_⟩
      intro g hg
      rcases List.mem_cons.mp hg with rfl | hg
      · exact hprot
      · exact hall g hg

theorem selectVictimFrame_free {i : Nat} (h : firstFree s.frameTable = some i) :
    selectVictimFrame s = .ok (i, s) := by
  rw [selectVictimFrame, h]

theorem selectVictimFrame_clocksweep (h : firstFree s.frameTable = none)
    (hrep : s.replacement = .clocksweep) : selectVictimFrame s = .error outOfMemory := by
  rw [selectVictimFrame, h, hrep]

theorem selectVictimFrame_random (hrep : s.replacement = .random)
    (h : selectVictimFrame s = .error outOfMemory) : ¬ ∃ i, Unprotected s.frameTable i := by
  intro hex
  obtain ⟨i, hlt, hprot⟩ := hex
  rw [selectVictimFrame, hrep] at h
  split at h
  · simp at h
  · dsimp only at h
    split at h
    · simp at h
    · rename_i hv
      have hnone := russianRoulette_none (fun f hf => List.mem_range.mp hf) (congrArg Prod.fst hv)
      exact hnone.2 i (List.mem_range.mpr hlt) hprot

/-! ## The whole function -/

theorem freeFrame_free {i : Nat} (h : firstFree s.frameTable = some i) :
    freeFrame s = .ok (i, { s with
      frameTable := Function.update s.frameTable i { s.frameTable i with referenced := 0 } }) := by
  obtain ⟨⟨hlt, -⟩, hmapped⟩ := firstFree_free h
  have hne : ¬ (s.frameTable i).mapped = 1 := by
    rw [hmapped]
    decide
  simp only [freeFrame, selectVictimFrame_free h, Realizes.fte_eq hlt, ok_bind, if_neg hne,
    pure_eq_ok, Realizes.setFte_eq hlt]

/-- Whenever victim selection does not panic, the victim is as it should be. -/
theorem selectVictimFrame_found (h : selectVictimFrame s ≠ .error outOfMemory) :
    ∃ i prng, selectVictimFrame s = .ok (i, { s with prng := prng }) ∧
      Unprotected s.frameTable i ∧ ((∃ j, Free s.frameTable j) → Free s.frameTable i) := by
  cases hfirst : firstFree s.frameTable with
  | some i =>
    have hi := firstFree_free hfirst
    exact ⟨i, s.prng, selectVictimFrame_free hfirst, hi.1, fun _ => hi⟩
  | none =>
    rcases selectVictimFrame_cases s with hoom | ⟨i, prng, hsel, hi⟩
    · exact absurd hoom h
    · refine ⟨i, prng, hsel, hi, ?_⟩
      intro hex
      obtain ⟨j, hj⟩ := hex
      exact absurd hj (firstFree_none hfirst j)

/-- Victim selection fails only when memory is exhausted, and prefers free frames, if and only if
the mode is `random`, some frame is free, or all frames are protected. -/
theorem selects_victim_iff (s : State) : SelectsVictim s ↔
    s.replacement = .random ∨ (∃ i, Free s.frameTable i) ∨ ¬ ∃ i, Unprotected s.frameTable i := by
  constructor
  · intro h
    cases hfirst : firstFree s.frameTable with
    | some i => exact .inr (.inl ⟨i, firstFree_free hfirst⟩)
    | none =>
      cases hrep : s.replacement with
      | random => exact .inl rfl
      | clocksweep =>
        exact .inr (.inr (h.panics_iff.mp (selectVictimFrame_clocksweep hfirst hrep)))
  · intro h
    have hpanic : selectVictimFrame s = .error outOfMemory → ¬ ∃ i, Unprotected s.frameTable i := by
      intro hoom
      rcases h with hrep | ⟨j, hj⟩ | hnone
      · exact selectVictimFrame_random hrep hoom
      · -- a free frame would have been taken
        cases hfirst : firstFree s.frameTable with
        | some i =>
          rw [selectVictimFrame_free hfirst] at hoom
          simp at hoom
        | none => exact absurd hj (firstFree_none hfirst j)
      · exact hnone
    constructor
    · intro hex
      exact selectVictimFrame_found fun hoom => hpanic hoom hex
    · refine ⟨hpanic, ?_⟩
      intro hnone
      by_contra hok
      obtain ⟨i, -, -, hi, -⟩ := selectVictimFrame_found hok
      exact hnone ⟨i, hi⟩
    · intro hex
      obtain ⟨j, hj⟩ := hex
      cases hfirst : firstFree s.frameTable with
      | some i => exact ⟨i, firstFree_free hfirst, freeFrame_free hfirst⟩
      | none => exact absurd hj (firstFree_none hfirst j)

/-! ## A full memory -/

/-- START 0, and a read of each of its first 62 pages. -/
def fillTrace : List Op :=
  .start 0 :: (List.range 62).map fun page => .access 0 (page * pageSize) 'r' 0

set_option maxRecDepth 10000 in
/-- After the trace the next page fault panics under `clocksweep`, though all the pages it could
evict are unprotected. -/
theorem clocksweep_gives_up : ∃ steps s,
    mainLoop [] (systemInit (.zeroed .clocksweep fun _ => 0)) fillTrace = .ok (steps, s) ∧
      Unprotected s.frameTable 2 ∧ selectVictimFrame s = .error outOfMemory ∧
      ¬ SelectsVictim s := by
  have hrun : (do
      let result ← mainLoop [] (systemInit (.zeroed .clocksweep fun _ => 0)) fillTrace
      if (result.2.frameTable 2).isProtected = 0 ∧ firstFree result.2.frameTable = none ∧
        result.2.replacement = Replacement.clocksweep then return
      else throw Fault.undefined).toBool = true := by decide +kernel
  cases hloop : mainLoop [] (systemInit (.zeroed .clocksweep fun _ => 0)) fillTrace with
  | error fault => simp [hloop, Except.toBool] at hrun
  | ok result =>
    obtain ⟨steps, s⟩ := result
    by_cases hs : (s.frameTable 2).isProtected = 0 ∧ firstFree s.frameTable = none ∧
      s.replacement = .clocksweep
    · obtain ⟨hprot, hfirst, hrep⟩ := hs
      have hoom := selectVictimFrame_clocksweep hfirst hrep
      have hex : Unprotected s.frameTable 2 := ⟨by decide, hprot⟩
      exact ⟨steps, s, rfl, hex, hoom, fun h => h.panics_iff.mp hoom ⟨2, hex⟩⟩
    · simp [hloop, if_neg hs, Except.toBool] at hrun

end ECE3056.Vm
