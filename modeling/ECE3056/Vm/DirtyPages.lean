import ECE3056.Library.Tally
import ECE3056.Vm.Layout

/-!
# Dirty pages and what operations cost

A page is dirty when its bytes are in its frame alone. `Charged` bounds what an
operation adds to the statistics: every page written back was dirty before and is
clean afterwards, and a page becomes dirty by a write only.
-/

namespace ECE3056.Vm

open Tally (tally tally_mono tally_remove tally_insert grid mem_grid)

namespace Layout

variable {G G' : Layout} {p v : Nat}

def Dirty (G : Layout) (p v : Nat) : Prop :=
  G.live p v ∧ (G.entry p v).valid = 1 ∧ (G.entry p v).dirty = 1

noncomputable instance (G : Layout) : DecidablePred fun x : Nat × Nat => G.Dirty x.1 x.2 :=
  Classical.decPred _

noncomputable def dirtyPages (G : Layout) : Nat :=
  tally (grid maxPid numPages) fun x => G.Dirty x.1 x.2

theorem dirtyPages_mono (h : ∀ q w, G'.Dirty q w → G.Dirty q w) : G'.dirtyPages ≤ G.dirtyPages :=
  tally_mono fun x _ => h x.1 x.2

/-- A dirty entry is none that was made clean. -/
theorem Dirty.of_setEntry {q w : Nat} {e : Pte} (hlive : G'.live = G.live)
    (hentry : G'.entry = (G.setEntry p v e).entry) (he : e.valid ≠ 1 ∨ e.dirty ≠ 1)
    (hd : G'.Dirty q w) : G.Dirty q w ∧ ¬ (q = p ∧ w = v) := by
  obtain ⟨hl, hval, hdirty⟩ := hd
  rw [hlive] at hl
  rw [hentry, setEntry_entry] at hval hdirty
  by_cases hpv : q = p ∧ w = v
  · rw [if_pos hpv] at hval hdirty
    rcases he with hne | hne
    · exact absurd hval hne
    · exact absurd hdirty hne
  · rw [if_neg hpv] at hval hdirty
    exact ⟨⟨hl, hval, hdirty⟩, hpv⟩

/-- An entry is made clean. -/
theorem dirtyPages_setEntry {e : Pte} (hlive : G'.live = G.live)
    (hentry : G'.entry = (G.setEntry p v e).entry) (he : e.valid ≠ 1 ∨ e.dirty ≠ 1) :
    G'.dirtyPages ≤ G.dirtyPages :=
  dirtyPages_mono fun _ _ hd => (hd.of_setEntry hlive hentry he).1

/-- A dirty entry is made clean. -/
theorem dirtyPages_clean {e : Pte} (hlive : G'.live = G.live)
    (hentry : G'.entry = (G.setEntry p v e).entry) (he : e.valid ≠ 1 ∨ e.dirty ≠ 1)
    (hp : p < maxPid) (hv : v < numPages) (hd : G.Dirty p v) :
    G'.dirtyPages + 1 ≤ G.dirtyPages := by
  refine tally_remove (b := (p, v)) (mem_grid.mpr ⟨hp, hv⟩) hd fun x _ hx => ?_
  obtain ⟨hold, hne⟩ := hx.of_setEntry hlive hentry he
  refine ⟨hold, ?_⟩
  rintro rfl
  exact hne ⟨rfl, rfl⟩

theorem dirtyPages_store (G : Layout) (p v : Nat) (page : Page) :
    (G.store p v page).dirtyPages ≤ G.dirtyPages + 1 := by
  refine tally_insert (b := (p, v)) fun x _ hx => ?_
  by_cases hpv : x.1 = p ∧ x.2 = v
  · exact .inr (Prod.ext hpv.1 hpv.2)
  · have hentry : (G.store p v page).entry x.1 x.2 = G.entry x.1 x.2 := setEntry_other G _ hpv
    obtain ⟨hl, hval, hdirty⟩ := hx
    rw [hentry] at hval hdirty
    exact .inl ⟨hl, hval, hdirty⟩

/-- A new process has no dirty pages. -/
theorem dirtyPages_addTable (G : Layout) (f p : Nat) :
    (G.addTable f p).dirtyPages ≤ G.dirtyPages := by
  refine dirtyPages_mono fun q w hd => ?_
  obtain ⟨hl, hval, hdirty⟩ := hd
  change (if q = p then w < numPages else G.live q w) at hl
  change (Function.update G.entry p _ q w).valid = 1 at hval
  change (Function.update G.entry p _ q w).dirty = 1 at hdirty
  by_cases hqp : q = p
  · rw [hqp, Function.update_self] at hval
    simp at hval
  · rw [Function.update_of_ne hqp] at hval hdirty
    rw [if_neg hqp] at hl
    exact ⟨hl, hval, hdirty⟩

theorem dirtyPages_forget (G : Layout) (p v : Nat) :
    (G.forget p v).dirtyPages ≤ G.dirtyPages := by
  refine dirtyPages_mono fun q w hd => ?_
  obtain ⟨⟨hl, hpv⟩, hval, hdirty⟩ := hd
  have hentry : (G.forget p v).entry q w = G.entry q w := update_update_of_ne _ _ hpv
  rw [hentry] at hval hdirty
  exact ⟨hl, hval, hdirty⟩

end Layout

/-! ## Costs -/

/-- What the statistics count, with the pages that are still to be written back. -/
structure Books where
  stats : Stats
  sizeMax : Nat
  dirtyPages : Nat

noncomputable def books (s : State) (G : Layout) : Books :=
  ⟨s.stats, s.swapQueue.sizeMax, G.dirtyPages⟩

/-- What an operation is counted as. -/
structure Cost where
  reads : Nat := 0
  writes : Nat := 0
  faults : Nat := 0
  /-- How many pages it may write back. -/
  evictions : Nat := 0

structure Charged (c : Cost) (b b' : Books) : Prop where
  reads : b'.stats.reads = b.stats.reads + c.reads
  writes : b'.stats.writes = b.stats.writes + c.writes
  accesses : b'.stats.accesses = b.stats.accesses + (c.reads + c.writes)
  pageFaults : b'.stats.pageFaults = b.stats.pageFaults + c.faults
  writebacks : b'.stats.writebacks ≤ b.stats.writebacks + c.evictions
  dirty : b'.stats.writebacks + b'.dirtyPages ≤ b.stats.writebacks + b.dirtyPages + c.writes
  /-- A page that is written back may get a new swap entry. -/
  sizeMax : b'.sizeMax + b.stats.writebacks ≤ b.sizeMax + b'.stats.writebacks

namespace Charged

variable {c c' : Cost} {b b₁ b' : Books}

/-- Nothing is written back. -/
theorem counted (c : Cost)
    (hstats : b'.stats = { b.stats with
      reads := b.stats.reads + c.reads
      writes := b.stats.writes + c.writes
      accesses := b.stats.accesses + (c.reads + c.writes)
      pageFaults := b.stats.pageFaults + c.faults })
    (hmax : b'.sizeMax = b.sizeMax) (hdirty : b'.dirtyPages ≤ b.dirtyPages + c.writes) :
    Charged c b b' := by
  constructor <;> simp [hstats, hmax, Nat.add_assoc, hdirty]

theorem trans (h : Charged c b b₁) (h' : Charged c' b₁ b') :
    Charged ⟨c.reads + c'.reads, c.writes + c'.writes, c.faults + c'.faults,
      c.evictions + c'.evictions⟩ b b' where
  reads := by rw [h'.reads, h.reads, Nat.add_assoc]
  writes := by rw [h'.writes, h.writes, Nat.add_assoc]
  accesses := by
    rw [h'.accesses, h.accesses]
    dsimp only
    omega
  pageFaults := by rw [h'.pageFaults, h.pageFaults, Nat.add_assoc]
  writebacks := by
    have hfirst := h.writebacks
    have hsecond := h'.writebacks
    dsimp only
    omega
  dirty := by
    have hfirst := h.dirty
    have hsecond := h'.dirty
    dsimp only
    omega
  sizeMax := by
    have hfirst := h.sizeMax
    have hsecond := h'.sizeMax
    omega

end Charged

end ECE3056.Vm
