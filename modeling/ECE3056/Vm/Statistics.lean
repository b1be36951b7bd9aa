import ECE3056.Vm.Transparency

/-!
# The paging statistics

The counters of `stats` over whole runs. Each page written back was dirty, so it is
paid for by a write since it was last loaded; each eviction happens in a fault or at
the start of a process; the swap queue grows only when a page is written back.
-/

namespace ECE3056.Vm

open Tally (tally tally_congr grid mem_grid)

/-- The page table entry of a running process is valid and dirty. -/
def dirtyEntry (s : State) (pid vpn : Nat) : Bool :=
  decide ((s.procs pid).state = .running) &&
    match s.pte (s.procs pid).savedPtbr vpn with
    | .ok entry => entry.valid != 0 && entry.dirty != 0
    | .error _ => false

def dirtyEntries (s : State) : Nat := tally (grid maxPid numPages) fun x => dirtyEntry s x.1 x.2

/-- The memory accesses among the operations so far. -/
def accessesMade : List Op → Nat
  | [] => 0
  | .start _ :: past => accessesMade past
  | .stop _ :: past => accessesMade past
  | .access .. :: past => accessesMade past + 1

/-- The process starts among the operations so far. -/
def startsMade : List Op → Nat
  | [] => 0
  | .start _ :: past => startsMade past + 1
  | .stop _ :: past => startsMade past
  | .access .. :: past => startsMade past

structure StatsConsistent (past : List Op) (s : State) : Prop where
  accesses_eq : s.stats.accesses = s.stats.reads + s.stats.writes
  accesses_made : s.stats.accesses = accessesMade past
  faults_le : s.stats.pageFaults ≤ s.stats.accesses
  writebacks_paid : s.stats.writebacks + dirtyEntries s ≤ s.stats.writes
  writebacks_le : s.stats.writebacks ≤ s.stats.pageFaults + startsMade past
  size_le : s.swapQueue.size ≤ s.swapQueue.sizeMax
  sizeMax_le : s.swapQueue.sizeMax ≤ s.stats.writebacks

variable {past : List Op} {s s' : State} {prng : Nat → Nat} {G G' : Layout} {op : Op} {n : Nat}

theorem Serves.dirtyEntry_iff (h : Serves past s G) {p v : Nat} (hv : v < numPages) :
    dirtyEntry s p v = true ↔ G.Dirty p v := by
  by_cases hp : running past p
  · have hl : G.live p v := (h.live_iff p v).mpr ⟨hp, hv⟩
    have hg := (h.realizes.table_of_running p ((h.running_iff p).mpr hp)).2.2
    have hrun : decide ((s.procs p).state = .running) = true :=
      decide_eq_true ((h.state_iff p).mpr hp)
    rw [dirtyEntry, hrun, h.realizes.pte_eq hg hv, Bool.true_and]
    rcases h.valid.valid_bit hl with hval | hval <;>
      rcases h.valid.dirty_bit hl with hdirty | hdirty <;> simp [Layout.Dirty, hl, hval, hdirty]
  · have hrun : decide ((s.procs p).state = .running) = false :=
      decide_eq_false (mt (h.state_iff p).mp hp)
    rw [dirtyEntry, hrun, Bool.false_and]
    refine iff_of_false Bool.false_ne_true ?_
    intro hd
    exact hp ((h.live_iff p v).mp hd.1).1

theorem Serves.dirtyEntries_eq (h : Serves past s G) : dirtyEntries s = G.dirtyPages :=
  tally_congr fun _ hx => h.dirtyEntry_iff (mem_grid.mp hx).2

/-! ## What one operation adds -/

theorem accessesMade_cons (op : Op) (past : List Op) (n : Nat) :
    accessesMade (op :: past) = accessesMade past + ((op.cost n).reads + (op.cost n).writes) := by
  cases op with
  | start p => rfl
  | stop p => rfl
  | access p address rw data =>
    rw [Op.cost]
    split <;> rfl

theorem cost_faults_le (op : Op) (hn : n ≤ 1) :
    (op.cost n).faults ≤ (op.cost n).reads + (op.cost n).writes := by
  cases op with
  | start p => exact Nat.le_refl 0
  | stop p => exact Nat.le_refl 0
  | access p address rw data =>
    rw [Op.cost]
    split <;> exact hn

/-- A page is evicted in a fault or at a start. -/
theorem cost_evictions_le (op : Op) (past : List Op) (hn : n ≤ 1) :
    startsMade past + (op.cost n).evictions ≤ startsMade (op :: past) + (op.cost n).faults := by
  cases op with
  | start p => exact Nat.add_le_add_left hn _
  | stop p => exact Nat.le_refl _
  | access p address rw data =>
    rw [Op.cost]
    split <;> exact Nat.le_refl _

theorem StatsConsistent.next (h : StatsConsistent past s) (hserves : Serves past s G)
    (hserves' : Serves (op :: past) s' G') (hn : n ≤ 1)
    (hc : Charged (op.cost n) (books s G) (books s' G')) : StatsConsistent (op :: past) s' := by
  obtain ⟨hreads, hwrites, haccesses, hfaults, hwritebacks, hdirty, hmax⟩ := hc
  simp only [books] at hreads hwrites haccesses hfaults hwritebacks hdirty hmax
  have hmade := accessesMade_cons op past n
  have hfewer := cost_faults_le op hn
  have hpaid := cost_evictions_le op past hn
  obtain ⟨hsum, hcount, hle, hwb, hwbs, -, hqueue⟩ := h
  rw [hserves.dirtyEntries_eq] at hwb
  refine ⟨by omega, by omega, by omega, ?_, by omega, hserves'.realizes.size_le, by omega⟩
  rw [hserves'.dirtyEntries_eq]
  omega

theorem statsConsistent_boot (prng : Nat → Nat) : StatsConsistent [] (boot prng) where
  accesses_eq := rfl
  accesses_made := rfl
  faults_le := Nat.le_refl 0
  writebacks_paid := by
    have hnone : dirtyEntries (boot prng) = 0 := by
      rw [(serves_boot prng).dirtyEntries_eq]
      exact Finset.card_eq_zero.mpr (Finset.filter_eq_empty_iff.mpr fun _ _ hd => hd.1)
    rw [hnone]
    exact Nat.le_refl 0
  writebacks_le := Nat.le_refl 0
  size_le := Nat.le_refl 0
  sizeMax_le := Nat.le_refl 0

/-- The statistics are consistent after every operation. -/
theorem statistics_consistent (h : Reachable prng past s) : StatsConsistent past s := by
  induction h with
  | boot => exact statsConsistent_boot prng
  | next hs ha hstep ih =>
    obtain ⟨G, hserves⟩ := hs.serves
    rcases hserves.proceeds ha with hoom | ⟨s', G', n, hok, hserves', -, hn, hcharged⟩
    · rw [hstep] at hoom
      simp at hoom
    · rw [hstep] at hok
      obtain rfl := Except.ok.inj hok
      exact ih.next hserves hserves' hn hcharged

/-- The statistics after one start and one write. -/
theorem statistics_consistent_write : ∃ s,
    Reachable (fun _ => 1) [.access 1 5 'w' 7, .start 1] s ∧
      StatsConsistent [.access 1 5 'w' 7, .start 1] s := by
  obtain ⟨s, hs⟩ := reachable_write
  exact ⟨s, hs, statistics_consistent hs⟩

end ECE3056.Vm
