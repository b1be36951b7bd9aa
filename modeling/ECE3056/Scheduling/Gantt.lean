import ECE3056.Scheduling.Exit

/-!
# The Gantt chart

What `print_gantt_line` shows, between two ticks of any interleaving. The columns of the
CPUs and the I/O queue are the simulator's own data; the counts are taken from the PCBs,
which the threads of idle CPUs may be changing.
-/

namespace ECE3056.Scheduling

open ECE3056.Custody ECE3056.Tally

variable {ncpu nproc : Nat} {cfg : Config}
variable {s : Sim ncpu nproc} {place : Fin nproc → Thread ncpu 1 ⊕ Rest} {c : Fin ncpu}
variable {p : Fin nproc} {es : List (Event ncpu nproc)}

/-- One line of the chart, with the PCBs in place of their names. -/
structure GanttLine (ncpu nproc : Nat) where
  simulator_time : UInt32
  current_running : Nat
  current_ready : Nat
  current_waiting : Nat
  cpus : Fin ncpu → Option (Fin nproc)
  requests : List (Fin nproc)

namespace Sim

/-- The number of processes in a state. -/
def inState (s : Sim ncpu nproc) (v : ProcessState) : Nat :=
  tally Finset.univ fun p => s.sched.state p = v

/-- `print_gantt_line` -/
def ganttLine (s : Sim ncpu nproc) : GanttLine ncpu nproc where
  simulator_time := s.simulator_time
  current_running := s.inState .running
  current_ready := s.inState .ready
  current_waiting := s.inState .waiting
  cpus := fun c => (s.simulator_cpu_data c).current
  requests := s.io_queue.map Prod.fst

/-- The thread of an idle CPU has taken a process in this state, which the simulator does not know
of yet. -/
def Takes (s : Sim ncpu nproc) (v : ProcessState) (c : Fin ncpu) : Prop :=
  (∃ p, s.sched.hand (.inl c) = some p ∧ s.sched.state p = v) ∧
    (s.simulator_cpu_data c).current = none

instance (v : ProcessState) : DecidablePred (s.Takes v) := fun _ =>
  inferInstanceAs (Decidable (_ ∧ _))

/-- What the line shows is true but for the processes that idle CPUs are taking. -/
structure ShownRight (s : Sim ncpu nproc) (line : GanttLine ncpu nproc) : Prop where
  ready : ∃ xs, s.sched.ready.Holds xs ∧
    line.current_ready = xs.length + tally Finset.univ (s.Takes .ready)
  running : line.current_running =
    (tally Finset.univ fun c => line.cpus c ≠ none) + tally Finset.univ (s.Takes .running)
  waiting : line.current_waiting = line.requests.length
  requests : line.requests.Nodup ∧ ∀ p, p ∈ line.requests ↔ s.sched.state p = .waiting
  cpus : ∀ c p, line.cpus c = some p →
    s.sched.state p = .running ∧ ∀ d, line.cpus d = some p → d = c

end Sim

/-! ## While the supervisor waits for no CPU -/

/-- A CPU in whose column there is a process runs it. -/
theorem Coherent.column (h : Coherent s place) (hwait : ∀ c k, s.supervisor ≠ .wait c k)
    (hcur : (s.simulator_cpu_data c).current = some p) :
    s.sched.hand (.inl c) = some p ∧ s.sched.state p = .running := by
  have howns : s.OwnsKnown c := by
    have hnone : (s.simulator_cpu_data c).current ≠ none := by simp [hcur]
    have hout : s.Outside c → s.OwnsKnown c := fun hout => hout.resolve_right fun hi => hnone hi.2
    cases hc : s.thread c with
    | top | published _ | returned => exact hout (h.cpuOkAt hc)
    | asleep | signalled | counted => exact (h.cpuOkAt hc).1
    | dispatch state =>
      rcases h.cpuOkAt hc with ⟨-, howns, -⟩ | ⟨-, -, hno⟩
      · exact howns
      · exact absurd hno hnone
    | student state | unlocked state =>
      obtain ⟨-, ⟨-, k, hk⟩ | ⟨-, -, hno⟩⟩ := h.cpuOkAt hc
      · exact absurd hk (hwait c k)
      · exact absurd hno hnone
  obtain ⟨hrunning, hknown⟩ := howns
  have hhand : s.sched.hand (.inl c) = some p := by
    rw [hand_inl hrunning, ← hcur, hknown]
    rfl
  refine ⟨hhand, ?_⟩
  have hfits := h.placed.fits_hand hhand
  rwa [fits_inl hrunning] at hfits

/-- The processes in a state are at rest or in the hands of a CPU. -/
theorem Coherent.inState_eq (h : Coherent s place) (hret : s.sched.caller 0 = .ret)
    (v : ProcessState) :
    s.inState v =
      (tally Finset.univ fun c => ∃ p, s.sched.hand (.inl c) = some p ∧ s.sched.state p = v) +
        tally Finset.univ fun p => s.sched.state p = v ∧ ¬ (place p).isLeft = true := by
  rw [Sim.inState, tally_split _ _ fun p => (place p).isLeft = true]
  refine congrArg (· + _) ((h.placed.keeps.tally_hands _).trans (Eq.symm ?_))
  -- `wake_up` has nothing in hand
  refine Finset.card_bij (fun c _ => .inl c) ?_ (fun _ _ _ _ heq => Sum.inl_injective heq) ?_
  · intro c hc
    exact Finset.mem_filter.mpr ⟨Finset.mem_univ _, (Finset.mem_filter.mp hc).2⟩
  · intro t ht
    obtain ⟨-, p, hp, hstate⟩ := Finset.mem_filter.mp ht
    match t with
    | .inl c => exact ⟨c, Finset.mem_filter.mpr ⟨Finset.mem_univ c, p, hp, hstate⟩, rfl⟩
    | .inr 0 => simp [hand_inr hret, Caller.hand] at hp

/-- The state of a process that is not in hand. -/
theorem Coherent.resting_iff (h : Coherent s place) (v : ProcessState) :
    (s.sched.state p = v ∧ ¬ (place p).isLeft = true) ↔ ∃ r, place p = .inr r ∧ r.state = v := by
  have hfits := h.placed.fits p
  cases hplace : place p with
  | inl t => simp
  | inr r =>
    rw [hplace] at hfits
    rw [show s.sched.state p = r.state from hfits]
    simp

theorem Coherent.ready_eq (h : Coherent s place) (hret : s.sched.caller 0 = .ret)
    (hwait : ∀ c k, s.supervisor ≠ .wait c k) : ∃ xs, s.sched.ready.Holds xs ∧
      s.inState .ready = xs.length + tally Finset.univ (s.Takes .ready) := by
  obtain ⟨xs, hholds, hxs⟩ := h.placed.queue
  have hqueued : (tally Finset.univ fun p => s.sched.state p = .ready ∧
      ¬ (place p).isLeft = true) = xs.length := by
    rw [← tally_mem hholds.nodup]
    refine tally_congr fun p _ => ?_
    rw [h.resting_iff, hxs]
    constructor
    · rintro ⟨r, hplace, hr⟩
      cases r <;> simp [Rest.state] at hr
      exact hplace
    · exact fun hplace => ⟨.queued, hplace, rfl⟩
  have htakes : (tally Finset.univ fun c =>
      ∃ p, s.sched.hand (.inl c) = some p ∧ s.sched.state p = .ready) =
        tally Finset.univ (s.Takes .ready) := by
    refine tally_congr fun c _ => ⟨fun hc => ⟨hc, ?_⟩, fun hc => hc.1⟩
    obtain ⟨p, hp, hready⟩ := hc
    by_contra hsome
    obtain ⟨q, hq⟩ := Option.ne_none_iff_exists'.mp hsome
    obtain ⟨hhand, hrunning⟩ := h.column hwait hq
    obtain rfl := Option.some_inj.mp (hp.symm.trans hhand)
    simp [hready] at hrunning
  exact ⟨xs, hholds, by rw [h.inState_eq hret, hqueued, htakes, Nat.add_comm]⟩

theorem Coherent.running_eq (h : Coherent s place) (hret : s.sched.caller 0 = .ret)
    (hwait : ∀ c k, s.supervisor ≠ .wait c k) : s.inState .running =
      (tally Finset.univ fun c => (s.simulator_cpu_data c).current ≠ none) +
        tally Finset.univ (s.Takes .running) := by
  have hrest : (tally Finset.univ fun p => s.sched.state p = .running ∧
      ¬ (place p).isLeft = true) = 0 := by
    rw [tally, Finset.card_eq_zero, Finset.filter_eq_empty_iff]
    intro p _ hp
    obtain ⟨r, -, hr⟩ := (h.resting_iff _).mp hp
    cases r <;> simp [Rest.state] at hr
  have hshown : (tally Finset.univ fun c =>
      (∃ p, s.sched.hand (.inl c) = some p ∧ s.sched.state p = .running) ∧
        ¬ (s.simulator_cpu_data c).current = none) =
          tally Finset.univ fun c => (s.simulator_cpu_data c).current ≠ none := by
    refine tally_congr fun c _ => ⟨fun hc => hc.2, fun hc => ⟨?_, hc⟩⟩
    obtain ⟨p, hp⟩ := Option.ne_none_iff_exists'.mp hc
    exact ⟨p, h.column hwait hp⟩
  rw [h.inState_eq hret, hrest, Nat.add_zero,
    tally_split _ _ fun c => (s.simulator_cpu_data c).current = none, hshown, Nat.add_comm]
  rfl

/-- A request is in the I/O queue as long as its process is waiting. -/
theorem Coherent.request_iff (h : Coherent s place) (hwait : ∀ c k, s.supervisor ≠ .wait c k)
    (hwake : ∀ p, s.supervisor ≠ .wake p .io) (hret : s.sched.caller 0 = .ret) :
    p ∈ s.io_queue.map Prod.fst ↔ s.sched.state p = .waiting := by
  rw [h.io_mem]
  have hop := h.op p
  have hfits := h.placed.fits p
  match hplace : place p with
  | .inl (.inl c) =>
    rw [hplace] at hop hfits
    have hstate : s.sched.state p = (s.sched.cpu c).expects := hfits
    have hne : (s.sched.cpu c).expects ≠ .waiting := by
      cases s.sched.cpu c <;> simp [Cpu.expects]
    rw [show s.opType p = some (s.pendingOp c) from hop, h.pendingOp_eq_cpu (hwait c), hstate]
    simp [hne]
  | .inl (.inr 0) =>
    have hhand := (h.placed.keeps (.inr 0) p).mpr hplace
    simp [hand_inr hret, Caller.hand] at hhand
  | .inr r =>
    rw [hplace] at hop hfits
    rw [show s.sched.state p = r.state from hfits]
    cases r with
    | waiting =>
      rw [show s.opType p = _ from hop, if_neg (hwake p)]
      simp [Rest.state]
    | uncreated | queued | terminated =>
      rw [show s.opType p = _ from hop]
      simp [Rest.state]

/-! ## A line of the chart -/

/-- In every calm run a line of the chart shows the truth, but for the processes that idle CPUs are
taking from the ready list: these are counted and in no column, as ready until they are marked
as running. -/
theorem gantt_line_exact (hs : Sim.Run cfg Sim.calm s es) (hsup : s.supervisor = .reading) :
    s.ShownRight s.ganttLine := by
  obtain ⟨place, h⟩ := hs.coherent
  have hret : s.sched.caller 0 = .ret := h.caller (by simp [hsup])
  have hwait : ∀ c k, s.supervisor ≠ .wait c k := by simp [hsup]
  have hrequests : ∀ p, p ∈ s.ganttLine.requests ↔ s.sched.state p = .waiting := fun p =>
    h.request_iff hwait (by simp [hsup]) hret
  refine ⟨h.ready_eq hret hwait, h.running_eq hret hwait, ?_, ⟨h.io_nodup, hrequests⟩, ?_⟩
  · exact (tally_congr fun p _ => (hrequests p).symm).trans (tally_mem h.io_nodup)
  · intro c p hc
    obtain ⟨hhand, hrunning⟩ := h.column hwait hc
    refine ⟨hrunning, fun d hd => ?_⟩
    exact Sum.inl_injective (h.placed.keeps.hand_inj (h.column hwait hd).1 hhand)

/-- The line before the first tick of the process. -/
theorem gantt_line_exact_oneProcess : ∃ s : Sim 1 1, s.ShownRight s.ganttLine ∧
    s.ganttLine.current_running = 1 ∧ s.ganttLine.cpus 0 = some 0 := by
  have hexec : (oneProcess.exec fifo Sim.calm [] (oneProcessTurns.take 26)).map (fun r =>
      (r.1.supervisor, r.1.ganttLine.current_running, r.1.ganttLine.cpus 0)) =
        some (.reading, 1, some 0) := by decide +kernel
  obtain ⟨⟨s, es⟩, hexec, hline⟩ := Option.map_eq_some_iff.mp hexec
  obtain ⟨hsup, hrest⟩ := Prod.mk.inj hline
  obtain ⟨hrunning, hcolumn⟩ := Prod.mk.inj hrest
  have hrun := (Sim.Run.initial oneProcess_initial).exec hexec
  exact ⟨s, gantt_line_exact hrun hsup, hrunning, hcolumn⟩

end ECE3056.Scheduling
