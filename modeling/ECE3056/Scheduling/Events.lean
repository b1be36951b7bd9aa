import ECE3056.Scheduling.Supervisor

/-!
# No event of a CPU is lost

Over a whole run, each event that the supervisor stores for a CPU is handled once
before the CPU is set to running again, unless some event is stored between
`context_switch` and the top of the CPU thread's loop. There it is overwritten.
-/

namespace ECE3056.Scheduling

variable {ncpu nproc : Nat} {cfg : Config}
variable {s s' : Sim ncpu nproc} {place : Fin nproc → Thread ncpu 1 ⊕ Rest} {c : Fin ncpu}
variable {es es' : List (Event ncpu nproc)} {ph ph' : Phase} {state : CpuState}

/-- A handler is called on the CPU. -/
def Event.calls (c : Fin ncpu) : Event ncpu nproc → Bool
  | .called d _ => d = c
  | .stored .. | .running _ | .simulated .. => false

/-- Each event is followed by exactly one call, that of its own handler, before the CPU is next
set to running. -/
def EventsHandled (es : List (Event ncpu nproc)) : Prop :=
  ∀ c state pre mid post, es = pre ++ .stored c state :: mid ++ .running c :: post →
    .running c ∉ mid → mid.filter (Event.calls c) = [.called c state]

namespace Phase

theorem after_append (es es' : List (Event ncpu nproc)) :
    after c ph (es ++ es') = (after c ph es).bind fun ph => after c ph es' := List.foldlM_append ..

theorem after_cons (e : Event ncpu nproc) (es : List (Event ncpu nproc)) :
    after c ph (e :: es) = (advance c ph e).bind fun ph => after c ph es := List.foldlM_cons ..

/-- What an event does to the phase of a CPU that it does not set to running. -/
theorem advance_cases {e : Event ncpu nproc} (he : e ≠ .running c)
    (h : advance c ph e = some ph') :
    ph' = ph ∧ e.calls c = false ∨
      (∃ state, ph = .running ∧ ph' = .raised state ∧ e = .stored c state) ∨
      ∃ state, ph = .raised state ∧ ph' = .ready ∧ e = .called c state := by
  cases e with
  | simulated p type => exact .inl ⟨(Option.some_inj.mp h).symm, rfl⟩
  | running d =>
    have hd : d ≠ c := fun hd => he (congrArg _ hd)
    rw [advance, if_neg hd] at h
    exact .inl ⟨(Option.some_inj.mp h).symm, rfl⟩
  | stored d state =>
    by_cases hd : d = c
    · rw [advance, if_pos hd] at h
      split at h
      · rename_i heq
        rw [hd]
        exact .inr (.inl ⟨state, heq, (Option.some_inj.mp h).symm, rfl⟩)
      · simp at h
    · rw [advance, if_neg hd] at h
      exact .inl ⟨(Option.some_inj.mp h).symm, rfl⟩
  | called d state =>
    by_cases hd : d = c
    · rw [advance, if_pos hd] at h
      split at h
      · rename_i heq
        rw [hd]
        exact .inr (.inr ⟨state, heq, (Option.some_inj.mp h).symm, rfl⟩)
      · simp at h
    · rw [advance, if_neg hd] at h
      exact .inl ⟨(Option.some_inj.mp h).symm, decide_eq_false hd⟩

/-- Without being set to running, a CPU gets no event and calls no handler. -/
theorem after_ready (hes : .running c ∉ es) (h : after c .ready es = some ph) :
    ph = .ready ∧ es.filter (Event.calls c) = [] := by
  induction es with
  | nil => exact ⟨(Option.some_inj.mp h).symm, rfl⟩
  | cons e es ih =>
    rw [List.mem_cons, not_or] at hes
    rw [after_cons] at h
    obtain ⟨ph₁, hadv, hrest⟩ := Option.bind_eq_some_iff.mp h
    rcases advance_cases (Ne.symm hes.1) hadv with ⟨rfl, hcalls⟩ | ⟨_, hph, -⟩ | ⟨_, hph, -⟩
    · rw [List.filter_cons_of_neg (by simp [hcalls])]
      exact ih hes.2 hrest
    · simp at hph
    · simp at hph

/-- After an event and before the CPU is set to running, its handler is called once or is still to
be called. -/
theorem after_raised (hes : .running c ∉ es) (h : after c (.raised state) es = some ph) :
    ph = .raised state ∧ es.filter (Event.calls c) = [] ∨
      ph = .ready ∧ es.filter (Event.calls c) = [.called c state] := by
  induction es with
  | nil => exact .inl ⟨(Option.some_inj.mp h).symm, rfl⟩
  | cons e es ih =>
    rw [List.mem_cons, not_or] at hes
    rw [after_cons] at h
    obtain ⟨ph₁, hadv, hrest⟩ := Option.bind_eq_some_iff.mp h
    rcases advance_cases (Ne.symm hes.1) hadv with ⟨rfl, hcalls⟩ | ⟨_, hph, -⟩ | ⟨_, hph, rfl, rfl⟩
    · rw [List.filter_cons_of_neg (by simp [hcalls])]
      exact ih hes.2 hrest
    · simp at hph
    · obtain rfl := Phase.raised.inj hph
      obtain ⟨hph, hnone⟩ := after_ready hes.2 hrest
      right
      refine ⟨hph, ?_⟩
      rw [List.filter_cons_of_pos (by simp [Event.calls]), hnone]

/-- What has been seen since an event was stored. -/
theorem after_stored {pre mid : List (Event ncpu nproc)} (hmid : .running c ∉ mid)
    (h : after c .ready (pre ++ .stored c state :: mid) = some ph) :
    ph = .raised state ∧ mid.filter (Event.calls c) = [] ∨
      ph = .ready ∧ mid.filter (Event.calls c) = [.called c state] := by
  rw [after_append] at h
  obtain ⟨ph₁, -, h⟩ := Option.bind_eq_some_iff.mp h
  rw [after_cons] at h
  obtain ⟨ph₂, hadv, h⟩ := Option.bind_eq_some_iff.mp h
  have hraised : ph₂ = .raised state := by
    rw [advance, if_pos rfl] at hadv
    split at hadv
    · exact (Option.some_inj.mp hadv).symm
    · simp at hadv
  rw [hraised] at h
  exact after_raised hmid h

end Phase

theorem eventsHandled_of_after (h : ∀ c, ∃ ph, Phase.after c .ready es = some ph) :
    EventsHandled es := by
  intro c state pre mid post heq hmid
  obtain ⟨ph, hph⟩ := h c
  rw [heq, Phase.after_append] at hph
  obtain ⟨ph₁, hmid₁, hrest⟩ := Option.bind_eq_some_iff.mp hph
  rcases Phase.after_stored hmid hmid₁ with ⟨hraised, -⟩ | ⟨-, hcalls⟩
  · rw [hraised, Phase.after_cons] at hrest
    simp [Phase.advance] at hrest
  · exact hcalls

/-! ## An event on its way -/

theorem exec_thread {s₁ : Sim ncpu nproc} {es₁ : List (Event ncpu nproc)} {ts : List (Turn ncpu)}
    {r : Option (Sim ncpu nproc × List (Event ncpu nproc))}
    (hnext : s.next cfg (.thread c) = some (s₁, es₁))
    (hrest : s₁.exec cfg Sim.calm (es ++ es₁) ts = r) :
    s.exec cfg Sim.calm es (.thread c :: ts) = r := by
  have hcalm : s.calm (.thread c) = true := rfl
  rw [Sim.exec, if_pos hcalm, hnext]
  exact hrest

/-- The CPU thread, left to itself, calls the handler of the event. -/
def Sim.Handles (cfg : Config) (s : Sim ncpu nproc) (c : Fin ncpu) (state : CpuState)
    (n : Nat) : Prop :=
  ∃ s', s.exec cfg Sim.calm [] (List.replicate n (.thread c)) = some (s', [.called c state])

/-- The supervisor waits for the CPU and holds no lock. -/
theorem next_of_busy (hbusy : s.Busy c) : s.next cfg (.thread c) = s.threadStep cfg c := by
  obtain ⟨k, hk⟩ := hbusy
  rw [Sim.next.eq_def]
  dsimp only
  rw [if_neg (by simp [hk])]

namespace Sim.Handles

/-- The thread calls the handler now. -/
theorem now (hbusy : s.Busy c) (hstep : s.threadStep cfg c = some (s', [.called c state])) :
    s.Handles cfg c state 1 :=
  ⟨s', exec_thread ((next_of_busy hbusy).trans hstep) rfl⟩

/-- The thread has a step to go before. -/
theorem later {n : Nat} (hbusy : s.Busy c) (hstep : s.threadStep cfg c = some (s', []))
    (h : s'.Handles cfg c state n) : s.Handles cfg c state (n + 1) := by
  obtain ⟨s₁, hexec⟩ := h
  exact ⟨s₁, exec_thread ((next_of_busy hbusy).trans hstep) hexec⟩

end Sim.Handles

namespace Coherent

theorem handles_counted (h : Coherent s place) (hc : s.thread c = .counted) :
    s.Handles cfg c .terminate 1 := by
  obtain ⟨-, hbusy⟩ := h.cpuOkAt hc
  apply Sim.Handles.now hbusy
  obtain ⟨k, hk⟩ := hbusy
  rw [Sim.threadStep, hc]
  exact if_neg (by simp [hk])

theorem handles_dispatch (h : Coherent s place) (hc : s.thread c = .dispatch state)
    (hevent : state.IsEvent) : ∃ n ≤ 2, s.Handles cfg c state n := by
  have hbusy : s.Busy c := by
    rcases h.cpuOkAt hc with ⟨-, -, hbusy⟩ | ⟨rfl, -⟩
    · exact hbusy
    · exact hevent.elim
  obtain ⟨k, hk⟩ := id hbusy
  cases state with
  | idle => exact hevent.elim
  | running => exact hevent.elim
  | preempt =>
    have hstep : s.threadStep cfg c = some (s.callHandler c .preempt .preempt) := by
      rw [Sim.threadStep, hc]
      exact if_neg (by simp [hk])
    exact ⟨1, by omega, .now hbusy hstep⟩
  | yield =>
    have hstep : s.threadStep cfg c = some (s.callHandler c .yield .yield) := by
      rw [Sim.threadStep, hc]
      exact if_neg (by simp [hk])
    exact ⟨1, by omega, .now hbusy hstep⟩
  | terminate =>
    have hcount := (h.step_count hc (s.processes_terminated + 1)).1
    refine ⟨2, by omega, .later hbusy ?_ (hcount.handles_counted (thread_setThread ..))⟩
    rw [Sim.threadStep, hc]
    exact if_neg (by simp [hk, Supervisor.holdsMutex])

/-- An event that has not been handled is on its way to its handler. -/
theorem handles (h : Coherent s place) (hphase : s.phase c = .raised state) :
    ∃ n ≤ 3, s.Handles cfg c state n := by
  rw [Sim.phase] at hphase
  cases hc : s.thread c with
  | signalled =>
    rw [hc] at hphase
    obtain ⟨hne, hnext, -⟩ := h.step_signalled hc
    obtain ⟨-, hevent, hbusy⟩ := h.cpuOkAt hc
    rw [Phase.raised.inj hphase] at hne hnext hevent
    obtain ⟨n, hn, hhandles⟩ := hnext.handles_dispatch (thread_setThread ..) hevent
    refine ⟨n + 1, by omega, .later hbusy ?_ hhandles⟩
    obtain ⟨k, hk⟩ := hbusy
    rw [Sim.threadStep, hc]
    dsimp only
    rw [if_neg (by simp [hk, Supervisor.holdsMutex]), Phase.raised.inj hphase, if_neg hne]
  | dispatch state' =>
    rw [hc] at hphase
    have hstate : state' = state ∧ state ≠ .idle := by
      cases state' <;> simp [CpuThread.phase] at hphase <;> simp [← hphase]
    obtain ⟨rfl, hne⟩ := hstate
    have hevent : state'.IsEvent := by
      rcases h.cpuOkAt hc with ⟨hevent, -⟩ | ⟨hidle, -⟩
      · exact hevent
      · exact absurd hidle hne
    obtain ⟨n, hn, hhandles⟩ := h.handles_dispatch hc hevent
    exact ⟨n, by omega, hhandles⟩
  | counted =>
    rw [hc] at hphase
    obtain rfl := Phase.raised.inj hphase
    exact ⟨1, by omega, h.handles_counted hc⟩
  | top | asleep | student _ | unlocked _ | published _ | returned =>
    rw [hc] at hphase
    simp [CpuThread.phase] at hphase

end Coherent

/-! ## Runs -/

/-- What holds after a calm run. -/
theorem Sim.Run.observed (hs : Sim.Run cfg Sim.calm s es) :
    (∃ place, Coherent s place) ∧ (∀ c, Phase.after c .ready es = some (s.phase c)) ∧
      ∀ p type, .simulated p type ∈ es → type = .cpu := by
  induction hs with
  | @initial s hinit =>
    refine ⟨⟨_, coherent_initial hinit⟩, ?_, ?_⟩
    · intro c
      rw [Sim.phase, hinit.thread]
      rfl
    · intro p type hmem
      simp at hmem
  | @step s s' es es' t _ hcalm hnext ih =>
    obtain ⟨⟨place, hcoh⟩, hphase, hsim⟩ := ih
    obtain ⟨hcoh', hobs⟩ := hcoh.next hcalm hnext
    refine ⟨hcoh', ?_, ?_⟩
    · intro c
      rw [Phase.after_append, hphase c]
      exact hobs.phase c
    · intro p type hmem
      rcases List.mem_append.mp hmem with hmem | hmem
      · exact hsim p type hmem
      · exact hobs.simulated p type hmem

/-- When no event is stored for a CPU between `context_switch` and the top of its thread's loop,
every event is handled exactly once before the CPU is set to running again, an event that has yet
to be handled needs only its own CPU's thread, and only CPU bursts are simulated. -/
theorem no_event_lost (hs : Sim.Run cfg Sim.calm s es) :
    EventsHandled es ∧
      (∀ c state pre mid, es = pre ++ .stored c state :: mid → .running c ∉ mid →
        mid.filter (Event.calls c) = [.called c state] ∨
          mid.filter (Event.calls c) = [] ∧ ∃ n ≤ 3, s.Handles cfg c state n) ∧
      ∀ p type, .simulated p type ∈ es → type = .cpu := by
  obtain ⟨⟨place, hcoh⟩, hphase, hsim⟩ := hs.observed
  refine ⟨eventsHandled_of_after fun c => ⟨_, hphase c⟩, ?_, hsim⟩
  intro c state pre mid heq hmid
  have hafter := hphase c
  rw [heq] at hafter
  rcases Phase.after_stored hmid hafter with ⟨hraised, hnone⟩ | ⟨-, hcalls⟩
  · exact .inr ⟨hnone, hcoh.handles hraised⟩
  · exact .inl hcalls

/-- `start_simulator` with one CPU and the processes of `process.c`. -/
def startSimulator : Sim 1 processCount where
  sched := {
    ready := ⟨none, fun _ => none⟩
    time_remaining := fun p => (processes p).2
    state := fun _ => .new
    current := fun _ => none
    cpu := fun _ => .idling
    caller := fun _ => .ret }
  simulator_cpu_data := fun _ => ⟨none, .idle, -1⟩
  thread := fun _ => .top
  supervisor := .lock
  ops := fun p => (processes p).1
  pc := fun _ => 0
  io_queue := []
  simulator_time := 0
  processes_created := 0
  processes_terminated := 0
  writers := 0

theorem startSimulator_initial : startSimulator.Initial where
  sched := ⟨rfl, fun _ => rfl, fun _ => rfl, fun _ => rfl⟩
  data := fun _ => rfl
  thread := fun _ => rfl
  supervisor := rfl
  shape := processes_wellShaped
  pc := fun _ => rfl
  io_queue := rfl
  time := rfl
  created := rfl
  terminated := rfl
  writers := rfl

/-- `os-sim 1`. -/
def fifo : Config := ⟨'f', -1⟩

theorem run_of_exec {ok : Sim 1 processCount → Turn 1 → Bool} {ts : List (Turn 1)}
    {es : List (Event 1 processCount)}
    (h : (startSimulator.exec fifo ok [] ts).map Prod.snd = some es) :
    ∃ s, Sim.Run fifo ok s es := by
  obtain ⟨⟨s, es₁⟩, hexec, rfl⟩ := Option.map_eq_some_iff.mp h
  exact ⟨s, (Sim.Run.initial startSimulator_initial).exec hexec⟩

/-- Process 0 runs its first burst, yields and is run again. -/
def handledTurns : List (Turn 1) :=
  List.replicate 13 .supervisor ++ List.replicate 10 (.thread 0) ++
    List.replicate 20 .supervisor ++ List.replicate 11 (.thread 0) ++
    List.replicate 26 .supervisor ++ List.replicate 8 (.thread 0)

def handledYield : List (Event 1 processCount) :=
  [.running 0, .simulated 0 .cpu, .simulated 0 .cpu, .simulated 0 .cpu, .stored 0 .yield,
    .called 0 .yield, .running 0]

theorem handledYield_run : ∃ s, Sim.Run fifo Sim.calm s handledYield :=
  run_of_exec (show (startSimulator.exec fifo Sim.calm [] handledTurns).map Prod.snd = _ by
    decide +kernel)

theorem no_event_lost_handledYield :
    ∃ s, Sim.Run fifo Sim.calm s handledYield ∧ EventsHandled handledYield := by
  obtain ⟨s, hs⟩ := handledYield_run
  exact ⟨s, hs, (no_event_lost hs).1⟩

/-- CPU 0's thread has left `context_switch` and is at the top of its loop, while the supervisor
simulates the whole burst of process 0. -/
def lostTurns : List (Turn 1) :=
  List.replicate 13 .supervisor ++ List.replicate 9 (.thread 0) ++
    List.replicate 20 .supervisor ++ [.thread 0] ++ List.replicate 9 .supervisor

def lostYield : List (Event 1 processCount) :=
  [.simulated 0 .cpu, .simulated 0 .cpu, .simulated 0 .cpu, .stored 0 .yield, .running 0,
    .simulated 0 .io]

/-- The handler of the event is never called, and a process that is blocked on I/O is
simulated. -/
theorem event_lost :
    (∃ s, Sim.Run fifo (fun _ _ => true) s lostYield) ∧ ¬ EventsHandled lostYield ∧
      .simulated 0 .io ∈ lostYield := by
  refine ⟨run_of_exec (show (startSimulator.exec fifo _ [] lostTurns).map Prod.snd = _ by
    decide +kernel), ?_, by decide⟩
  intro h
  have hcalls := h 0 .yield [.simulated 0 .cpu, .simulated 0 .cpu, .simulated 0 .cpu] []
    [.simulated 0 .io] rfl (by simp)
  simp at hcalls

end ECE3056.Scheduling
