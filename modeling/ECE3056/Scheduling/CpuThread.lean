import ECE3056.Scheduling.Handshake

/-!
# The steps of a CPU thread

Each step of `simulator_cpu_thread` keeps the invariant, and what an observer sees of
it is the next event of that CPU.
-/

namespace ECE3056.Scheduling

open ECE3056.Custody

variable {ncpu nproc : Nat} {cfg : Config}
variable {s s' : Sim ncpu nproc} {place : Fin nproc → Thread ncpu 1 ⊕ Rest} {c d : Fin ncpu}

/-! ## What an observer has seen of a CPU -/

/-- Where a CPU is between `CPU_RUNNING`, an event and its handler. -/
inductive Phase
  | ready
  | running
  | raised (state : CpuState)
  deriving DecidableEq, Repr

/-- A CPU is set to running, gets an event, and calls the handler for it. -/
def Phase.advance (c : Fin ncpu) (ph : Phase) : Event ncpu nproc → Option Phase
  | .simulated .. => some ph
  | .running d => if d = c then (if ph = .ready then some .running else none) else some ph
  | .stored d state =>
    if d = c then (if ph = .running then some (.raised state) else none) else some ph
  | .called d state =>
    if d = c then (if ph = .raised state then some .ready else none) else some ph

/-- The phase after some events. -/
def Phase.after (c : Fin ncpu) (ph : Phase) (es : List (Event ncpu nproc)) : Option Phase :=
  es.foldlM (Phase.advance c) ph

/-- The phase that a thread is in, when `state` is stored for its CPU. -/
def CpuThread.phase (state : CpuState) : CpuThread → Phase
  | asleep => .running
  | signalled => .raised state
  | dispatch .idle => .ready
  | dispatch state => .raised state
  | counted => .raised .terminate
  | top | student _ | unlocked _ | published _ | returned => .ready

def Sim.phase (s : Sim ncpu nproc) (c : Fin ncpu) : Phase :=
  (s.thread c).phase (s.simulator_cpu_data c).state

/-- What a step must show an observer. -/
structure Observed (s s' : Sim ncpu nproc) (es : List (Event ncpu nproc)) : Prop where
  phase : ∀ c, Phase.after c (s.phase c) es = some (s'.phase c)
  simulated : ∀ p type, .simulated p type ∈ es → type = .cpu

/-! ## Elementary updates -/

namespace ThreadFrame

theorem refl (s : Sim ncpu nproc) (c : Fin ncpu) : ThreadFrame s s c :=
  ⟨fun _ _ => rfl, fun _ _ => rfl, Frame.refl .., .inl rfl, rfl, rfl, rfl, rfl⟩

theorem setThread (hf : ThreadFrame s s' c) (t : CpuThread) :
    ThreadFrame s (s'.setThread c t) c := by
  refine ⟨?_, hf.data, hf.sched, hf.supervisor, hf.ops, hf.pc, hf.io_queue, hf.created⟩
  intro d hd
  exact (Function.update_of_ne hd ..).trans (hf.thread d hd)

theorem setData (hf : ThreadFrame s s' c) (v : CpuData nproc) :
    ThreadFrame s (s'.setData c v) c := by
  refine ⟨hf.thread, ?_, hf.sched, hf.supervisor, hf.ops, hf.pc, hf.io_queue, hf.created⟩
  intro d hd
  exact (Function.update_of_ne hd ..).trans (hf.data d hd)

theorem setSched (hf : ThreadFrame s s' c) {sched : State ncpu nproc 1}
    (hsched : Frame s.sched sched (.inl c)) : ThreadFrame s { s' with sched } c :=
  ⟨hf.thread, hf.data, hsched, hf.supervisor, hf.ops, hf.pc, hf.io_queue, hf.created⟩

theorem setWriters (hf : ThreadFrame s s' c) (n : Int) : ThreadFrame s { s' with writers := n } c :=
  ⟨hf.thread, hf.data, hf.sched, hf.supervisor, hf.ops, hf.pc, hf.io_queue, hf.created⟩

end ThreadFrame

theorem thread_setThread (s : Sim ncpu nproc) (c : Fin ncpu) (t : CpuThread) :
    (s.setThread c t).thread c = t := Function.update_self ..

theorem data_setData (s : Sim ncpu nproc) (c : Fin ncpu) (v : CpuData nproc) :
    (s.setData c v).simulator_cpu_data c = v := Function.update_self ..

/-- A thread that is awake can only signal the supervisor. -/
theorem signal_frame (hc : s.thread c ≠ .asleep) :
    ThreadFrame s (s.signal c) c ∧ (s.signal c).thread = s.thread ∧
      (s.signal c).simulator_cpu_data = s.simulator_cpu_data ∧ (s.signal c).sched = s.sched := by
  rw [Sim.signal.eq_def]
  split
  · rename_i d k hwait
    split
    · rename_i hd
      subst hd
      refine ⟨⟨fun _ _ => rfl, fun _ _ => rfl, Frame.refl .., .inr ⟨k, hwait, rfl⟩, rfl, rfl,
        rfl, rfl⟩, rfl, rfl, rfl⟩
    · exact ⟨ThreadFrame.refl s c, rfl, rfl, rfl⟩
  · rw [if_neg hc]
    exact ⟨ThreadFrame.refl s c, rfl, rfl, rfl⟩

namespace Coherent

/-- A step that leaves the scheduler alone. -/
theorem thread_stay (h : Coherent s place) (hf : ThreadFrame s s' c) (hsched : s'.sched = s.sched)
    (hpending : s'.pendingOp c = s.pendingOp c) (hcpu : s'.CpuOk c) : Coherent s' place := by
  apply h.thread hf (by rw [hsched]; exact h.placed) (fun _ _ _ => rfl) (fun _ _ _ => rfl) _ hcpu
  intro p hp
  have hplace : place p = .inl (.inl c) := hp.elim id id
  have hop := h.op p
  rw [hplace] at hop ⊢
  show s'.opType p = some (s'.pendingOp c)
  rw [hf.opType_eq, hpending]
  exact hop

/-- A thread that calls a handler. -/
theorem thread_call (h : Coherent s place) {handler : Handler}
    (hf : ThreadFrame s s' c) (hcall : s.sched.call c handler = some s'.sched)
    (hpending : s'.pendingOp c = s.pendingOp c) (hcpu : s'.CpuOk c) : Coherent s' place := by
  apply h.thread hf (h.placed.call hcall) (fun _ _ _ => rfl) (fun _ _ _ => rfl) _ hcpu
  intro p hp
  have hplace : place p = .inl (.inl c) := hp.elim id id
  have hop := h.op p
  rw [hplace] at hop ⊢
  show s'.opType p = some (s'.pendingOp c)
  rw [hf.opType_eq, hpending]
  exact hop

end Coherent

theorem ThreadFrame.phase_eq (hf : ThreadFrame s s' c) (hd : d ≠ c) : s'.phase d = s.phase d := by
  rw [Sim.phase, Sim.phase, hf.thread d hd, hf.data d hd]

/-- A step of a CPU thread that shows nothing. -/
theorem ThreadFrame.silent (hf : ThreadFrame s s' c) (hc : s'.phase c = s.phase c) :
    Observed s s' [] where
  phase := by
    intro d
    by_cases hd : d = c
    · rw [hd, hc]
      rfl
    · rw [hf.phase_eq hd]
      rfl
  simulated := by
    intro p type hmem
    simp at hmem

/-- A step that shows one event of the CPU. -/
theorem ThreadFrame.shows (hf : ThreadFrame s s' c) {e : Event ncpu nproc}
    (hother : ∀ d, d ≠ c → ∀ ph, Phase.advance d ph e = some ph)
    (hc : Phase.advance c (s.phase c) e = some (s'.phase c))
    (hsim : ∀ p type, .simulated p type ≠ e) : Observed s s' [e] where
  phase := by
    intro d
    rw [Phase.after, List.foldlM_cons]
    by_cases hd : d = c
    · rw [hd, hc]
      rfl
    · rw [hother d hd, hf.phase_eq hd]
      rfl
  simulated := by
    intro p type hmem
    exact absurd (List.mem_singleton.mp hmem) (hsim p type)

namespace Coherent

/-! ## The sections of `simulator_cpu_thread` -/

theorem cpuOkAt {t : CpuThread} (h : Coherent s place) (ht : s.thread c = t) :
    s.CpuOkAt c t := ht ▸ h.cpu c

theorem outside_pendingOp (hout : s.Outside c) {t : CpuThread}
    (ht : t = .top ∨ t = .returned ∨ t = .asleep ∨ t = .dispatch .idle ∨ ∃ st, t = .published st)
    (state : CpuState) : (s.sched.cpu c).opDue t state = .cpu := by
  rcases hout with ⟨hcpu, -⟩ | ⟨hcpu, -⟩
  · rw [hcpu]
    rcases ht with rfl | rfl | rfl | rfl | ⟨st, rfl⟩ <;> rfl
  · rw [hcpu]
    rfl

theorem ownsKnown_congr (hsched : s'.sched = s.sched)
    (hcur : (s'.simulator_cpu_data c).current = (s.simulator_cpu_data c).current)
    (h : s.OwnsKnown c) : s'.OwnsKnown c := by
  rw [Sim.OwnsKnown, hsched, hcur]
  exact h

theorem outside_congr (hsched : s'.sched = s.sched)
    (hcur : (s'.simulator_cpu_data c).current = (s.simulator_cpu_data c).current)
    (h : s.Outside c) : s'.Outside c := by
  rw [Sim.Outside, Sim.OwnsKnown, hsched, hcur]
  exact h

theorem step_top (h : Coherent s place) (hc : s.thread c = .top) :
    Coherent (s.topSection c).1 place ∧ Observed s (s.topSection c).1 (s.topSection c).2 := by
  have hout : s.Outside c := h.cpuOkAt hc
  have hpending : s.pendingOp c = .cpu := by
    rw [Sim.pendingOp, hc]
    exact outside_pendingOp hout (.inl rfl) _
  obtain ⟨hframe, hthread, hdata, hsched⟩ := signal_frame (s := s) (c := c) (by simp [hc])
  rw [Sim.topSection, hdata]
  cases hcur : (s.simulator_cpu_data c).current with
  | some p =>
    -- a process was scheduled
    let s₁ := ((s.signal c).setCpuState c .running).setThread c .asleep
    have hf : ThreadFrame s s₁ c := (hframe.setData _).setThread _
    have ht : s₁.thread c = .asleep := thread_setThread ..
    have hd : s₁.simulator_cpu_data c = { s.simulator_cpu_data c with state := .running } := by
      rw [← hdata]
      exact data_setData ..
    have hs₁ : s₁.sched = s.sched := hsched
    refine ⟨h.thread_stay hf hs₁ ?_ ?_, hf.shows ?_ ?_ (by simp)⟩
    · show (s₁.sched.cpu c).opDue (s₁.thread c) _ = _
      rw [hs₁, ht, hpending]
      exact outside_pendingOp hout (.inr (.inr (.inl rfl))) _
    · show s₁.CpuOkAt c (s₁.thread c)
      rw [ht]
      have howns : s.OwnsKnown c := hout.resolve_right (by simp [hcur])
      exact ⟨ownsKnown_congr hs₁ (by rw [hd]) howns, by rw [hd]⟩
    · intro d hd ph
      exact if_neg (Ne.symm hd)
    · show _ = some ((s₁.thread c).phase _)
      rw [Sim.phase, hc, ht]
      simp [Phase.advance, CpuThread.phase]
  | none =>
    let s₁ := ((s.signal c).setCpuState c .idle).setThread c (.dispatch .idle)
    have hf : ThreadFrame s s₁ c := (hframe.setData _).setThread _
    have ht : s₁.thread c = .dispatch .idle := thread_setThread ..
    have hd : s₁.simulator_cpu_data c = { s.simulator_cpu_data c with state := .idle } := by
      rw [← hdata]
      exact data_setData ..
    have hs₁ : s₁.sched = s.sched := hsched
    refine ⟨h.thread_stay hf hs₁ ?_ ?_, hf.silent ?_⟩
    · show (s₁.sched.cpu c).opDue (s₁.thread c) _ = _
      rw [hs₁, ht, hpending]
      exact outside_pendingOp hout (.inr (.inr (.inr (.inl rfl)))) _
    · show s₁.CpuOkAt c (s₁.thread c)
      rw [ht]
      refine .inr ⟨rfl, ?_, by rw [hd]; exact hcur⟩
      rcases hout with ⟨hcpu, hknown⟩ | ⟨hcpu, -⟩
      · obtain ⟨p, hp⟩ := (h.placed.current c).owned (by rw [hcpu]; trivial)
        rw [hcur, hp] at hknown
        simp at hknown
      · rw [hs₁]
        exact hcpu
    · rw [Sim.phase, Sim.phase, hc, ht]
      rfl

/-- The thread goes on and nothing else changes but a counter. -/
theorem step_move (h : Coherent s place) {t : CpuThread} (hf : ThreadFrame s s' c)
    (hsched : s'.sched = s.sched) (hdata : s'.simulator_cpu_data = s.simulator_cpu_data)
    (hpending : (s.sched.cpu c).opDue t (s.simulator_cpu_data c).state = s.pendingOp c)
    (hcpu : (s'.setThread c t).CpuOkAt c t)
    (hphase : t.phase (s.simulator_cpu_data c).state = s.phase c) :
    Coherent (s'.setThread c t) place ∧ Observed s (s'.setThread c t) [] := by
  have ht : (s'.setThread c t).thread c = t := thread_setThread ..
  have hd : (s'.setThread c t).simulator_cpu_data c = s.simulator_cpu_data c := by rw [← hdata]; rfl
  refine ⟨h.thread_stay (hf.setThread t) hsched ?_ ?_, (hf.setThread t).silent ?_⟩
  · show ((s'.setThread c t).sched.cpu c).opDue _ _ = _
    rw [ht, hd, show (s'.setThread c t).sched = s.sched from hsched]
    exact hpending
  · show Sim.CpuOkAt _ c ((s'.setThread c t).thread c)
    rw [ht]
    exact hcpu
  · rw [Sim.phase, ht, hd]
    exact hphase

/-- The thread reads the event that has been stored. -/
theorem step_signalled (h : Coherent s place) (hc : s.thread c = .signalled) :
    (s.simulator_cpu_data c).state ≠ .running ∧
      Coherent (s.setThread c (.dispatch (s.simulator_cpu_data c).state)) place ∧
      Observed s (s.setThread c (.dispatch (s.simulator_cpu_data c).state)) [] := by
  obtain ⟨howns, hevent, hbusy⟩ := h.cpuOkAt hc
  constructor
  · intro heq
    rw [heq] at hevent
    exact hevent
  · apply h.step_move (t := .dispatch _) (ThreadFrame.refl s c) rfl rfl _
      (.inl ⟨hevent, howns, hbusy⟩)
    · rw [Sim.phase, hc]
      cases hst : (s.simulator_cpu_data c).state <;> rw [hst] at hevent <;>
        first | rfl | exact hevent.elim
    · rw [Sim.pendingOp, hc, howns.1]
      rfl

/-- `processes_terminated++`. -/
theorem step_count (h : Coherent s place) (hc : s.thread c = .dispatch .terminate) (n : Nat) :
    Coherent ({ s with processes_terminated := n }.setThread c .counted) place ∧
      Observed s ({ s with processes_terminated := n }.setThread c .counted) [] := by
  rcases h.cpuOkAt hc with ⟨-, howns, hbusy⟩ | ⟨hne, -⟩
  · have hf : ThreadFrame s { s with processes_terminated := n } c :=
      ⟨fun _ _ => rfl, fun _ _ => rfl, Frame.refl .., .inl rfl, rfl, rfl, rfl, rfl⟩
    apply h.step_move (t := .counted) hf rfl rfl _ ⟨howns, hbusy⟩
    · rw [Sim.phase, hc]
      rfl
    · rw [Sim.pendingOp, hc, howns.1]
      rfl
  · simp at hne

/-- Where the handler of an event starts. -/
def entry : CpuState → Cpu nproc
  | .yield => .yield
  | .terminate => .terminate
  | .idle | .running | .preempt => .preempt

theorem call_entry {s : State ncpu nproc 1} {state : CpuState} (hevent : state.IsEvent)
    (hrun : s.cpu c = .running) :
    ∃ handler, s.call c handler = some (s.setCpu c (entry state)) := by
  cases state with
  | preempt => exact ⟨.preempt, by rw [State.call.eq_def, hrun]; rfl⟩
  | yield => exact ⟨.yield, by rw [State.call.eq_def, hrun]; rfl⟩
  | terminate => exact ⟨.terminate, by rw [State.call.eq_def, hrun]; rfl⟩
  | idle | running => exact hevent.elim

theorem opDue_entry (state : CpuState) (t : CpuThread) (state' : CpuState) :
    (entry state : Cpu nproc).opDue t state' = state.op := by
  cases state <;> rfl

/-- The handler of an event is called. -/
theorem step_callHandler (h : Coherent s place) {state : CpuState} (hevent : state.IsEvent)
    (howns : s.OwnsKnown c) (hbusy : s.Busy c) (hpending : s.pendingOp c = state.op)
    (hphase : s.phase c = .raised state) :
    Coherent (s.callHandler c state (entry state)).1 place ∧
      Observed s (s.callHandler c state (entry state)).1
        (s.callHandler c state (entry state)).2 := by
  let s₁ := (s.callHandler c state (entry state)).1
  have hf : ThreadFrame s s₁ c :=
    (((ThreadFrame.refl s c).setSched ((Frame.refl ..).setCpu _)).setWriters _).setThread _
  have ht : s₁.thread c = .student state := thread_setThread ..
  have hpc : s₁.sched.cpu c = entry state := cpu_setCpu_self ..
  obtain ⟨handler, hcall⟩ := call_entry hevent howns.1
  refine ⟨h.thread_call hf hcall ?_ ?_, hf.shows ?_ ?_ (by simp)⟩
  · show (s₁.sched.cpu c).opDue _ _ = _
    rw [hpc, hpending]
    exact opDue_entry ..
  · show s₁.CpuOkAt c (s₁.thread c)
    rw [ht]
    refine ⟨?_, .inl ⟨hevent, hbusy⟩⟩
    rw [hpc]
    cases state <;> trivial
  · intro d hd ph
    exact if_neg (Ne.symm hd)
  · show _ = some ((s₁.thread c).phase _)
    rw [hphase, ht]
    simp [Phase.advance, CpuThread.phase]

theorem step_dispatch_idle (h : Coherent s place) (hc : s.thread c = .dispatch .idle) :
    Coherent ({ s with sched := s.sched.setCpu c .idle }.setThread c (.student .idle)) place ∧
      Observed s ({ s with sched := s.sched.setCpu c .idle }.setThread c (.student .idle)) [] := by
  rcases h.cpuOkAt hc with ⟨hevent, -⟩ | ⟨-, hcpu, hnone⟩
  · exact hevent.elim
  · let s₁ := { s with sched := s.sched.setCpu c .idle }.setThread c (.student .idle)
    have hf : ThreadFrame s s₁ c :=
      ((ThreadFrame.refl s c).setSched ((Frame.refl ..).setCpu .idle)).setThread _
    have ht : s₁.thread c = .student .idle := thread_setThread ..
    have hpc : s₁.sched.cpu c = .idle := cpu_setCpu_self ..
    have hcall : s.sched.call c .idle = some s₁.sched := by
      rw [State.call.eq_def, hcpu]
      rfl
    refine ⟨h.thread_call hf hcall ?_ ?_, hf.silent ?_⟩
    · show (s₁.sched.cpu c).opDue _ _ = _
      rw [hpc, Sim.pendingOp, hcpu]
      rfl
    · show s₁.CpuOkAt c (s₁.thread c)
      rw [ht]
      refine ⟨?_, .inr ⟨rfl, ?_, hnone⟩⟩
      · rw [hpc]
        trivial
      · rw [hpc]
        exact id
    · rw [Sim.phase, Sim.phase, ht, hc]
      rfl

/-- The thread leaves `context_switch` or the lock of the writers. -/
theorem step_outside (h : Coherent s place) (hf : ThreadFrame s s' c)
    (hsched : s'.sched = s.sched) (hdata : s'.simulator_cpu_data = s.simulator_cpu_data)
    (hc : s.thread c = .returned ∨ ∃ st, s.thread c = .published st) {t : CpuThread}
    (ht : t = .top ∨ t = .returned) :
    Coherent (s'.setThread c t) place ∧ Observed s (s'.setThread c t) [] := by
  have hout : s.Outside c := by
    rcases hc with hc | ⟨st, hc⟩
    · exact h.cpuOkAt hc
    · exact h.cpuOkAt hc
  apply h.step_move hf hsched hdata
  · rw [Sim.pendingOp, outside_pendingOp hout (.inr (hc.imp_right fun h => .inr (.inr h)))]
    exact outside_pendingOp hout (ht.imp_right .inl) _
  · have hout' : (s'.setThread c t).Outside c :=
      outside_congr hsched (by rw [← hdata]; rfl) hout
    rcases ht with rfl | rfl <;> exact hout'
  · rw [Sim.phase]
    rcases ht with rfl | rfl <;> rcases hc with hc | ⟨st, hc⟩ <;> rw [hc] <;> rfl

/-! ## The handlers -/

/-- `context_switch` is called: the writer's lock is released. -/
theorem step_unlock (h : Coherent s place) {state : CpuState} {pcb : Option (Fin nproc)}
    (hc : s.thread c = .student state) (hpc : s.sched.cpu c = .contextSwitch pcb) (n : Int) :
    Coherent ({ s with writers := n }.setThread c (.unlocked state)) place ∧
      Observed s ({ s with writers := n }.setThread c (.unlocked state)) [] := by
  apply h.step_move (t := .unlocked state) ((ThreadFrame.refl s c).setWriters n) rfl rfl
  · rw [Sim.pendingOp, hpc]
    rfl
  · exact ⟨⟨pcb, hpc⟩, (h.cpuOkAt hc).2⟩
  · rw [Sim.phase, hc]
    rfl

/-- The section of `context_switch`. -/
theorem step_publish (h : Coherent s place) (cfg : Config) {state : CpuState}
    {pcb : Option (Fin nproc)} (hc : s.thread c = .unlocked state) (hpc : s.sched.cpu c = .contextSwitch pcb) :
    ∃ s₁, s.contextSwitch cfg c pcb = some s₁ ∧
      Coherent (s₁.setThread c (.published state)) place ∧
      Observed s (s₁.setThread c (.published state)) [] := by
  obtain ⟨sched, hstep, hspec⟩ : ∃ sched, s.sched.cpuStep cfg.scheduling_alg c = some sched ∧
      CpuStepSpec s.sched sched c place place := h.placed.step_contextSwitch hpc
  have hsched : sched = s.sched.setCpu c (if pcb.isSome then .running else .idling) := by
    rw [State.cpuStep, hpc] at hstep
    exact (Option.some_inj.mp hstep).symm
  refine ⟨_, by rw [Sim.contextSwitch, hstep]; rfl, ?_⟩
  let s₁ := ({ s with sched }.setData c { s.simulator_cpu_data c with
    current := pcb, preemption_timer := cfg.time_slice }).setThread c (.published state)
  have hf : ThreadFrame s s₁ c :=
    (((ThreadFrame.refl s c).setSched hspec.frame).setData _).setThread _
  have ht : s₁.thread c = .published state := thread_setThread ..
  have hcpu : s₁.sched.cpu c = if pcb.isSome then .running else .idling := by
    rw [show s₁.sched = sched from rfl, hsched, cpu_setCpu_self]
  have hcur : s.sched.current c = pcb := (h.placed.current c).published pcb hpc
  have hdata : (s₁.simulator_cpu_data c).current = pcb := by
    rw [show s₁.simulator_cpu_data c = _ from data_setData ..]
  have hout : s₁.Outside c := by
    cases pcb with
    | some p =>
      refine .inl ⟨hcpu, ?_⟩
      rw [hdata, ← hcur, show s₁.sched = sched from rfl, hsched]
      rfl
    | none => exact .inr ⟨hcpu, hdata⟩
  refine ⟨h.thread hf hspec.placed (fun _ _ _ => rfl) (fun _ _ _ => rfl) ?_ ?_, hf.silent ?_⟩
  · intro p hp
    have hplace : place p = .inl (.inl c) := hp.elim id id
    have hop := h.op p
    rw [hplace] at hop ⊢
    change s.opType p = some ((s.sched.cpu c).opDue _ _) at hop
    rw [hpc] at hop
    show s₁.opType p = some ((s₁.sched.cpu c).opDue (s₁.thread c) _)
    rw [outside_pendingOp hout (.inr (.inr (.inr (.inr ⟨state, ht⟩)))) _]
    exact hop
  · show s₁.CpuOkAt c (s₁.thread c)
    rw [ht]
    exact hout
  · show (s₁.thread c).phase _ = _
    rw [Sim.phase, ht, hc]
    rfl

end Coherent

/-- A handler goes on to its end without reading `current[]` again. -/
theorem cpuStep_inside {s s' : State ncpu nproc 1} {alg : Char}
    (hs : s.cpuStep alg c = some s') (hne : ∀ pcb, s.cpu c ≠ .contextSwitch pcb) :
    (s'.cpu c).Inside ∧ ¬ (s'.cpu c).Entering := by
  have hset : ∀ (s₀ : State ncpu nproc 1) {pc}, pc.Inside → ¬ pc.Entering →
      ((s₀.setCpu c pc).cpu c).Inside ∧ ¬ ((s₀.setCpu c pc).cpu c).Entering := by
    intro s₀ pc hinside hentering
    rw [cpu_setCpu_self]
    exact ⟨hinside, hentering⟩
  rw [State.cpuStep] at hs
  cases hpc : s.cpu c <;> rw [hpc] at hs <;> dsimp only at hs
  case idling | running | condWait => simp at hs
  case contextSwitch pcb => exact absurd hpc (hne pcb)
  case idle =>
    rw [← Option.some_inj.mp hs]
    split
    · exact hset s trivial id
    · exact hset s trivial id
  case setRunning pcb | setCurrent pcb =>
    rw [← Option.some_inj.mp hs]
    exact hset _ trivial id
  case popFromQueue =>
    obtain ⟨⟨node, q⟩, -, rfl⟩ := Option.map_eq_some_iff.mp hs
    cases node with
    | none => exact hset _ trivial id
    | some pcb => exact hset _ trivial id
  case preempt | yield | terminate | pushToQueue pcb =>
    obtain ⟨x, -, rfl⟩ := Option.map_eq_some_iff.mp hs
    exact hset _ trivial id

theorem opDue_of_not_entering {pc : Cpu nproc} (hinside : pc.Inside) (hentering : ¬ pc.Entering)
    (t : CpuThread) (state : CpuState) : pc.opDue t state = .cpu := by
  cases pc <;> first | rfl | exact hinside.elim | exact absurd trivial hentering

namespace Coherent

/-- What `CpuMoves` says of the other processes. -/
theorem cpuMoves_same {s : State ncpu nproc 1} {place' : Fin nproc → Thread ncpu 1 ⊕ Rest}
    (hm : CpuMoves s c place place') (p : Fin nproc) (hp : place p ≠ .inl (.inl c))
    (hp' : place p ≠ .inr .queued ∨ place' p ≠ .inl (.inl c)) : place' p = place p := by
  cases hm with
  | stay => rfl
  | push q _ hq | yield q _ _ hq | terminate q _ _ hq =>
    refine Function.update_of_ne ?_ ..
    intro heq
    exact hp (heq ▸ hq)
  | pop q _ hq =>
    refine Function.update_of_ne ?_ ..
    intro heq
    subst heq
    rcases hp' with hp' | hp'
    · exact hp' hq
    · exact hp' (Function.update_self ..)

theorem place_inj (h : Coherent s place) {p q : Fin nproc} {t : Thread ncpu 1}
    (hp : place p = .inl t) (hq : place q = .inl t) : p = q :=
  Option.some_inj.mp (((h.placed.keeps t p).mpr hp).symm.trans ((h.placed.keeps t q).mpr hq))

/-- The operation of the process that a handler has in hand or moves. -/
theorem student_op (h : Coherent s place) (hinside : (s.sched.cpu c).Inside)
    {sched : State ncpu nproc 1} {place' : Fin nproc → Thread ncpu 1 ⊕ Rest}
    (hdue : Sim.pendingOp { s with sched } c = .cpu) (hm : CpuMoves s.sched c place place')
    {p : Fin nproc} (hp : place p = .inl (.inl c) ∨ place' p = .inl (.inl c)) :
    Sim.OpFits { s with sched } p (place' p) := by
  have hop := h.op p
  have hhand : place p = .inl (.inl c) → s.opType p = some (s.pendingOp c) := by
    intro hplace
    rw [hplace] at hop
    exact hop
  -- a process put down is the one in hand
  have hdown : ∀ q l, place q = .inl (.inl c) → place' = Function.update place q (.inr l) →
      p = q := by
    intro q l hq hupdate
    rcases hp with hp | hp
    · exact h.place_inj hp hq
    · by_contra hne
      rw [hupdate, Function.update_of_ne hne] at hp
      exact hne (h.place_inj hp hq)
  cases hm with
  | stay hny hnt =>
    have hplace : place p = .inl (.inl c) := hp.elim id id
    have hpending : s.pendingOp c = .cpu := by
      rw [Sim.pendingOp]
      cases hpc : s.sched.cpu c <;> rw [hpc] at hinside <;>
        first | rfl | exact absurd hpc hny | exact absurd hpc hnt | exact hinside.elim
    rw [hplace]
    exact (hhand hplace).trans (by rw [hpending, hdue])
  | push q hpc hq =>
    obtain rfl := hdown q _ hq rfl
    rw [Function.update_self]
    exact (hhand hq).trans (by rw [Sim.pendingOp, hpc]; rfl)
  | yield q hpc hcur hq =>
    obtain rfl := hdown q _ hq rfl
    have hsup : s.supervisor ≠ .wake p .io := by
      intro hwake
      have hok := h.supervisor
      unfold Sim.SupervisorOk at hok
      rw [hwake] at hok
      simp [hq] at hok
    rw [Function.update_self]
    refine (hhand hq).trans ?_
    show _ = some (if s.supervisor = .wake p .io then OpType.cpu else OpType.io)
    rw [if_neg hsup, Sim.pendingOp, hpc]
    rfl
  | terminate q hpc hcur hq =>
    obtain rfl := hdown q _ hq rfl
    rw [Function.update_self]
    exact (hhand hq).trans (by rw [Sim.pendingOp, hpc]; rfl)
  | pop q hpc hq =>
    have hnone : s.sched.hand (.inl c) = none := hand_inl hpc
    have hpq : p = q := by
      by_contra hne
      have hplace : place p = .inl (.inl c) := by
        rcases hp with hp | hp
        · exact hp
        · rwa [Function.update_of_ne hne] at hp
      have hsome := (h.placed.keeps (.inl c) p).mpr hplace
      simp [hnone] at hsome
    subst hpq
    rw [hq] at hop
    rw [Function.update_self]
    exact Eq.trans hop (by rw [hdue])

/-- A step inside a handler. -/
theorem step_student (h : Coherent s place) {state : CpuState} (hc : s.thread c = .student state)
    (hne : ∀ pcb, s.sched.cpu c ≠ .contextSwitch pcb) {sched : State ncpu nproc 1}
    (hs : s.sched.cpuStep cfg.scheduling_alg c = some sched) :
    (∃ place', Coherent { s with sched } place') ∧ Observed s { s with sched } [] := by
  obtain ⟨place', hspec⟩ := h.placed.cpuStep_spec hs
  obtain ⟨hinside, hentering⟩ := cpuStep_inside hs hne
  obtain ⟨hinside₀, hhandling⟩ := h.cpuOkAt hc
  have hf : ThreadFrame s { s with sched } c := (ThreadFrame.refl s c).setSched hspec.frame
  have hdue : Sim.pendingOp { s with sched } c = .cpu :=
    opDue_of_not_entering hinside hentering _ _
  have hmoves := hspec.moves
  refine ⟨⟨place', ?_⟩, hf.silent rfl⟩
  apply h.thread hf hspec.placed
  · intro p hp hq
    exact cpuMoves_same hmoves p hp (.inl hq)
  · intro p hq hp'
    exact cpuMoves_same hmoves p (by simp [hq]) (.inr hp')
  · intro p hp
    exact h.student_op hinside₀ hdue hmoves hp
  · show Sim.CpuOkAt { s with sched } c (s.thread c)
    rw [hc]
    refine ⟨hinside, ?_⟩
    rcases hhandling with hevent | ⟨hidle, -, hnone⟩
    · exact .inl hevent
    · exact .inr ⟨hidle, hentering, hnone⟩

/-- What a step returns is what the step lemmas speak of. -/
theorem kept {es : List (Event ncpu nproc)} {r : Sim ncpu nproc × List (Event ncpu nproc)}
    (hr : some r = some (s', es)) (hspec : Coherent r.1 place ∧ Observed s r.1 r.2) :
    (∃ place', Coherent s' place') ∧ Observed s s' es := by
  obtain rfl := Option.some_inj.mp hr
  exact ⟨⟨place, hspec.1⟩, hspec.2⟩

/-- Every step of a CPU thread keeps the invariant and shows the next event of its CPU. -/
theorem threadStep (h : Coherent s place) {es : List (Event ncpu nproc)}
    (hs : s.threadStep cfg c = some (s', es)) :
    (∃ place', Coherent s' place') ∧ Observed s s' es := by
  rw [Sim.threadStep] at hs
  cases hc : s.thread c <;> rw [hc] at hs <;> dsimp only at hs
  case top =>
    split at hs
    · simp at hs
    · exact kept hs (h.step_top hc)
  case asleep => simp at hs
  case signalled =>
    obtain ⟨hne, hspec⟩ := h.step_signalled hc
    split at hs
    · simp at hs
    · exact kept hs hspec
  case dispatch state =>
    cases state with
    | idle => exact kept hs (h.step_dispatch_idle hc)
    | terminate =>
      dsimp only at hs
      split at hs
      · simp at hs
      · exact kept hs (h.step_count hc _)
    | running =>
      rcases h.cpuOkAt hc with ⟨hevent, -⟩ | ⟨hidle, -⟩
      · exact hevent.elim
      · simp at hidle
    | preempt | yield =>
      rcases h.cpuOkAt hc with ⟨hevent, howns, hbusy⟩ | ⟨hidle, -⟩
      · dsimp only at hs
        split at hs
        · simp at hs
        · refine kept hs (h.step_callHandler hevent howns hbusy ?_ ?_)
          · rw [Sim.pendingOp, howns.1, hc]
            rfl
          · rw [Sim.phase, hc]
            rfl
      · simp at hidle
  case counted =>
    obtain ⟨howns, hbusy⟩ := h.cpuOkAt hc
    split at hs
    · simp at hs
    · refine kept hs (h.step_callHandler trivial howns hbusy ?_ ?_)
      · rw [Sim.pendingOp, howns.1, hc]
        rfl
      · rw [Sim.phase, hc]
        rfl
  case student state =>
    split at hs
    · rename_i pcb hpc
      split at hs
      · simp at hs
      · exact kept hs (h.step_unlock hc hpc _)
    · rename_i hne
      obtain ⟨sched, hstep, heq⟩ := Option.map_eq_some_iff.mp hs
      obtain ⟨rfl, rfl⟩ := Prod.mk.inj heq
      exact h.step_student hc hne hstep
  case unlocked state =>
    obtain ⟨⟨pcb, hpc⟩, -⟩ := h.cpuOkAt hc
    rw [hpc] at hs
    dsimp only at hs
    split at hs
    · simp at hs
    · obtain ⟨s₁, hstep, hspec⟩ := h.step_publish cfg hc hpc
      rw [hstep] at hs
      exact kept hs hspec
  case published state =>
    split at hs
    · simp at hs
    · refine kept hs (h.step_outside ((ThreadFrame.refl s c).setWriters (s.writers + 1)) rfl rfl
        (.inr ⟨state, hc⟩) ?_)
      split
      · exact .inl rfl
      · exact .inr rfl
  case returned =>
    split at hs
    · simp at hs
    · exact kept hs (h.step_outside ((ThreadFrame.refl s c).setWriters (s.writers - 1)) rfl rfl
        (.inl hc) (.inl rfl))

end Coherent

end ECE3056.Scheduling
