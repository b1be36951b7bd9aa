import ECE3056.Scheduling.Events
import ECE3056.Scheduling.IdleWait
import ECE3056.Scheduling.Service

/-!
# What a turn can do

From a coherent state, a turn of a thread is one of a few moves, each given with its
guard and the state it leaves. What holds over runs is derived from these moves; the
definitions of the steps are not opened again. The first such result is that the
simulator keeps the contract of the scheduler.
-/

namespace ECE3056.Scheduling

open ECE3056.Custody

variable {ncpu nproc : Nat} {cfg : Config}
variable {s s' : Sim ncpu nproc} {place : Fin nproc → Thread ncpu 1 ⊕ Rest} {c : Fin ncpu}
variable {es : List (Event ncpu nproc)}

/-! ## The CPU threads -/

/-- The thread is about to call the handler of an event. -/
def CpuThread.Calls (state : CpuState) : CpuThread → Prop
  | dispatch state' => state' = state ∧ state.IsEvent ∧ state ≠ .terminate
  | counted => state = .terminate
  | _ => False

/-- The section of `context_switch`, in the scheduler and in the simulator. -/
def Sim.publish (cfg : Config) (s : Sim ncpu nproc) (c : Fin ncpu) (pcb : Option (Fin nproc)) :
    Sim ncpu nproc :=
  { s with sched := s.sched.setCpu c (if pcb.isSome then .running else .idling) }.setData c
    { s.simulator_cpu_data c with current := pcb, preemption_timer := cfg.time_slice }

/-- The moves of a CPU thread. -/
inductive ThreadTurn (cfg : Config) (s : Sim ncpu nproc) (c : Fin ncpu) : Sim ncpu nproc → Prop
  /-- the section at the top of the loop -/
  | idle : s.thread c = .top → s.supervisor.holdsMutex = false →
      (s.simulator_cpu_data c).current = none →
      ThreadTurn cfg s c (((s.signal c).setCpuState c .idle).setThread c (.dispatch .idle))
  | sleep : s.thread c = .top → s.supervisor.holdsMutex = false →
      (s.simulator_cpu_data c).current.isSome →
      ThreadTurn cfg s c (((s.signal c).setCpuState c .running).setThread c .asleep)
  | read : s.thread c = .signalled → s.supervisor.holdsMutex = false →
      (s.simulator_cpu_data c).state.IsEvent →
      ThreadTurn cfg s c (s.setThread c (.dispatch (s.simulator_cpu_data c).state))
  | count : s.thread c = .dispatch .terminate → s.supervisor.holdsMutex = false →
      ThreadTurn cfg s c
        ({ s with processes_terminated := s.processes_terminated + 1 }.setThread c .counted)
  | callIdle : s.thread c = .dispatch .idle →
      ThreadTurn cfg s c
        ({ s with sched := s.sched.setCpu c .idle }.setThread c (.student .idle))
  | call (state) : (s.thread c).Calls state → s.supervisor ≠ .reading →
      ThreadTurn cfg s c (s.callHandler c state (Coherent.entry state)).1
  /-- inside the scheduler -/
  | inside {state sched} : s.thread c = .student state →
      (∀ pcb, s.sched.cpu c ≠ .contextSwitch pcb) →
      s.sched.cpuStep cfg.scheduling_alg c = some sched → ThreadTurn cfg s c { s with sched }
  /-- `context_switch` -/
  | unlock {state pcb} : s.thread c = .student state → s.sched.cpu c = .contextSwitch pcb →
      s.supervisor ≠ .reading →
      ThreadTurn cfg s c ({ s with writers := s.writers - 1 }.setThread c (.unlocked state))
  | publish {state pcb} : s.thread c = .unlocked state → s.sched.cpu c = .contextSwitch pcb →
      s.supervisor.holdsMutex = false →
      ThreadTurn cfg s c ((s.publish cfg c pcb).setThread c (.published state))
  | relock {state} : s.thread c = .published state → s.supervisor ≠ .reading →
      ThreadTurn cfg s c ({ s with writers := s.writers + 1 }.setThread c
        (if state = CpuState.idle then .top else .returned))
  | back : s.thread c = .returned → s.supervisor ≠ .reading →
      ThreadTurn cfg s c ({ s with writers := s.writers - 1 }.setThread c .top)

theorem contextSwitch_eq {pcb : Option (Fin nproc)} (hpc : s.sched.cpu c = .contextSwitch pcb) :
    s.contextSwitch cfg c pcb = some (s.publish cfg c pcb) := by
  rw [Sim.contextSwitch, State.cpuStep, hpc]
  rfl

namespace Coherent

/-- Every step of a CPU thread is one of the moves. -/
theorem threadTurn (h : Coherent s place) (hs : s.threadStep cfg c = some (s', es)) :
    ThreadTurn cfg s c s' := by
  rw [Sim.threadStep] at hs
  cases hc : s.thread c <;> rw [hc] at hs <;> dsimp only at hs
  case top =>
    split at hs
    · simp at hs
    · rename_i hfree
      obtain rfl : (s.topSection c).1 = s' := congrArg Prod.fst (Option.some_inj.mp hs)
      have hdata := (signal_frame (s := s) (c := c) (by simp [hc])).2.2.1
      rw [Sim.topSection, hdata]
      cases hcur : (s.simulator_cpu_data c).current with
      | none => exact .idle hc (by simpa using hfree) hcur
      | some p => exact .sleep hc (by simpa using hfree) (by rw [hcur]; rfl)
  case asleep => simp at hs
  case signalled =>
    obtain ⟨-, hevent, -⟩ := h.cpuOkAt hc
    obtain ⟨hne, -⟩ := h.step_signalled hc
    split at hs
    · simp at hs
    · rename_i hfree
      obtain ⟨rfl, -⟩ := Prod.mk.inj (Option.some_inj.mp hs)
      exact .read hc (by simpa using hfree) hevent
  case dispatch state =>
    cases state with
    | idle =>
      obtain ⟨rfl, -⟩ := Prod.mk.inj (Option.some_inj.mp hs)
      exact .callIdle hc
    | terminate =>
      dsimp only at hs
      split at hs
      · simp at hs
      · rename_i hfree
        obtain ⟨rfl, -⟩ := Prod.mk.inj (Option.some_inj.mp hs)
        exact .count hc (by simpa using hfree)
    | running =>
      rcases h.cpuOkAt hc with ⟨hevent, -⟩ | ⟨hidle, -⟩
      · exact hevent.elim
      · simp at hidle
    | preempt =>
      dsimp only at hs
      split at hs
      · simp at hs
      · rename_i hread
        obtain ⟨rfl, -⟩ := Prod.mk.inj (Option.some_inj.mp hs)
        refine .call .preempt ?_ hread
        rw [hc]
        exact ⟨rfl, trivial, by simp⟩
    | yield =>
      dsimp only at hs
      split at hs
      · simp at hs
      · rename_i hread
        obtain ⟨rfl, -⟩ := Prod.mk.inj (Option.some_inj.mp hs)
        refine .call .yield ?_ hread
        rw [hc]
        exact ⟨rfl, trivial, by simp⟩
  case counted =>
    split at hs
    · simp at hs
    · rename_i hread
      obtain ⟨rfl, -⟩ := Prod.mk.inj (Option.some_inj.mp hs)
      refine .call .terminate ?_ hread
      rw [hc]
      rfl
  case student state =>
    split at hs
    · rename_i pcb hpc
      split at hs
      · simp at hs
      · rename_i hread
        obtain ⟨rfl, -⟩ := Prod.mk.inj (Option.some_inj.mp hs)
        exact .unlock hc hpc hread
    · rename_i hne
      obtain ⟨sched, hstep, heq⟩ := Option.map_eq_some_iff.mp hs
      obtain ⟨rfl, -⟩ := Prod.mk.inj heq
      exact .inside hc hne hstep
  case unlocked state =>
    obtain ⟨⟨pcb, hpc⟩, -⟩ := h.cpuOkAt hc
    rw [hpc] at hs
    dsimp only at hs
    split at hs
    · simp at hs
    · rename_i hfree
      rw [contextSwitch_eq hpc] at hs
      obtain ⟨rfl, -⟩ := Prod.mk.inj (Option.some_inj.mp hs)
      exact .publish hc hpc (by simpa using hfree)
  case published state =>
    split at hs
    · simp at hs
    · rename_i hread
      obtain ⟨rfl, -⟩ := Prod.mk.inj (Option.some_inj.mp hs)
      exact .relock hc hread
  case returned =>
    split at hs
    · simp at hs
    · rename_i hread
      obtain ⟨rfl, -⟩ := Prod.mk.inj (Option.some_inj.mp hs)
      exact .back hc hread

end Coherent

/-- What each move of a thread leaves alone. -/
theorem ThreadTurn.frame (h : Coherent s place) (hs : ThreadTurn cfg s c s') :
    ThreadFrame s s' c := by
  have hrefl := ThreadFrame.refl s c
  cases hs with
  | idle hc | sleep hc => exact ((signal_frame (by simp [hc])).1.setData _).setThread _
  | read => exact hrefl.setThread _
  | count =>
    have hf : ThreadFrame s { s with processes_terminated := s.processes_terminated + 1 } c :=
      ⟨fun _ _ => rfl, fun _ _ => rfl, Frame.refl .., .inl rfl, rfl, rfl, rfl, rfl⟩
    exact hf.setThread _
  | callIdle | call => exact ((hrefl.setSched ((Frame.refl ..).setCpu _)).setWriters _).setThread _
  | inside _ _ hstep =>
    obtain ⟨place', hspec⟩ := h.placed.cpuStep_spec hstep
    exact hrefl.setSched hspec.frame
  | unlock | relock | back => exact (hrefl.setWriters _).setThread _
  | publish => exact ((hrefl.setSched ((Frame.refl ..).setCpu _)).setData _).setThread _

/-! ## The supervisor -/

/-- The state of the scheduler after the simulator has written a `time_remaining`. -/
def State.setTime {ncaller : Nat} (s : State ncpu nproc ncaller) (pcb : Fin nproc)
    (time : UInt32) : State ncpu nproc ncaller :=
  { s with time_remaining := Function.update s.time_remaining pcb time }

/-- A tick of the process on a CPU, and the event that it stores there. -/
structure TickTurn (s s' : Sim ncpu nproc) (c : Fin ncpu) (p : Fin nproc)
    (event : Option CpuState) : Prop where
  account : s.account.Tick p s'.account event
  sched : ∃ time, s'.sched = s.sched.setTime p time
  supervisor : s'.supervisor = if event.isSome then .wait c .tick else .cpus (c + 1)
  thread : s'.thread = if event.isSome then Function.update s.thread c .signalled else s.thread
  asleep : event.isSome → s.thread c = .asleep
  current : ∀ d, (s'.simulator_cpu_data d).current = (s.simulator_cpu_data d).current
  state : ∀ d, (s'.simulator_cpu_data d).state =
    if d = c then event.getD (s.simulator_cpu_data d).state else (s.simulator_cpu_data d).state
  writers : s'.writers = s.writers
  time : s'.simulator_time = s.simulator_time
  created : s'.processes_created = s.processes_created
  terminated : s'.processes_terminated = s.processes_terminated

/-- The moves of the supervisor. -/
inductive SupervisorTurn (cfg : Config) (s : Sim ncpu nproc) : Sim ncpu nproc → Prop
  | exit : s.supervisor = .lock → nproc ≤ s.processes_terminated →
      SupervisorTurn cfg s (s.setSupervisor .exited)
  | start : s.supervisor = .lock → s.processes_terminated < nproc →
      SupervisorTurn cfg s (s.setSupervisor .gantt)
  | read : s.supervisor = .gantt → s.writers ≤ 0 → SupervisorTurn cfg s (s.setSupervisor .reading)
  | simulate : s.supervisor = .reading → SupervisorTurn cfg s (s.setSupervisor (.cpus 0))
  | skip {c : Fin ncpu} : s.supervisor = .cpus c → (s.simulator_cpu_data c).current = none →
      SupervisorTurn cfg s (s.setSupervisor (.cpus (c + 1)))
  | tick {c : Fin ncpu} {p : Fin nproc} {event : Option CpuState} {s' : Sim ncpu nproc} :
      s.supervisor = .cpus c → (s.simulator_cpu_data c).current = some p →
      TickTurn s s' c p event → SupervisorTurn cfg s s'
  | simulated {n} : s.supervisor = .cpus n → ncpu ≤ n → SupervisorTurn cfg s (s.setSupervisor .io)
  | resume {c : Fin ncpu} : s.supervisor = .resume c .tick →
      SupervisorTurn cfg s (s.setSupervisor (.cpus (c + 1)))
  /-- `simulate_io` -/
  | noRequest : s.supervisor = .io → s.io_queue = [] →
      SupervisorTurn cfg s (s.setSupervisor .creat)
  | request {p time rest} : s.supervisor = .io → s.io_queue = (p, time) :: rest → 0 < time →
      SupervisorTurn cfg s ({ s with io_queue := (p, time - 1) :: rest }.setSupervisor .creat)
  | complete {p rest op} : s.supervisor = .io → s.io_queue = (p, 0) :: rest →
      (s.ops p)[s.pc p + 1]? = some op →
      SupervisorTurn cfg s
        ({ (s.incPc p).setTime p (op.time + 1) with io_queue := rest }.setSupervisor (.wake p .io))
  /-- `simulate_creat` -/
  | creat (h : s.processes_created < nproc) : s.supervisor = .creat → s.simulator_time % 10 = 0 →
      SupervisorTurn cfg s (s.setSupervisor (.wake ⟨s.processes_created, h⟩ .creat))
  | noCreat : s.supervisor = .creat →
      ¬ (s.simulator_time % 10 = 0 ∧ s.processes_created < nproc) →
      SupervisorTurn cfg s (s.setSupervisor .done)
  | done : s.supervisor = .done →
      SupervisorTurn cfg s
        ({ s with simulator_time := s.simulator_time + 1 }.setSupervisor .lock)
  /-- `wake_up` -/
  | wake {p back} : s.supervisor = .wake p back →
      SupervisorTurn cfg s
        ({ s with
          writers := s.writers + 1
          sched := s.sched.setCaller 0 (.wakeUp p) }.setSupervisor (.waking back))
  | inside {back sched} : s.supervisor = .waking back →
      s.sched.callerStep cfg.scheduling_alg 0 = some sched → SupervisorTurn cfg s { s with sched }
  | woken {back} : s.supervisor = .waking back → s.sched.caller 0 = .ret →
      SupervisorTurn cfg s ({ s with writers := s.writers - 1 }.setSupervisor (.woken back))
  | wokenIo : s.supervisor = .woken .io → SupervisorTurn cfg s (s.setSupervisor .creat)
  | wokenCreat : s.supervisor = .woken .creat →
      SupervisorTurn cfg s
        ({ s with processes_created := s.processes_created + 1 }.setSupervisor .done)

/-- A tick has been charged to a process; no event is stored yet. -/
structure Charged (s s₁ : Sim ncpu nproc) (p : Fin nproc) : Prop where
  sched : ∃ time, s₁.sched = s.sched.setTime p time
  thread : s₁.thread = s.thread
  supervisor : s₁.supervisor = s.supervisor
  current : ∀ d, (s₁.simulator_cpu_data d).current = (s.simulator_cpu_data d).current
  state : ∀ d, (s₁.simulator_cpu_data d).state = (s.simulator_cpu_data d).state
  writers : s₁.writers = s.writers
  time : s₁.simulator_time = s.simulator_time
  created : s₁.processes_created = s.processes_created
  terminated : s₁.processes_terminated = s.processes_terminated

namespace Charged

variable {s₁ : Sim ncpu nproc} {p : Fin nproc}

/-- `simulate_cpus` goes on to the next CPU. -/
theorem next (h : Charged s s₁ p) (htick : s.account.Tick p s₁.account none) :
    TickTurn s (s₁.setSupervisor (.cpus (c + 1))) c p none where
  account := htick
  sched := h.sched
  supervisor := rfl
  thread := h.thread
  asleep := by simp
  current := h.current
  state := by
    intro d
    rw [Option.getD_none, ite_self]
    exact h.state d
  writers := h.writers
  time := h.time
  created := h.created
  terminated := h.terminated

/-- The event is stored for a CPU whose thread waits for one. -/
theorem raise (h : Charged s s₁ p) {v : CpuState} (htick : s.account.Tick p s₁.account (some v))
    {n : Nat} (hsup : s.supervisor = .cpus n) (hasleep : s.thread c = .asleep) :
    TickTurn s (s₁.raise c v .tick) c p (some v) := by
  have heq : s₁.raise c v .tick =
      ((s₁.setCpuState c v).setThread c .signalled).setSupervisor (.wait c .tick) :=
    Ticked.raise_eq (h.supervisor.trans hsup) ((congrFun h.thread c).trans hasleep)
  constructor
  case account =>
    rw [account_raise]
    exact htick
  case asleep => exact fun _ => hasleep
  all_goals rw [heq]
  case sched => exact h.sched
  case supervisor => rfl
  case thread =>
    show Function.update s₁.thread c .signalled = _
    rw [h.thread]
    rfl
  case current =>
    intro d
    show (Function.update s₁.simulator_cpu_data c _ d).current = _
    by_cases hd : d = c
    · rw [hd, Function.update_self]
      exact h.current c
    · rw [Function.update_of_ne hd]
      exact h.current d
  case state =>
    intro d
    show (Function.update s₁.simulator_cpu_data c _ d).state = _
    by_cases hd : d = c
    · rw [hd, Function.update_self, if_pos rfl]
      rfl
    · rw [Function.update_of_ne hd, if_neg hd]
      exact h.state d
  case writers => exact h.writers
  case time => exact h.time
  case created => exact h.created
  case terminated => exact h.terminated

/-- A burst has counted down. -/
theorem countDown (s : Sim ncpu nproc) (c : Fin ncpu) (p : Fin nproc) (op : Op) (time : UInt32)
    (timer : Int) : Charged s (((s.setOp p op).setTime p time).setData c
      { s.simulator_cpu_data c with preemption_timer := timer }) p := by
  have hdata : ∀ d, (Function.update s.simulator_cpu_data c
      { s.simulator_cpu_data c with preemption_timer := timer } d).current =
        (s.simulator_cpu_data d).current ∧
      (Function.update s.simulator_cpu_data c
        { s.simulator_cpu_data c with preemption_timer := timer } d).state =
        (s.simulator_cpu_data d).state := by
    intro d
    by_cases hd : d = c
    · rw [hd, Function.update_self]
      exact ⟨rfl, rfl⟩
    · rw [Function.update_of_ne hd]
      exact ⟨rfl, rfl⟩
  exact ⟨⟨time, rfl⟩, rfl, rfl, fun d => (hdata d).1, fun d => (hdata d).2, rfl, rfl, rfl, rfl⟩

/-- A burst has been left. -/
theorem advance (s : Sim ncpu nproc) (p : Fin nproc) (time : UInt32)
    (queue : List (Fin nproc × UInt32)) :
    Charged s { (s.incPc p).setTime p time with io_queue := queue } p :=
  ⟨⟨time, rfl⟩, rfl, rfl, fun _ => rfl, fun _ => rfl, rfl, rfl, rfl, rfl⟩

end Charged

namespace Coherent

variable {p : Fin nproc}

/-- A calm tick is one of the moves. -/
theorem tickTurn (h : Coherent s place) (hsup : s.supervisor = .cpus c)
    (hcur : (s.simulator_cpu_data c).current = some p) (hcalm : s.calm .supervisor = true)
    (hs : s.simulateProcess c p = some (s', es)) : TickTurn s s' c p (storedEvent es) := by
  obtain ⟨hthread, -, hcpu⟩ := h.tick_owns hsup hcur
  have hasleep : s.raises c = true → s.thread c = .asleep := by
    intro hr
    refine hthread.resolve_right fun hgap => ?_
    simp [Sim.calm, hsup, c.isLt, hr, hgap] at hcalm
  have htick := (simulateProcess_tick hs).1
  obtain ⟨time, hop⟩ := op_eq_some hcpu
  rw [Sim.simulateProcess, hop, Option.bind_eq_bind, Option.bind_some] at hs
  dsimp only at hs
  by_cases htime : time > 0
  · rw [if_pos htime] at hs
    split at hs
    · rename_i htimer
      have hr : s.raises c = true := by
        rw [Sim.raises, hcur]
        dsimp only
        rw [hop]
        dsimp only
        rw [if_pos htime, beq_iff_eq]
        omega
      obtain ⟨rfl, rfl⟩ := Prod.mk.inj (Option.some_inj.mp hs)
      rw [account_raise] at htick
      exact (Charged.countDown s c p _ _ _).raise htick hsup (hasleep hr)
    · obtain ⟨rfl, rfl⟩ := Prod.mk.inj (Option.some_inj.mp hs)
      exact (Charged.countDown s c p _ _ _).next htick
  · rw [if_neg htime] at hs
    obtain ⟨op, hop', hs⟩ := Option.bind_eq_some_iff.mp hs
    have hr : op.type ≠ .cpu → s.raises c = true := by
      intro hne
      rw [Sim.raises, hcur]
      dsimp only
      rw [hop]
      dsimp only
      rw [if_neg htime, hop']
      simpa using hne
    have hcharged := Charged.advance s p (op.time + 1)
    cases htype : op.type <;> rw [htype] at hs hr <;>
      obtain ⟨rfl, rfl⟩ := Prod.mk.inj (Option.some_inj.mp hs)
    case cpu => exact (hcharged s.io_queue).next htick
    case io =>
      rw [account_raise] at htick
      exact (hcharged _).raise htick hsup (hasleep (hr (by simp)))
    case terminate =>
      rw [account_raise] at htick
      exact (hcharged s.io_queue).raise htick hsup (hasleep (hr (by simp)))

/-- Every calm step of the supervisor is one of the moves. -/
theorem supervisorTurn (h : Coherent s place) (hcalm : s.calm .supervisor = true)
    (hs : s.supervisorStep cfg = some (s', es)) : SupervisorTurn cfg s s' := by
  have hok := h.supervisor
  unfold Sim.SupervisorOk at hok
  rw [Sim.supervisorStep] at hs
  cases hsup : s.supervisor <;> rw [hsup] at hs hok
  case wait | exited => simp at hs
  all_goals try dsimp only at hs
  case lock =>
    obtain ⟨rfl, -⟩ := Prod.mk.inj (Option.some_inj.mp hs)
    split
    · rename_i hend
      exact .exit hsup hend
    · rename_i hend
      exact .start hsup (Nat.lt_of_not_le hend)
  case gantt =>
    split at hs
    · simp at hs
    · rename_i hw
      obtain ⟨rfl, -⟩ := Prod.mk.inj (Option.some_inj.mp hs)
      exact .read hsup (by omega)
  case reading =>
    obtain ⟨rfl, -⟩ := Prod.mk.inj (Option.some_inj.mp hs)
    exact .simulate hsup
  case cpus n =>
    split at hs
    · rename_i hn
      have hsup' : s.supervisor = .cpus (⟨n, hn⟩ : Fin ncpu).val := hsup
      split at hs
      · rename_i p hcur
        exact .tick hsup' hcur (h.tickTurn hsup' hcur hcalm hs)
      · rename_i hcur
        obtain ⟨rfl, -⟩ := Prod.mk.inj (Option.some_inj.mp hs)
        exact .skip hsup' hcur
    · rename_i hn
      obtain ⟨rfl, -⟩ := Prod.mk.inj (Option.some_inj.mp hs)
      exact .simulated hsup (Nat.le_of_not_lt hn)
  case resume c k =>
    cases k with
    | tick =>
      obtain ⟨rfl, -⟩ := Prod.mk.inj (Option.some_inj.mp hs)
      exact .resume hsup
    | force back => exact hok.elim
  case io =>
    obtain ⟨s₁, hio, heq⟩ := Option.map_eq_some_iff.mp hs
    obtain ⟨rfl, -⟩ := Prod.mk.inj heq
    rw [Sim.simulateIo] at hio
    split at hio
    · rename_i hnil
      obtain rfl := Option.some_inj.mp hio
      exact .noRequest hsup hnil
    · rename_i p time rest hcons
      split at hio
      · rename_i htime
        obtain rfl := UInt32.le_zero_iff.mp htime
        obtain ⟨op, hop, hio⟩ := Option.bind_eq_some_iff.mp hio
        obtain rfl := Option.some_inj.mp hio
        exact .complete hsup hcons ((op_incPc s p).symm.trans hop)
      · rename_i htime
        obtain rfl := Option.some_inj.mp hio
        exact .request hsup hcons (UInt32.not_le.mp htime)
  case creat =>
    obtain ⟨rfl, -⟩ := Prod.mk.inj (Option.some_inj.mp hs)
    rw [Sim.simulateCreat]
    split
    · rename_i hnew
      exact .creat hnew.2 hsup hnew.1
    · rename_i hnew
      exact .noCreat hsup hnew
  case done =>
    obtain ⟨rfl, -⟩ := Prod.mk.inj (Option.some_inj.mp hs)
    exact .done hsup
  case wake p back =>
    obtain ⟨rfl, -⟩ := Prod.mk.inj (Option.some_inj.mp hs)
    exact .wake hsup
  case waking back =>
    obtain ⟨s₁, hstep, heq⟩ := Option.map_eq_some_iff.mp hs
    obtain ⟨rfl, -⟩ := Prod.mk.inj heq
    rw [Sim.wakeUpStep] at hstep
    split at hstep
    · rename_i hret
      obtain rfl := Option.some_inj.mp hstep
      exact .woken hsup hret
    · rename_i c hforce
      exact absurd hforce (h.noForce.2 c)
    · obtain ⟨sched, hcaller, rfl⟩ := Option.map_eq_some_iff.mp hstep
      exact .inside hsup hcaller
  case forceUnlocked | forced => exact hok.elim
  case woken back =>
    cases back with
    | io =>
      obtain ⟨rfl, -⟩ := Prod.mk.inj (Option.some_inj.mp hs)
      exact .wokenIo hsup
    | creat =>
      obtain ⟨rfl, -⟩ := Prod.mk.inj (Option.some_inj.mp hs)
      exact .wokenCreat hsup

end Coherent

/-! ## Every turn -/

inductive Moved (cfg : Config) (s : Sim ncpu nproc) : Turn ncpu → Sim ncpu nproc → Prop
  | supervisor {s' : Sim ncpu nproc} : SupervisorTurn cfg s s' → Moved cfg s .supervisor s'
  | thread {c : Fin ncpu} {s' : Sim ncpu nproc} : s.supervisor ≠ .exited →
      ThreadTurn cfg s c s' → Moved cfg s (.thread c) s'
  | spurious {c : Fin ncpu} : s.supervisor ≠ .exited → s.sched.cpu c = .condWait →
      Moved cfg s (.spurious c) { s with sched := s.sched.setCpu c .idle }

/-- Every calm turn is one of the moves. -/
theorem Coherent.moved (h : Coherent s place) {t : Turn ncpu} (hcalm : s.calm t = true)
    (hs : s.next cfg t = some (s', es)) : Moved cfg s t s' := by
  rw [Sim.next.eq_def] at hs
  cases t with
  | supervisor => exact .supervisor (h.supervisorTurn hcalm hs)
  | thread c =>
    dsimp only at hs
    split at hs
    · simp at hs
    · rename_i hrun
      exact .thread hrun (h.threadTurn hs)
  | spurious c =>
    dsimp only at hs
    split at hs
    · simp at hs
    · rename_i hrun
      obtain ⟨s₁, hstep, heq⟩ := Option.map_eq_some_iff.mp hs
      obtain ⟨rfl, -⟩ := Prod.mk.inj heq
      obtain ⟨sched, hspurious, rfl⟩ := Option.map_eq_some_iff.mp hstep
      rw [State.spurious] at hspurious
      split at hspurious
      · rename_i hwait
        obtain rfl := Option.some_inj.mp hspurious
        exact .spurious hrun hwait
      · simp at hspurious

/-! ## The contract of the scheduler -/

/-- The scheduler takes one step, or none. -/
def AtMostOneStep (scheduling_alg : Char) {ncaller : Nat} (s s' : State ncpu nproc ncaller) :
    Prop :=
  s' = s ∨ ∃ a, step scheduling_alg s a = some s'

/-- The handler of an event is called on a CPU that runs a process. -/
theorem Coherent.calls_running (h : Coherent s place) {state : CpuState}
    (hcalls : (s.thread c).Calls state) :
    state.IsEvent ∧ s.OwnsKnown c ∧ s.Busy c := by
  cases hc : s.thread c <;> rw [hc] at hcalls
  case dispatch state' =>
    obtain ⟨rfl, hevent, -⟩ := hcalls
    rcases h.cpuOkAt hc with ⟨-, howns, hbusy⟩ | ⟨rfl, -⟩
    · exact ⟨hevent, howns, hbusy⟩
    · exact hevent.elim
  case counted =>
    obtain ⟨howns, hbusy⟩ := h.cpuOkAt hc
    obtain rfl : state = .terminate := hcalls
    exact ⟨trivial, howns, hbusy⟩
  all_goals exact hcalls.elim

theorem ThreadTurn.atMostOneStep (h : Coherent s place) (hs : ThreadTurn cfg s c s') :
    AtMostOneStep cfg.scheduling_alg s.sched s'.sched := by
  cases hs with
  | idle hc | sleep hc =>
    exact .inl (signal_frame (by simp [hc])).2.2.2
  | read | count | unlock | relock | back => exact .inl rfl
  | callIdle hc =>
    obtain ⟨hevent, -⟩ | ⟨-, hcpu, -⟩ := h.cpuOkAt hc
    · exact hevent.elim
    · refine .inr ⟨.call c .idle, ?_⟩
      rw [step, State.call.eq_def, hcpu]
      rfl
  | call state hcalls =>
    obtain ⟨hevent, howns, -⟩ := h.calls_running hcalls
    obtain ⟨handler, hcall⟩ := Coherent.call_entry hevent howns.1
    exact .inr ⟨.call c handler, hcall⟩
  | inside _ _ hstep => exact .inr ⟨.cpu c, hstep⟩
  | publish _ hpc =>
    refine .inr ⟨.cpu c, ?_⟩
    rw [step, State.cpuStep, hpc]
    rfl

theorem SupervisorTurn.atMostOneStep (h : Coherent s place) (hs : SupervisorTurn cfg s s') :
    AtMostOneStep cfg.scheduling_alg s.sched s'.sched := by
  cases hs with
  | tick _ _ htick =>
    obtain ⟨time, hsched⟩ := htick.sched
    exact .inr ⟨.setTime _ time, congrArg some hsched.symm⟩
  | complete => exact .inr ⟨.setTime _ _, rfl⟩
  | wake hsup => exact .inr ⟨.callWakeUp 0 _, (h.wakeable hsup).1⟩
  | inside _ hstep => exact .inr ⟨.caller 0, hstep⟩
  | exit | start | read | simulate | skip | simulated | resume | noRequest | request | creat
  | noCreat | done | woken | wokenIo | wokenCreat => exact .inl rfl

theorem Moved.atMostOneStep (h : Coherent s place) {t : Turn ncpu} (hs : Moved cfg s t s') :
    AtMostOneStep cfg.scheduling_alg s.sched s'.sched := by
  cases hs with
  | supervisor hmove => exact hmove.atMostOneStep h
  | thread _ hmove => exact hmove.atMostOneStep h
  | spurious _ hwait => exact .inr ⟨.spurious _, if_pos hwait⟩

namespace Sim.Run

theorem coherent (hs : Sim.Run cfg Sim.calm s es) : ∃ place, Coherent s place := hs.observed.1

theorem moved (hs : Sim.Run cfg Sim.calm s es) {t : Turn ncpu} {es' : List (Event ncpu nproc)}
    (hcalm : s.calm t = true) (hnext : s.next cfg t = some (s', es')) : Moved cfg s t s' := by
  obtain ⟨place, h⟩ := hs.coherent
  exact h.moved hcalm hnext

theorem reachable (hs : Sim.Run cfg Sim.calm s es) : Reachable cfg.scheduling_alg s.sched := by
  induction hs with
  | initial hinit => exact .initial hinit.sched
  | step hrun hcalm hnext ih =>
    obtain ⟨place, h⟩ := hrun.coherent
    rcases (h.moved hcalm hnext).atMostOneStep h with heq | ⟨a, hstep⟩
    · rw [heq]
      exact ih
    · exact ih.step hstep

end Sim.Run

/-- The simulator keeps the contract of the scheduler: in a calm run each turn of its threads is at
most one step that the scheduler's contract allows, so that the scheduler is always in one of its
reachable states. -/
theorem contract_kept (hs : Sim.Run cfg Sim.calm s es) :
    Reachable cfg.scheduling_alg s.sched ∧
      ∀ t s' es', s.calm t = true → s.next cfg t = some (s', es') →
        AtMostOneStep cfg.scheduling_alg s.sched s'.sched := by
  refine ⟨hs.reachable, ?_⟩
  intro t s' es' hcalm hnext
  obtain ⟨place, h⟩ := hs.coherent
  exact (h.moved hcalm hnext).atMostOneStep h

/-- Process 0 has run its first burst, has yielded and runs again. -/
theorem contract_kept_handledYield : ∃ s : Sim 1 processCount,
    Sim.Run fifo Sim.calm s handledYield ∧ Reachable fifo.scheduling_alg s.sched := by
  obtain ⟨s, hs⟩ := handledYield_run
  exact ⟨s, hs, (contract_kept hs).1⟩

end ECE3056.Scheduling
