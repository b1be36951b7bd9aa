import ECE3056.Scheduling.Exclusive
import ECE3056.Scheduling.Processes

/-!
# The handshake between the supervisor and the CPU threads

What holds between two steps: a thread that is on its way with an event has the
supervisor waiting for it; everywhere else the process that `simulator_cpu_data`
names is the one that the CPU owns, and it is in a CPU burst.
-/

namespace ECE3056.Scheduling

open ECE3056.Custody

variable {ncpu nproc : Nat}

/-- The events that the supervisor stores for a CPU. -/
def CpuState.IsEvent : CpuState → Prop
  | preempt | yield | terminate => True
  | idle | running => False

/-- The operation that a process has come to when the event is stored. -/
def CpuState.op : CpuState → OpType
  | yield => .io
  | terminate => .terminate
  | idle | running | preempt => .cpu

/-- About to read `current[]` in a handler other than `idle`. -/
def Cpu.Entering : Cpu nproc → Prop
  | preempt | yield | terminate => True
  | _ => False

/-- Inside a handler. -/
def Cpu.Inside : Cpu nproc → Prop
  | idling | running => False
  | _ => True

/-- The operation of the process in hand, from where the thread stands in the scheduler and in the
simulator and from the state stored for the CPU. -/
def Cpu.opDue (thread : CpuThread) (state : CpuState) : Cpu nproc → OpType
  | yield => .io
  | terminate => .terminate
  | running =>
    match thread with
    | .signalled => state.op
    | .dispatch state => state.op
    | .counted => .terminate
    | _ => .cpu
  | _ => .cpu

namespace Sim

/-- The type of the operation that `pcb->pc` points to. -/
def opType (s : Sim ncpu nproc) (p : Fin nproc) : Option OpType :=
  ((s.ops p).map Op.type)[s.pc p]?

/-- The supervisor waits for the scheduler to be run on the CPU. -/
def Busy (s : Sim ncpu nproc) (c : Fin ncpu) : Prop := ∃ k, s.supervisor = .wait c k

/-- The CPU owns a process and the simulator knows it. -/
def OwnsKnown (s : Sim ncpu nproc) (c : Fin ncpu) : Prop :=
  s.sched.cpu c = .running ∧ (s.simulator_cpu_data c).current = s.sched.current c

/-- No handler runs on the CPU, and the simulator knows its process. -/
def Outside (s : Sim ncpu nproc) (c : Fin ncpu) : Prop :=
  s.OwnsKnown c ∨ s.sched.cpu c = .idling ∧ (s.simulator_cpu_data c).current = none

/-- The thread is in the handler of an event, or in `idle`. -/
def Handling (s : Sim ncpu nproc) (c : Fin ncpu) (state : CpuState) : Prop :=
  state.IsEvent ∧ s.Busy c ∨
    state = .idle ∧ ¬ (s.sched.cpu c).Entering ∧ (s.simulator_cpu_data c).current = none

/-- What holds of a CPU whose thread stands at `t`. -/
def CpuOkAt (s : Sim ncpu nproc) (c : Fin ncpu) (t : CpuThread) : Prop :=
  match t with
  | .top | .published _ | .returned => s.Outside c
  | .asleep => s.OwnsKnown c ∧ (s.simulator_cpu_data c).state = .running
  | .signalled => s.OwnsKnown c ∧ (s.simulator_cpu_data c).state.IsEvent ∧ s.Busy c
  | .dispatch state =>
    state.IsEvent ∧ s.OwnsKnown c ∧ s.Busy c ∨
      state = .idle ∧ s.sched.cpu c = .idling ∧ (s.simulator_cpu_data c).current = none
  | .counted => s.OwnsKnown c ∧ s.Busy c
  | .student state => (s.sched.cpu c).Inside ∧ s.Handling c state
  | .unlocked state => (∃ pcb, s.sched.cpu c = .contextSwitch pcb) ∧ s.Handling c state

def CpuOk (s : Sim ncpu nproc) (c : Fin ncpu) : Prop := s.CpuOkAt c (s.thread c)

/-- The operation of the process that a CPU thread has in hand. -/
def pendingOp (s : Sim ncpu nproc) (c : Fin ncpu) : OpType :=
  (s.sched.cpu c).opDue (s.thread c) (s.simulator_cpu_data c).state

/-- The operation of a process, by its place. -/
def OpFits (s : Sim ncpu nproc) (p : Fin nproc) : Thread ncpu 1 ⊕ Rest → Prop
  | .inl (.inl c) => s.opType p = some (s.pendingOp c)
  | .inr .waiting => s.opType p = some (if s.supervisor = .wake p .io then .cpu else .io)
  | .inr .terminated => s.opType p = some .terminate
  | .inl (.inr _) | .inr .uncreated | .inr .queued => s.opType p = some .cpu

/-- `force_preempt` is not on the way. -/
def NoForce (s : Sim ncpu nproc) : Prop :=
  (∀ p c low, s.sched.caller 0 ≠ .compare p (some c) low) ∧
    ∀ c, s.sched.caller 0 ≠ .forcePreempt c

/-- What holds where the supervisor stands. -/
def SupervisorOk (s : Sim ncpu nproc) (place : Fin nproc → Thread ncpu 1 ⊕ Rest) : Prop :=
  match s.supervisor with
  | .wake p .io => place p = .inr .waiting
  | .wake p .creat => place p = .inr .uncreated ∧ p = s.processes_created
  | .wait _ (.force _) | .resume _ (.force _) | .forceUnlocked .. | .forced _ => False
  | _ => True

/-- The first process that `wake_up` has not been called for. -/
def firstNew (s : Sim ncpu nproc) : Nat :=
  match s.supervisor with
  | .waking .creat | .woken .creat => s.processes_created + 1
  | _ => s.processes_created

end Sim

/-- The invariant of the simulation. -/
structure Coherent (s : Sim ncpu nproc) (place : Fin nproc → Thread ncpu 1 ⊕ Rest) : Prop where
  placed : Placed s.sched place
  shape : ∀ p, WellShaped ((s.ops p).map Op.type) = true
  op : ∀ p, s.OpFits p (place p)
  io_nodup : (s.io_queue.map Prod.fst).Nodup
  io_mem : ∀ p, p ∈ s.io_queue.map Prod.fst ↔ s.opType p = some .io
  cpu : ∀ c, s.CpuOk c
  noForce : s.NoForce
  caller : (∀ back, s.supervisor ≠ .waking back) → s.sched.caller 0 = .ret
  supervisor : s.SupervisorOk place
  created : ∀ p : Fin nproc, s.firstNew ≤ p → place p = .inr .uncreated

variable {s s' : Sim ncpu nproc} {place place' : Fin nproc → Thread ncpu 1 ⊕ Rest}

/-! ## A CPU on which nothing happens -/

/-- Nothing happens on the CPU, except that its thread may be released in `idle`. -/
structure Same (s s' : Sim ncpu nproc) (c : Fin ncpu) : Prop where
  thread : s'.thread c = s.thread c
  known : (s'.simulator_cpu_data c).current = (s.simulator_cpu_data c).current
  state : (s'.simulator_cpu_data c).state = (s.simulator_cpu_data c).state
  cpu : s'.sched.cpu c = s.sched.cpu c ∨ s.sched.cpu c = .condWait ∧ s'.sched.cpu c = .idle
  current : s'.sched.current c = s.sched.current c
  busy : s.Busy c → s'.Busy c

namespace Same

variable {c : Fin ncpu}

theorem inside (h : Same s s' c) (hc : (s.sched.cpu c).Inside) : (s'.sched.cpu c).Inside := by
  rcases h.cpu with heq | ⟨-, hidle⟩
  · rwa [heq]
  · rw [hidle]
    trivial

theorem ownsKnown (h : Same s s' c) (hc : s.OwnsKnown c) : s'.OwnsKnown c := by
  rcases h.cpu with heq | ⟨hwait, -⟩
  · refine ⟨heq.trans hc.1, ?_⟩
    rw [h.known, h.current]
    exact hc.2
  · simp [hc.1] at hwait

theorem idling (h : Same s s' c) (hc : s.sched.cpu c = .idling) : s'.sched.cpu c = .idling := by
  rcases h.cpu with heq | ⟨hwait, -⟩
  · exact heq.trans hc
  · simp [hc] at hwait

theorem outside (h : Same s s' c) (hc : s.Outside c) : s'.Outside c := by
  rcases hc with hc | ⟨hidle, hnone⟩
  · exact .inl (h.ownsKnown hc)
  · exact .inr ⟨h.idling hidle, by rw [h.known]; exact hnone⟩

theorem handling (h : Same s s' c) {state : CpuState} (hc : s.Handling c state) :
    s'.Handling c state := by
  rcases hc with ⟨hevent, hbusy⟩ | ⟨hidle, hentering, hnone⟩
  · exact .inl ⟨hevent, h.busy hbusy⟩
  · refine .inr ⟨hidle, ?_, by rw [h.known]; exact hnone⟩
    rcases h.cpu with heq | ⟨-, hpc⟩
    · rwa [heq]
    · rw [hpc]
      exact id

theorem cpuOk (h : Same s s' c) (hc : s.CpuOk c) : s'.CpuOk c := by
  unfold Sim.CpuOk at hc ⊢
  rw [h.thread]
  unfold Sim.CpuOkAt at hc ⊢
  rw [h.known, h.state]
  cases hthread : s.thread c <;> rw [hthread] at hc <;> dsimp only at hc ⊢
  case top | published | returned => exact h.outside hc
  case asleep => exact ⟨h.ownsKnown hc.1, hc.2⟩
  case signalled => exact ⟨h.ownsKnown hc.1, hc.2.1, h.busy hc.2.2⟩
  case dispatch state =>
    rcases hc with ⟨hevent, howns, hbusy⟩ | ⟨hidle, hcpu, hnone⟩
    · exact .inl ⟨hevent, h.ownsKnown howns, h.busy hbusy⟩
    · exact .inr ⟨hidle, h.idling hcpu, hnone⟩
  case counted => exact ⟨h.ownsKnown hc.1, h.busy hc.2⟩
  case student state => exact ⟨h.inside hc.1, h.handling hc.2⟩
  case unlocked state =>
    obtain ⟨⟨pcb, hcpu⟩, hhandling⟩ := hc
    refine ⟨⟨pcb, ?_⟩, h.handling hhandling⟩
    rcases h.cpu with heq | ⟨hwait, -⟩
    · exact heq.trans hcpu
    · simp [hcpu] at hwait

theorem pendingOp_eq (h : Same s s' c) : s'.pendingOp c = s.pendingOp c := by
  rw [Sim.pendingOp, Sim.pendingOp, h.thread, h.state]
  rcases h.cpu with heq | ⟨hwait, hidle⟩
  · rw [heq]
  · rw [hwait, hidle]
    rfl

end Same

/-! ## A step of a CPU thread -/

/-- What a step of a CPU thread leaves alone. -/
structure ThreadFrame (s s' : Sim ncpu nproc) (c : Fin ncpu) : Prop where
  thread : ∀ d, d ≠ c → s'.thread d = s.thread d
  data : ∀ d, d ≠ c → s'.simulator_cpu_data d = s.simulator_cpu_data d
  sched : Frame s.sched s'.sched (.inl c)
  supervisor : s'.supervisor = s.supervisor ∨
    ∃ k, s.supervisor = .wait c k ∧ s'.supervisor = .resume c k
  ops : s'.ops = s.ops
  pc : s'.pc = s.pc
  io_queue : s'.io_queue = s.io_queue
  created : s'.processes_created = s.processes_created

namespace ThreadFrame

variable {c d : Fin ncpu}

theorem opType_eq (hf : ThreadFrame s s' c) (p : Fin nproc) : s'.opType p = s.opType p := by
  rw [Sim.opType, Sim.opType, hf.ops, hf.pc]

theorem caller_eq (hf : ThreadFrame s s' c) : s'.sched.caller 0 = s.sched.caller 0 :=
  hf.sched.caller 0 (by simp)

theorem same (hf : ThreadFrame s s' c) (hd : d ≠ c) : Same s s' d where
  thread := hf.thread d hd
  known := by rw [hf.data d hd]
  state := by rw [hf.data d hd]
  cpu := hf.sched.cpu d (by simpa using hd)
  current := hf.sched.current d (by simpa using hd)
  busy := by
    intro h
    obtain ⟨k, hk⟩ := h
    rcases hf.supervisor with heq | ⟨k', hk', -⟩
    · exact ⟨k, heq.trans hk⟩
    · rw [hk] at hk'
      exact absurd (Supervisor.wait.inj hk').1 hd

/-- The supervisor moves only from waiting to being signalled. -/
theorem wake_iff (hf : ThreadFrame s s' c) (p : Fin nproc) (back : Back) :
    s'.supervisor = .wake p back ↔ s.supervisor = .wake p back := by
  rcases hf.supervisor with heq | ⟨k, hwait, hresume⟩
  · rw [heq]
  · simp [hwait, hresume]

theorem opFits (hf : ThreadFrame s s' c) {p : Fin nproc} {l : Thread ncpu 1 ⊕ Rest}
    (hl : l ≠ .inl (.inl c)) (h : s.OpFits p l) : s'.OpFits p l := by
  match l with
  | .inl (.inl d) =>
    have hd : d ≠ c := fun heq => hl (by rw [heq])
    show s'.opType p = some (s'.pendingOp d)
    rw [hf.opType_eq, (hf.same hd).pendingOp_eq]
    exact h
  | .inr .waiting =>
    show s'.opType p = some (if s'.supervisor = .wake p .io then .cpu else .io)
    rw [hf.opType_eq]
    simp only [hf.wake_iff]
    exact h
  | .inr .terminated | .inl (.inr _) | .inr .uncreated | .inr .queued =>
    exact (hf.opType_eq p).trans h

end ThreadFrame

/-- A step of a CPU thread keeps the invariant when its own CPU does. -/
theorem Coherent.thread (h : Coherent s place) {c : Fin ncpu} (hf : ThreadFrame s s' c)
    (hplaced : Placed s'.sched place')
    (hsame : ∀ p, place p ≠ .inl (.inl c) → place p ≠ .inr .queued → place' p = place p)
    (hqueued : ∀ p, place p = .inr .queued → place' p ≠ .inl (.inl c) → place' p = place p)
    (hop : ∀ p, place p = .inl (.inl c) ∨ place' p = .inl (.inl c) → s'.OpFits p (place' p))
    (hcpu : s'.CpuOk c) : Coherent s' place' where
  placed := hplaced
  shape := by
    intro p
    rw [hf.ops]
    exact h.shape p
  op := by
    intro p
    by_cases hp : place p = .inl (.inl c) ∨ place' p = .inl (.inl c)
    · exact hop p hp
    · obtain ⟨hp, hp'⟩ := not_or.mp hp
      have heq : place' p = place p := by
        by_cases hq : place p = .inr .queued
        · exact hqueued p hq hp'
        · exact hsame p hp hq
      rw [heq]
      exact hf.opFits hp (h.op p)
  io_nodup := by
    rw [hf.io_queue]
    exact h.io_nodup
  io_mem := by
    intro p
    rw [hf.io_queue, hf.opType_eq]
    exact h.io_mem p
  cpu := by
    intro d
    by_cases hd : d = c
    · rw [hd]
      exact hcpu
    · exact (hf.same hd).cpuOk (h.cpu d)
  noForce := by
    rw [Sim.NoForce, hf.caller_eq]
    exact h.noForce
  caller := by
    intro hne
    rw [hf.caller_eq]
    apply h.caller
    intro back hback
    rcases hf.supervisor with heq | ⟨k, hwait, -⟩
    · exact hne back (heq.trans hback)
    · simp [hwait] at hback
  supervisor := by
    have hsup := h.supervisor
    unfold Sim.SupervisorOk at hsup ⊢
    rcases hf.supervisor with heq | ⟨k, hwait, hresume⟩
    · rw [heq, hf.created]
      split at hsup
      · rw [hsame _ (by simp [hsup]) (by simp [hsup])]
        exact hsup
      · rw [hsame _ (by simp [hsup.1]) (by simp [hsup.1])]
        exact hsup
      · exact hsup
      · exact hsup
      · exact hsup
      · exact hsup
      · trivial
    · rw [hresume]
      rw [hwait] at hsup
      cases k with
      | tick => trivial
      | force back => exact hsup
  created := by
    intro p hp
    have hfirst : s'.firstNew = s.firstNew := by
      rw [Sim.firstNew, Sim.firstNew, hf.created]
      rcases hf.supervisor with heq | ⟨k, hwait, hresume⟩
      · rw [heq]
      · rw [hwait, hresume]
    rw [hfirst] at hp
    have hplace := h.created p hp
    rw [hsame p (by simp [hplace]) (by simp [hplace])]
    exact hplace

end ECE3056.Scheduling
