import ECE3056.Scheduling.Student

/-!
# The simulator

The threads of `os-sim.c`: the supervisor and one thread for each CPU, which run
the handlers of `student.c`. A step is a critical section of `simulator_mutex`, an
`IRWL` macro, or a step of the scheduler. The supervisor keeps `simulator_mutex`
over several steps; the others hold it within one. A thread blocked in
`pthread_cond_wait(&wakeup)` goes on only after a signal.

A step also tells what an observer sees of it: the events stored for a CPU, the calls
of the handlers, a CPU set to `CPU_RUNNING`, and the processes simulated.
-/

namespace ECE3056.Scheduling

inductive OpType
  | cpu
  | io
  | terminate
  deriving DecidableEq, Repr

structure Op where
  type : OpType
  time : UInt32
  deriving DecidableEq, Repr

/-- `OP_CPU, OP_IO, OP_CPU, ..., OP_CPU, OP_TERMINATE`. -/
def WellShaped : List OpType → Bool
  | [.cpu, .terminate] => true
  | .cpu :: .io :: rest => WellShaped rest
  | _ => false

/-- `simulator_cpu_state_t`. -/
inductive CpuState
  | idle
  | running
  | preempt
  | yield
  | terminate
  deriving DecidableEq, Repr

/-- `simulator_cpu_data_t`, less the condition variable. -/
structure CpuData (nproc : Nat) where
  current : Option (Fin nproc)
  state : CpuState
  preemption_timer : Int

/-- Where `simulator_cpu_thread` stands. -/
inductive CpuThread
  /-- at the top of the loop, about to lock `simulator_mutex` -/
  | top
  /-- in `pthread_cond_wait(&wakeup)` -/
  | asleep
  /-- signalled, about to lock `simulator_mutex` again -/
  | signalled
  /-- about to act on the state it has read -/
  | dispatch (state : CpuState)
  /-- `CPU_TERMINATE`, after `processes_terminated++` -/
  | counted
  /-- in the handler called for this state -/
  | student (state : CpuState)
  /-- in `context_switch`, before and after its section -/
  | unlocked (state : CpuState)
  | published (state : CpuState)
  /-- the handler has returned -/
  | returned
  deriving DecidableEq, Repr

/-- Who called `wake_up`. -/
inductive Back
  | io
  | creat
  deriving DecidableEq, Repr

/-- Who waits for the scheduler to be run: `simulate_process` or `force_preempt`. -/
inductive Cont
  | tick
  | force (back : Back)
  deriving DecidableEq, Repr

/-- Where the supervisor thread stands. -/
inductive Supervisor (ncpu nproc : Nat)
  | lock
  | gantt
  /-- inside `IRWL_READER_LOCK` -/
  | reading
  /-- `simulate_cpus`, at CPU `n` -/
  | cpus (n : Nat)
  /-- in `pthread_cond_wait(&wakeup)` of a CPU -/
  | wait (c : Fin ncpu) (k : Cont)
  | resume (c : Fin ncpu) (k : Cont)
  | io
  | creat
  | done
  /-- about to call `wake_up`, without `simulator_mutex` -/
  | wake (process : Fin nproc) (back : Back)
  | waking (back : Back)
  /-- `force_preempt`, before and after its section -/
  | forceUnlocked (c : Fin ncpu) (back : Back)
  | forced (back : Back)
  | woken (back : Back)
  | exited
  deriving DecidableEq, Repr

/-- The supervisor holds `simulator_mutex`; after `exit` nothing runs. -/
def Supervisor.holdsMutex {ncpu nproc : Nat} : Supervisor ncpu nproc → Bool
  | gantt | reading | cpus _ | io | creat | done | exited => true
  | lock | wait .. | resume .. | wake .. | waking _ | forceUnlocked .. | forced _ | woken _ => false

structure Sim (ncpu nproc : Nat) where
  sched : State ncpu nproc 1
  simulator_cpu_data : Fin ncpu → CpuData nproc
  thread : Fin ncpu → CpuThread
  supervisor : Supervisor ncpu nproc
  /-- the operations arrays, and each PCB's `pc` as an index -/
  ops : Fin nproc → List Op
  pc : Fin nproc → Nat
  io_queue : List (Fin nproc × UInt32)
  simulator_time : UInt32
  processes_created : Nat
  processes_terminated : Nat
  /-- `student_lock.writers` -/
  writers : Int

/-- What an observer sees. -/
inductive Event (ncpu nproc : Nat)
  | stored (c : Fin ncpu) (state : CpuState)
  | called (c : Fin ncpu) (state : CpuState)
  | running (c : Fin ncpu)
  | simulated (pcb : Fin nproc) (type : OpType)
  deriving DecidableEq, Repr

/-- The command line. -/
structure Config where
  scheduling_alg : Char
  time_slice : Int

variable {ncpu nproc : Nat}

namespace Sim

def setThread (s : Sim ncpu nproc) (c : Fin ncpu) (t : CpuThread) : Sim ncpu nproc :=
  { s with thread := Function.update s.thread c t }

def setData (s : Sim ncpu nproc) (c : Fin ncpu) (d : CpuData nproc) : Sim ncpu nproc :=
  { s with simulator_cpu_data := Function.update s.simulator_cpu_data c d }

def setCpuState (s : Sim ncpu nproc) (c : Fin ncpu) (v : CpuState) : Sim ncpu nproc :=
  s.setData c { s.simulator_cpu_data c with state := v }

def setSupervisor (s : Sim ncpu nproc) (v : Supervisor ncpu nproc) : Sim ncpu nproc :=
  { s with supervisor := v }

def setTime (s : Sim ncpu nproc) (pcb : Fin nproc) (time : UInt32) : Sim ncpu nproc :=
  { s with sched := { s.sched with
      time_remaining := Function.update s.sched.time_remaining pcb time } }

/-- The operation that `pcb->pc` points to. -/
def op (s : Sim ncpu nproc) (pcb : Fin nproc) : Option Op := (s.ops pcb)[s.pc pcb]?

/-- `pcb->pc` is moved to the next operation. -/
def incPc (s : Sim ncpu nproc) (pcb : Fin nproc) : Sim ncpu nproc :=
  { s with pc := Function.update s.pc pcb (s.pc pcb + 1) }

/-- Store through `pcb->pc`. -/
def setOp (s : Sim ncpu nproc) (pcb : Fin nproc) (op : Op) : Sim ncpu nproc :=
  { s with ops := Function.update s.ops pcb ((s.ops pcb).set (s.pc pcb) op) }

/-- `pthread_cond_signal(&wakeup)`: the supervisor, if it waits for this CPU, or the CPU's own
thread. -/
def signal (s : Sim ncpu nproc) (c : Fin ncpu) : Sim ncpu nproc :=
  match s.supervisor with
  | .wait d k => if d = c then s.setSupervisor (.resume d k) else s
  | _ => if s.thread c = .asleep then s.setThread c .signalled else s

/-! ## The supervisor -/

/-- An event is stored for a CPU, and the supervisor waits until the scheduler has been run. -/
def raise (s : Sim ncpu nproc) (c : Fin ncpu) (v : CpuState) (k : Cont) : Sim ncpu nproc :=
  ((s.setCpuState c v).signal c).setSupervisor (.wait c k)

/-- `simulate_process`, with `simulate_cpus` going on to the next CPU. A `pc` outside of its
array has no successor state. -/
def simulateProcess (s : Sim ncpu nproc) (c : Fin ncpu) (pcb : Fin nproc) :
    Option (Sim ncpu nproc × List (Event ncpu nproc)) := do
  let op ← s.op pcb
  match op.type with
  | .cpu =>
    if op.time > 0 then
      let d := s.simulator_cpu_data c
      let timer := d.preemption_timer - 1
      let s := s.setOp pcb { op with time := op.time - 1 }
      let s := s.setTime pcb (op.time - 1 + 1)
      let s := s.setData c { d with preemption_timer := timer }
      if timer = 0 then
        some (s.raise c .preempt .tick, [.simulated pcb .cpu, .stored c .preempt])
      else some (s.setSupervisor (.cpus (c + 1)), [.simulated pcb .cpu])
    else
      let s := s.incPc pcb
      let op ← s.op pcb
      let s := s.setTime pcb (op.time + 1)
      match op.type with
      | .io =>
        let s := { s with io_queue := s.io_queue ++ [(pcb, op.time)] }
        some (s.raise c .yield .tick, [.simulated pcb .cpu, .stored c .yield])
      | .terminate =>
        some (s.raise c .terminate .tick, [.simulated pcb .cpu, .stored c .terminate])
      | .cpu => some (s.setSupervisor (.cpus (c + 1)), [.simulated pcb .cpu])
  | .io => some (s.setSupervisor (.cpus (c + 1)), [.simulated pcb .io])
  | .terminate => some (s.setSupervisor (.cpus (c + 1)), [.simulated pcb .terminate])

/-- The section of `simulate_io` up to the call of `wake_up`. -/
def simulateIo (s : Sim ncpu nproc) : Option (Sim ncpu nproc) :=
  match s.io_queue with
  | [] => some (s.setSupervisor .creat)
  | (pcb, execution_time) :: rest =>
    if execution_time ≤ 0 then do
      let s := s.incPc pcb
      let op ← s.op pcb
      let s := s.setTime pcb (op.time + 1)
      some ({ s with io_queue := rest }.setSupervisor (.wake pcb .io))
    else
      some ({ s with io_queue := (pcb, execution_time - 1) :: rest }.setSupervisor .creat)

/-- The section of `simulate_creat` up to the call of `wake_up`. -/
def simulateCreat (s : Sim ncpu nproc) : Sim ncpu nproc :=
  if h : s.simulator_time % 10 = 0 ∧ s.processes_created < nproc then
    s.setSupervisor (.wake ⟨s.processes_created, h.2⟩ .creat)
  else s.setSupervisor .done

/-- The section of `force_preempt`. -/
def forcePreempt (s : Sim ncpu nproc) (c : Fin ncpu) (back : Back) :
    Sim ncpu nproc × List (Event ncpu nproc) :=
  if (s.simulator_cpu_data c).state = .running then
    (s.raise c .preempt (.force back), [.stored c .preempt])
  else (s.setSupervisor (.forced back), [])

/-- The next step of `wake_up`, run by the supervisor. -/
def wakeUpStep (cfg : Config) (s : Sim ncpu nproc) (back : Back) : Option (Sim ncpu nproc) :=
  match s.sched.caller 0 with
  | .ret => some ({ s with writers := s.writers - 1 }.setSupervisor (.woken back))
  | .forcePreempt c =>
    some ({ s with writers := s.writers - 1 }.setSupervisor (.forceUnlocked c back))
  | _ => (s.sched.callerStep cfg.scheduling_alg 0).map fun sched => { s with sched }

def supervisorStep (cfg : Config) (s : Sim ncpu nproc) :
    Option (Sim ncpu nproc × List (Event ncpu nproc)) :=
  match s.supervisor with
  | .lock =>
    some (s.setSupervisor (if s.processes_terminated ≥ nproc then .exited else .gantt), [])
  | .gantt => if s.writers > 0 then none else some (s.setSupervisor .reading, [])
  | .reading => some (s.setSupervisor (.cpus 0), [])
  | .cpus n =>
    if h : n < ncpu then
      match (s.simulator_cpu_data ⟨n, h⟩).current with
      | some pcb => s.simulateProcess ⟨n, h⟩ pcb
      | none => some (s.setSupervisor (.cpus (n + 1)), [])
    else some (s.setSupervisor .io, [])
  | .wait .. | .exited => none
  | .resume c .tick => some (s.setSupervisor (.cpus (c + 1)), [])
  | .resume _ (.force back) => some (s.setSupervisor (.forced back), [])
  | .io => s.simulateIo.map fun s => (s, [])
  | .creat => some (s.simulateCreat, [])
  | .done =>
    some ({ s with simulator_time := s.simulator_time + 1 }.setSupervisor .lock, [])
  | .wake process back =>
    some ({ s with
      writers := s.writers + 1
      sched := s.sched.setCaller 0 (.wakeUp process) }.setSupervisor (.waking back), [])
  | .waking back => (s.wakeUpStep cfg back).map fun s => (s, [])
  | .forceUnlocked c back => some (s.forcePreempt c back)
  | .forced back =>
    (s.sched.callerStep cfg.scheduling_alg 0).map fun sched =>
      ({ s with writers := s.writers + 1, sched }.setSupervisor (.waking back), [])
  | .woken .io => some (s.setSupervisor .creat, [])
  | .woken .creat =>
    some ({ s with processes_created := s.processes_created + 1 }.setSupervisor .done, [])

/-! ## The CPU threads -/

/-- The section at the top of the loop. -/
def topSection (s : Sim ncpu nproc) (c : Fin ncpu) : Sim ncpu nproc × List (Event ncpu nproc) :=
  let s := s.signal c
  match (s.simulator_cpu_data c).current with
  | none => ((s.setCpuState c .idle).setThread c (.dispatch .idle), [])
  | some _ => ((s.setCpuState c .running).setThread c .asleep, [.running c])

/-- `IRWL_WRITER_LOCK`, and the call of a handler. -/
def callHandler (s : Sim ncpu nproc) (c : Fin ncpu) (state : CpuState) (pc : Cpu nproc) :
    Sim ncpu nproc × List (Event ncpu nproc) :=
  ({ s with writers := s.writers + 1, sched := s.sched.setCpu c pc }.setThread c (.student state),
    [.called c state])

/-- The section of `context_switch`. -/
def contextSwitch (cfg : Config) (s : Sim ncpu nproc) (c : Fin ncpu) (pcb : Option (Fin nproc)) :
    Option (Sim ncpu nproc) :=
  (s.sched.cpuStep cfg.scheduling_alg c).map fun sched =>
    { s with sched }.setData c
      { s.simulator_cpu_data c with current := pcb, preemption_timer := cfg.time_slice }

/-- The next step of a CPU thread. Outside of `student.c` it needs `simulator_mutex` or, to change
`writers`, the mutex of `student_lock`, which the supervisor has while it is `reading`. -/
def threadStep (cfg : Config) (s : Sim ncpu nproc) (c : Fin ncpu) :
    Option (Sim ncpu nproc × List (Event ncpu nproc)) :=
  match s.thread c with
  | .top => if s.supervisor.holdsMutex then none else some (s.topSection c)
  | .asleep => none
  | .signalled =>
    if s.supervisor.holdsMutex then none
    else
      let state := (s.simulator_cpu_data c).state
      some (s.setThread c (if state = .running then .asleep else .dispatch state), [])
  | .dispatch .idle =>
    some ({ s with sched := s.sched.setCpu c .idle }.setThread c (.student .idle), [])
  | .dispatch .preempt =>
    if s.supervisor = .reading then none else some (s.callHandler c .preempt .preempt)
  | .dispatch .yield =>
    if s.supervisor = .reading then none else some (s.callHandler c .yield .yield)
  | .dispatch .terminate =>
    if s.supervisor.holdsMutex then none
    else some ({ s with processes_terminated := s.processes_terminated + 1 }.setThread c .counted,
      [])
  | .counted =>
    if s.supervisor = .reading then none else some (s.callHandler c .terminate .terminate)
  | .dispatch .running => some (s.setThread c .top, [])
  | .student state =>
    match s.sched.cpu c with
    | .contextSwitch _ =>
      if s.supervisor = .reading then none
      else some ({ s with writers := s.writers - 1 }.setThread c (.unlocked state), [])
    | _ => (s.sched.cpuStep cfg.scheduling_alg c).map fun sched => ({ s with sched }, [])
  | .unlocked state =>
    match s.sched.cpu c with
    | .contextSwitch pcb =>
      if s.supervisor.holdsMutex then none
      else (s.contextSwitch cfg c pcb).map fun s => (s.setThread c (.published state), [])
    | _ => none
  | .published state =>
    if s.supervisor = .reading then none
    else some ({ s with writers := s.writers + 1 }.setThread c
      (if state = CpuState.idle then .top else .returned), [])
  | .returned =>
    if s.supervisor = .reading then none
    else some ({ s with writers := s.writers - 1 }.setThread c .top, [])

/-- A thread blocked in `idle` wakes up by itself. -/
def spurious (s : Sim ncpu nproc) (c : Fin ncpu) : Option (Sim ncpu nproc) :=
  (s.sched.spurious c).map fun sched => { s with sched }

end Sim

/-- Whose turn it is. -/
inductive Turn (ncpu : Nat)
  | supervisor
  | thread (c : Fin ncpu)
  | spurious (c : Fin ncpu)
  deriving DecidableEq, Repr

namespace Sim

def next (cfg : Config) (s : Sim ncpu nproc) :
    Turn ncpu → Option (Sim ncpu nproc × List (Event ncpu nproc))
  | .supervisor => s.supervisorStep cfg
  | .thread c => if s.supervisor = .exited then none else s.threadStep cfg c
  | .spurious c => if s.supervisor = .exited then none else (s.spurious c).map fun s => (s, [])

/-- `start_simulator` has been called, with operations arrays of the shape that `process.c` asks
for. What `malloc` left in `current[]` and the PCBs' initial `time_remaining` are arbitrary. -/
structure Initial (s : Sim ncpu nproc) : Prop where
  sched : Scheduling.Initial s.sched
  data : ∀ c, s.simulator_cpu_data c = ⟨none, .idle, -1⟩
  thread : ∀ c, s.thread c = .top
  supervisor : s.supervisor = .lock
  shape : ∀ p, WellShaped ((s.ops p).map Op.type) = true
  pc : ∀ p, s.pc p = 0
  io_queue : s.io_queue = []
  time : s.simulator_time = 0
  created : s.processes_created = 0
  terminated : s.processes_terminated = 0
  writers : s.writers = 0

/-- A run and what an observer sees of it; every step meets `ok`. -/
inductive Run (cfg : Config) (ok : Sim ncpu nproc → Turn ncpu → Bool) :
    Sim ncpu nproc → List (Event ncpu nproc) → Prop
  | initial {s} : Initial s → Run cfg ok s []
  | step {s s' es es' t} : Run cfg ok s es → ok s t = true → next cfg s t = some (s', es') →
      Run cfg ok s' (es ++ es')

/-- The state after some turns and what an observer sees, when each turn meets `ok`. -/
def exec (cfg : Config) (ok : Sim ncpu nproc → Turn ncpu → Bool) (s : Sim ncpu nproc)
    (es : List (Event ncpu nproc)) :
    List (Turn ncpu) → Option (Sim ncpu nproc × List (Event ncpu nproc))
  | [] => some (s, es)
  | t :: ts =>
    if ok s t then
      match s.next cfg t with
      | some (s', es') => exec cfg ok s' (es ++ es') ts
      | none => none
    else none

theorem Run.exec {cfg : Config} {ok : Sim ncpu nproc → Turn ncpu → Bool} {s s' : Sim ncpu nproc}
    {es es' : List (Event ncpu nproc)} (hs : Run cfg ok s es) {ts : List (Turn ncpu)}
    (hexec : exec cfg ok s es ts = some (s', es')) : Run cfg ok s' es' := by
  induction ts generalizing s es with
  | nil =>
    obtain ⟨rfl, rfl⟩ := Prod.mk.inj (Option.some_inj.mp hexec)
    exact hs
  | cons t ts ih =>
    rw [Sim.exec] at hexec
    split at hexec
    · rename_i hok
      split at hexec
      · rename_i s₁ es₁ hnext
        exact ih (hs.step hok hnext) hexec
      · simp at hexec
    · simp at hexec

end Sim

end ECE3056.Scheduling
