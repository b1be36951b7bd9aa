import ECE3056.Scheduling.ReadyList
import Mathlib.Tactic

/-!
# The scheduler

The handlers of `student.c`, as the threads that run them take them: one step for
each critical section of `ready_mutex` or `current_mutex` and for each assignment
made outside of one. `context_switch` and `force_preempt` belong to the simulator;
here they are the points at which a handler leaves the scheduler.
-/

namespace ECE3056.Scheduling

/-- What the numerals of `Fin 1` and `Fin 2` rest on, by name. -/
instance oneNeZero : NeZero 1 := ⟨Nat.succ_ne_zero 0⟩
instance twoNeZero : NeZero 2 := ⟨Nat.succ_ne_zero 1⟩

inductive ProcessState
  | new
  | ready
  | running
  | waiting
  | terminated
  deriving DecidableEq, Repr

/-- The handlers that a CPU thread calls. -/
inductive Handler
  | idle
  | preempt
  | yield
  | terminate
  deriving DecidableEq, Repr

/-- Where the thread of a CPU stands. Outside of the handlers it is `idling` or `running`,
by the process that `context_switch` was last given. -/
inductive Cpu (nproc : Nat)
  | idling
  | running
  /-- `idle`, about to lock `ready_mutex` and look at `head` -/
  | idle
  /-- `idle`, in `pthread_cond_wait` -/
  | condWait
  /-- `preempt`, `yield` and `terminate`, about to lock `current_mutex` -/
  | preempt
  | yield
  | terminate
  | pushToQueue (pcb : Fin nproc)
  /-- `schedule`, about to call `pop_from_queue` -/
  | popFromQueue
  | setRunning (pcb : Fin nproc)
  | setCurrent (pcb : Option (Fin nproc))
  | contextSwitch (pcb : Option (Fin nproc))
  deriving DecidableEq, Repr

/-- Where a thread stands in `wake_up`; `ret` is outside of it. -/
inductive Caller (ncpu nproc : Nat)
  | ret
  | wakeUp (process : Fin nproc)
  | pushToQueue (process : Fin nproc)
  | scan (process : Fin nproc)
  | compare (process : Fin nproc) (low_id : Option (Fin ncpu)) (low : UInt32)
  | forcePreempt (low_id : Fin ncpu)
  deriving DecidableEq, Repr

/-- `ncpu` CPU threads, and `ncaller` threads that may call `wake_up`. -/
structure State (ncpu nproc ncaller : Nat) where
  ready : Queue nproc
  time_remaining : Fin nproc → UInt32
  state : Fin nproc → ProcessState
  current : Fin ncpu → Option (Fin nproc)
  cpu : Fin ncpu → Cpu nproc
  caller : Fin ncaller → Caller ncpu nproc

variable {ncpu nproc ncaller : Nat}

/-- The file-scope `cpu_count` of `student.c`. `main` declares another one and sets that. -/
def cpuCount : Nat := 0

/-- The loop of `wake_up` over `current[]`; -1 is `none`. -/
def scanCurrent (current : Fin ncpu → Option (Fin nproc)) (time_remaining : Fin nproc → UInt32) :
    List (Fin ncpu) → Option (Fin ncpu) → UInt32 → Option (Fin ncpu) × UInt32
  | [], low_id, low => (low_id, low)
  | i :: is, low_id, low =>
    match current i with
    | none => (none, low)
    | some pcb =>
      if time_remaining pcb < low then
        scanCurrent current time_remaining is (some i) (time_remaining pcb)
      else scanCurrent current time_remaining is low_id low

namespace State

def setCpu (s : State ncpu nproc ncaller) (c : Fin ncpu) (pc : Cpu nproc) :
    State ncpu nproc ncaller :=
  { s with cpu := Function.update s.cpu c pc }

def setCaller (s : State ncpu nproc ncaller) (w : Fin ncaller) (pc : Caller ncpu nproc) :
    State ncpu nproc ncaller :=
  { s with caller := Function.update s.caller w pc }

def setState (s : State ncpu nproc ncaller) (pcb : Fin nproc) (v : ProcessState) :
    State ncpu nproc ncaller :=
  { s with state := Function.update s.state pcb v }

/-- `pthread_cond_broadcast(&not_idle)`. -/
def broadcast (s : State ncpu nproc ncaller) : State ncpu nproc ncaller :=
  { s with cpu := fun c => if s.cpu c = .condWait then .idle else s.cpu c }

/-- The critical section of `push_to_queue`. -/
def push (s : State ncpu nproc ncaller) (pcb : Fin nproc) : Option (State ncpu nproc ncaller) :=
  (Scheduling.pushToQueue s.ready pcb).map fun q => { s with ready := q }.broadcast

/-- The next step of a CPU thread inside a handler. -/
def cpuStep (scheduling_alg : Char) (s : State ncpu nproc ncaller) (c : Fin ncpu) :
    Option (State ncpu nproc ncaller) :=
  match s.cpu c with
  | .idling | .running | .condWait => none
  | .idle => some (s.setCpu c (if s.ready.head = none then .condWait else .popFromQueue))
  | .preempt => (s.current c).map fun pcb =>
      (s.setState pcb .ready).setCpu c (.pushToQueue pcb)
  | .yield => (s.current c).map fun pcb => (s.setState pcb .waiting).setCpu c .popFromQueue
  | .terminate => (s.current c).map fun pcb =>
      (s.setState pcb .terminated).setCpu c .popFromQueue
  | .pushToQueue pcb => (s.push pcb).map fun s => s.setCpu c .popFromQueue
  | .popFromQueue =>
    (Scheduling.popFromQueue scheduling_alg s.time_remaining s.ready).map fun (node, q) =>
      { s with ready := q }.setCpu c
        (match node with
        | some pcb => .setRunning pcb
        | none => .setCurrent none)
  | .setRunning pcb => some ((s.setState pcb .running).setCpu c (.setCurrent (some pcb)))
  | .setCurrent pcb =>
    some ({ s with current := Function.update s.current c pcb }.setCpu c (.contextSwitch pcb))
  | .contextSwitch pcb => some (s.setCpu c (if pcb.isSome then .running else .idling))

/-- The next step of a thread inside `wake_up`. -/
def callerStep (scheduling_alg : Char) (s : State ncpu nproc ncaller) (w : Fin ncaller) :
    Option (State ncpu nproc ncaller) :=
  match s.caller w with
  | .ret => none
  | .wakeUp process => some ((s.setState process .ready).setCaller w (.pushToQueue process))
  | .pushToQueue process => (s.push process).map fun s =>
      s.setCaller w (if scheduling_alg = 'l' then .scan process else .ret)
  | .scan process =>
    let (low_id, low) :=
      scanCurrent s.current s.time_remaining ((List.finRange ncpu).take cpuCount) none 10
    some (s.setCaller w (.compare process low_id low))
  | .compare process low_id low =>
    match low_id with
    | some low_id =>
      some (s.setCaller w
        (if low < s.time_remaining process then .forcePreempt low_id else .ret))
    | none => some (s.setCaller w .ret)
  | .forcePreempt _ => some (s.setCaller w .ret)

/-! ## The simulator's side -/

/-- The CPU thread calls a handler: `idle` when no process was selected for the CPU, the others
only when it owns one. -/
def call (s : State ncpu nproc ncaller) (c : Fin ncpu) (h : Handler) :
    Option (State ncpu nproc ncaller) :=
  match s.cpu c, h with
  | .idling, .idle => some (s.setCpu c .idle)
  | .running, .preempt => some (s.setCpu c .preempt)
  | .running, .yield => some (s.setCpu c .yield)
  | .running, .terminate => some (s.setCpu c .terminate)
  | _, _ => none

/-- A process is still to be created, or its `yield` has marked it, and nobody wakes it up yet. -/
def Wakeable (s : State ncpu nproc ncaller) (process : Fin nproc) : Prop :=
  (s.state process = .new ∨ s.state process = .waiting) ∧ ∀ w, s.caller w ≠ .wakeUp process

instance (s : State ncpu nproc ncaller) (process : Fin nproc) : Decidable (s.Wakeable process) :=
  inferInstanceAs (Decidable (_ ∧ _))

/-- A thread calls `wake_up`. -/
def callWakeUp (s : State ncpu nproc ncaller) (w : Fin ncaller) (process : Fin nproc) :
    Option (State ncpu nproc ncaller) :=
  if s.caller w = .ret ∧ s.Wakeable process then some (s.setCaller w (.wakeUp process)) else none

/-- A blocked thread wakes up by itself. -/
def spurious (s : State ncpu nproc ncaller) (c : Fin ncpu) : Option (State ncpu nproc ncaller) :=
  if s.cpu c = .condWait then some (s.setCpu c .idle) else none

end State

/-- Who moves: a thread, or the simulator as it writes a `time_remaining`. -/
inductive Act (ncpu nproc ncaller : Nat)
  | call (c : Fin ncpu) (h : Handler)
  | cpu (c : Fin ncpu)
  | spurious (c : Fin ncpu)
  | callWakeUp (w : Fin ncaller) (process : Fin nproc)
  | caller (w : Fin ncaller)
  | setTime (pcb : Fin nproc) (time : UInt32)

def step (scheduling_alg : Char) (s : State ncpu nproc ncaller) :
    Act ncpu nproc ncaller → Option (State ncpu nproc ncaller)
  | .call c h => s.call c h
  | .cpu c => s.cpuStep scheduling_alg c
  | .spurious c => s.spurious c
  | .callWakeUp w process => s.callWakeUp w process
  | .caller w => s.callerStep scheduling_alg w
  | .setTime pcb time =>
    some { s with time_remaining := Function.update s.time_remaining pcb time }

/-- Before the first step. The PCBs are not queued, whatever their `next`; `current[]` comes from
`malloc`. -/
structure Initial (s : State ncpu nproc ncaller) : Prop where
  head : s.ready.head = none
  state : ∀ p, s.state p = .new
  cpu : ∀ c, s.cpu c = .idling
  caller : ∀ w, s.caller w = .ret

inductive Reachable (scheduling_alg : Char) : State ncpu nproc ncaller → Prop
  | initial {s} : Initial s → Reachable scheduling_alg s
  | step {s s' a} : Reachable scheduling_alg s → step scheduling_alg s a = some s' →
      Reachable scheduling_alg s'

end ECE3056.Scheduling
