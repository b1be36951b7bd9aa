import ECE3056.Scheduling.Processes

/-!
# The account of the processes

What a process still has to run is decided by its operations array, its `pc` and the
I/O queue, and only `simulate_process` and `simulate_io` change these. Their effect is
stated on this part of the simulator's state alone, one case for each branch.
-/

namespace ECE3056.Scheduling

variable {ncpu nproc : Nat}

/-- What the service of the processes depends on. -/
structure Account (nproc : Nat) where
  ops : Fin nproc → List Op
  pc : Fin nproc → Nat
  time_remaining : Fin nproc → UInt32
  io_queue : List (Fin nproc × UInt32)

def Sim.account (s : Sim ncpu nproc) : Account nproc :=
  ⟨s.ops, s.pc, s.sched.time_remaining, s.io_queue⟩

namespace Account

def op (a : Account nproc) (p : Fin nproc) : Option Op := (a.ops p)[a.pc p]?

/-- A tick inside of a burst. -/
def countDown (a : Account nproc) (p : Fin nproc) (op : Op) : Account nproc :=
  { a with
    ops := Function.update a.ops p ((a.ops p).set (a.pc p) { op with time := op.time - 1 })
    time_remaining := Function.update a.time_remaining p (op.time - 1 + 1) }

/-- `pc` moves to `op`. -/
def advance (a : Account nproc) (p : Fin nproc) (op : Op) : Account nproc :=
  { a with
    pc := Function.update a.pc p (a.pc p + 1)
    time_remaining := Function.update a.time_remaining p (op.time + 1) }

def submit (a : Account nproc) (p : Fin nproc) (time : UInt32) : Account nproc :=
  { a with io_queue := a.io_queue ++ [(p, time)] }

/-- What a tick of a process does, by the operation it finds, and the event it stores. -/
inductive Tick (a : Account nproc) (p : Fin nproc) : Account nproc → Option CpuState → Prop
  | burst {op event} : a.op p = some op → op.type = .cpu → 0 < op.time →
      (event = none ∨ event = some .preempt) → Tick a p (a.countDown p op) event
  | request {op op'} : a.op p = some op → op.type = .cpu → op.time = 0 →
      (a.ops p)[a.pc p + 1]? = some op' → op'.type = .io →
      Tick a p ((a.advance p op').submit p op'.time) (some .yield)
  | exit {op op'} : a.op p = some op → op.type = .cpu → op.time = 0 →
      (a.ops p)[a.pc p + 1]? = some op' → op'.type = .terminate →
      Tick a p (a.advance p op') (some .terminate)
  | nextBurst {op op'} : a.op p = some op → op.type = .cpu → op.time = 0 →
      (a.ops p)[a.pc p + 1]? = some op' → op'.type = .cpu → Tick a p (a.advance p op') none
  | blocked {op} : a.op p = some op → op.type ≠ .cpu → Tick a p a none

end Account

/-- The event that a step stored for a CPU. -/
def storedEvent (es : List (Event ncpu nproc)) : Option CpuState :=
  es.findSome? fun
    | .stored _ state => some state
    | .called .. | .running _ | .simulated .. => none

section Steps
variable {s s' : Sim ncpu nproc} {c : Fin ncpu} {p : Fin nproc} {es : List (Event ncpu nproc)}

theorem account_signal (s : Sim ncpu nproc) (c : Fin ncpu) : (s.signal c).account = s.account := by
  rw [Sim.signal]
  split
  · split <;> rfl
  · split <;> rfl

theorem account_raise (s : Sim ncpu nproc) (c : Fin ncpu) (v : CpuState) (k : Cont) :
    (s.raise c v k).account = s.account := by
  rw [Sim.raise]
  exact account_signal (s.setCpuState c v) c

theorem op_incPc (s : Sim ncpu nproc) (p : Fin nproc) :
    (s.incPc p).op p = (s.ops p)[s.pc p + 1]? := by
  simp [Sim.op, Sim.incPc]

/-- A tick is a tick of the account, whichever CPU makes it, and shows its process. -/
theorem simulateProcess_tick (h : s.simulateProcess c p = some (s', es)) :
    s.account.Tick p s'.account (storedEvent es) ∧
      ∃ type, ∀ q type', .simulated q type' ∈ es ↔ q = p ∧ type' = type := by
  obtain ⟨op, hop, h⟩ := Option.bind_eq_some_iff.mp h
  split at h
  case h_1 htype =>
    split at h
    case isTrue htime =>
      dsimp only at h
      split at h
      · obtain ⟨rfl, rfl⟩ := Prod.mk.inj (Option.some_inj.mp h)
        refine ⟨?_, .cpu, by simp⟩
        rw [account_raise]
        exact .burst hop htype htime (.inr rfl)
      · obtain ⟨rfl, rfl⟩ := Prod.mk.inj (Option.some_inj.mp h)
        exact ⟨.burst hop htype htime (.inl rfl), .cpu, by simp⟩
    case isFalse htime =>
      have hzero : op.time = 0 := UInt32.le_zero_iff.mp (UInt32.not_lt.mp htime)
      obtain ⟨op', hop', h⟩ := Option.bind_eq_some_iff.mp h
      have hnext : (s.account.ops p)[s.account.pc p + 1]? = some op' :=
        (op_incPc s p).symm.trans hop'
      split at h
      case h_1 htype' =>
        obtain ⟨rfl, rfl⟩ := Prod.mk.inj (Option.some_inj.mp h)
        refine ⟨?_, .cpu, by simp⟩
        rw [account_raise]
        exact .request hop htype hzero hnext htype'
      case h_2 htype' =>
        obtain ⟨rfl, rfl⟩ := Prod.mk.inj (Option.some_inj.mp h)
        refine ⟨?_, .cpu, by simp⟩
        rw [account_raise]
        exact .exit hop htype hzero hnext htype'
      case h_3 htype' =>
        obtain ⟨rfl, rfl⟩ := Prod.mk.inj (Option.some_inj.mp h)
        exact ⟨.nextBurst hop htype hzero hnext htype', .cpu, by simp⟩
  case h_2 htype =>
    obtain ⟨rfl, rfl⟩ := Prod.mk.inj (Option.some_inj.mp h)
    exact ⟨.blocked hop (by simp [htype]), .io, by simp⟩
  case h_3 htype =>
    obtain ⟨rfl, rfl⟩ := Prod.mk.inj (Option.some_inj.mp h)
    exact ⟨.blocked hop (by simp [htype]), .terminate, by simp⟩

/-- A tick returns while `pc` is inside of the array and does not leave it. -/
theorem simulateProcess_returns (c : Fin ncpu) {op op' : Op} (hop : s.op p = some op)
    (hop' : (s.ops p)[s.pc p + 1]? = some op') :
    ∃ s' es, s.simulateProcess c p = some (s', es) := by
  rw [Sim.simulateProcess, hop, Option.bind_eq_bind, Option.bind_some]
  split
  · split
    · dsimp only
      split
      · exact ⟨_, _, rfl⟩
      · exact ⟨_, _, rfl⟩
    · dsimp only
      rw [op_incPc, hop', Option.bind_some]
      split
      · exact ⟨_, _, rfl⟩
      · exact ⟨_, _, rfl⟩
      · exact ⟨_, _, rfl⟩
  · exact ⟨_, _, rfl⟩
  · exact ⟨_, _, rfl⟩

/-- What `simulate_io` does to the account. -/
inductive Account.Io (a : Account nproc) : Account nproc → Option (Fin nproc) → Prop
  | none : a.io_queue = [] → Io a a none
  | wait {p time rest} : a.io_queue = (p, time) :: rest → 0 < time →
      Io a { a with io_queue := (p, time - 1) :: rest } none
  | complete {p rest op} : a.io_queue = (p, 0) :: rest → (a.ops p)[a.pc p + 1]? = some op →
      Io a { a.advance p op with io_queue := rest } (some p)

/-- The process that `simulate_io` has chosen to wake up. -/
def woken (s : Sim ncpu nproc) : Option (Fin nproc) :=
  match s.supervisor with
  | .wake process .io => some process
  | _ => none

theorem simulateIo_io (h : s.simulateIo = some s') : s.account.Io s'.account (woken s') := by
  rw [Sim.simulateIo] at h
  split at h
  case h_1 hnil =>
    obtain rfl := Option.some_inj.mp h
    exact .none hnil
  case h_2 p time rest hcons =>
    split at h
    case isTrue htime =>
      obtain ⟨op, hop, h⟩ := Option.bind_eq_some_iff.mp h
      obtain rfl := Option.some_inj.mp h
      obtain rfl := UInt32.le_zero_iff.mp htime
      exact .complete hcons ((op_incPc s p).symm.trans hop)
    case isFalse htime =>
      obtain rfl := Option.some_inj.mp h
      exact .wait hcons (UInt32.not_le.mp htime)

end Steps

/-! ## What a turn does to the account -/

variable {cfg : Config} {s s' : Sim ncpu nproc} {es : List (Event ncpu nproc)}

section
variable {ncaller : Nat} {scheduling_alg : Char} {r r' : State ncpu nproc ncaller}

theorem push_time (h : r.push p = some r') : r'.time_remaining = r.time_remaining := by
  obtain ⟨q, -, rfl⟩ := Option.map_eq_some_iff.mp h
  rfl

theorem cpuStep_time {c : Fin ncpu} (h : r.cpuStep scheduling_alg c = some r') :
    r'.time_remaining = r.time_remaining := by
  rw [State.cpuStep.eq_def] at h
  cases hc : r.cpu c <;> rw [hc] at h <;> dsimp only at h
  case idling | running | condWait => simp at h
  case idle | setRunning | setCurrent | contextSwitch =>
    obtain rfl := Option.some_inj.mp h
    rfl
  case preempt | yield | terminate | popFromQueue =>
    obtain ⟨_, -, rfl⟩ := Option.map_eq_some_iff.mp h
    rfl
  case pushToQueue =>
    obtain ⟨_, hpush, rfl⟩ := Option.map_eq_some_iff.mp h
    have htime := push_time hpush
    exact htime

theorem callerStep_time {w : Fin ncaller} (h : r.callerStep scheduling_alg w = some r') :
    r'.time_remaining = r.time_remaining := by
  rw [State.callerStep.eq_def] at h
  cases hw : r.caller w <;> rw [hw] at h <;> dsimp only at h
  case ret => simp at h
  case wakeUp | scan | forcePreempt =>
    obtain rfl := Option.some_inj.mp h
    rfl
  case compare =>
    split at h
    · obtain rfl := Option.some_inj.mp h
      rfl
    · obtain rfl := Option.some_inj.mp h
      rfl
  case pushToQueue =>
    obtain ⟨_, hpush, rfl⟩ := Option.map_eq_some_iff.mp h
    have htime := push_time hpush
    exact htime

end

/-- The turn leaves the account alone and simulates no process. -/
def Quiet (s s' : Sim ncpu nproc) (es : List (Event ncpu nproc)) : Prop :=
  s'.account = s.account ∧ ∀ p type, .simulated p type ∉ es

theorem quiet_sched {sched : State ncpu nproc 1}
    (h : sched.time_remaining = s.sched.time_remaining) : { s with sched }.account = s.account := by
  rw [Sim.account, h, Sim.account]

theorem threadStep_quiet {c : Fin ncpu} (h : s.threadStep cfg c = some (s', es)) :
    Quiet s s' es := by
  rw [Sim.threadStep.eq_def] at h
  cases hc : s.thread c <;> rw [hc] at h <;> dsimp only at h
  case asleep => simp at h
  case top =>
    split at h
    · simp at h
    · have hs : s.topSection c = (s', es) := Option.some_inj.mp h
      unfold Sim.topSection at hs
      dsimp only at hs
      split at hs
      · obtain ⟨rfl, rfl⟩ := Prod.mk.inj hs
        exact ⟨account_signal s c, by simp⟩
      · obtain ⟨rfl, rfl⟩ := Prod.mk.inj hs
        exact ⟨account_signal s c, by simp⟩
  case signalled =>
    split at h
    · simp at h
    · obtain ⟨rfl, rfl⟩ := Prod.mk.inj (Option.some_inj.mp h)
      exact ⟨rfl, by simp⟩
  case dispatch state =>
    cases state <;> dsimp only at h
    case idle | running =>
      obtain ⟨rfl, rfl⟩ := Prod.mk.inj (Option.some_inj.mp h)
      exact ⟨rfl, by simp⟩
    all_goals
      split at h
      · simp at h
      · obtain ⟨rfl, rfl⟩ := Prod.mk.inj (Option.some_inj.mp h)
        exact ⟨rfl, by simp⟩
  case counted =>
    split at h
    · simp at h
    · obtain ⟨rfl, rfl⟩ := Prod.mk.inj (Option.some_inj.mp h)
      exact ⟨rfl, by simp⟩
  case student state =>
    split at h
    · split at h
      · simp at h
      · obtain ⟨rfl, rfl⟩ := Prod.mk.inj (Option.some_inj.mp h)
        exact ⟨rfl, by simp⟩
    · obtain ⟨sched, hstep, heq⟩ := Option.map_eq_some_iff.mp h
      obtain ⟨rfl, rfl⟩ := Prod.mk.inj heq
      exact ⟨quiet_sched (cpuStep_time hstep), by simp⟩
  case unlocked state =>
    split at h
    · split at h
      · simp at h
      · obtain ⟨s₁, hswitch, heq⟩ := Option.map_eq_some_iff.mp h
        obtain ⟨rfl, rfl⟩ := Prod.mk.inj heq
        obtain ⟨sched, hstep, rfl⟩ := Option.map_eq_some_iff.mp hswitch
        exact ⟨quiet_sched (cpuStep_time hstep), by simp⟩
    · simp at h
  case published | returned =>
    split at h
    · simp at h
    · obtain ⟨rfl, rfl⟩ := Prod.mk.inj (Option.some_inj.mp h)
      exact ⟨rfl, by simp⟩

/-- Outside of `simulate_cpus` and `simulate_io` the supervisor is quiet. -/
theorem supervisorStep_quiet (h : s.supervisorStep cfg = some (s', es))
    (hcpus : ∀ n, s.supervisor ≠ .cpus n) (hio : s.supervisor ≠ .io) : Quiet s s' es := by
  rw [Sim.supervisorStep.eq_def] at h
  cases hsup : s.supervisor <;> rw [hsup] at h <;> try dsimp only at h
  case wait | exited => simp at h
  case cpus n => exact absurd hsup (hcpus n)
  case io => exact absurd hsup hio
  case lock | reading | done | wake =>
    obtain ⟨rfl, rfl⟩ := Prod.mk.inj (Option.some_inj.mp h)
    exact ⟨rfl, by simp⟩
  case gantt =>
    split at h
    · simp at h
    · obtain ⟨rfl, rfl⟩ := Prod.mk.inj (Option.some_inj.mp h)
      exact ⟨rfl, by simp⟩
  case resume c k =>
    cases k <;>
    · obtain ⟨rfl, rfl⟩ := Prod.mk.inj (Option.some_inj.mp h)
      exact ⟨rfl, by simp⟩
  case creat =>
    obtain ⟨rfl, rfl⟩ := Prod.mk.inj (Option.some_inj.mp h)
    refine ⟨?_, by simp⟩
    rw [Sim.simulateCreat]
    split <;> rfl
  case waking back =>
    obtain ⟨s₁, hwake, heq⟩ := Option.map_eq_some_iff.mp h
    obtain ⟨rfl, rfl⟩ := Prod.mk.inj heq
    refine ⟨?_, by simp⟩
    rw [Sim.wakeUpStep.eq_def] at hwake
    split at hwake
    · obtain rfl := Option.some_inj.mp hwake
      rfl
    · obtain rfl := Option.some_inj.mp hwake
      rfl
    · obtain ⟨sched, hstep, rfl⟩ := Option.map_eq_some_iff.mp hwake
      exact quiet_sched (callerStep_time hstep)
  case forceUnlocked c back =>
    obtain hs := Option.some_inj.mp h
    rw [Sim.forcePreempt] at hs
    split at hs
    · obtain ⟨rfl, rfl⟩ := Prod.mk.inj hs
      exact ⟨account_raise .., by simp⟩
    · obtain ⟨rfl, rfl⟩ := Prod.mk.inj hs
      exact ⟨rfl, by simp⟩
  case forced back =>
    obtain ⟨sched, hstep, heq⟩ := Option.map_eq_some_iff.mp h
    obtain ⟨rfl, rfl⟩ := Prod.mk.inj heq
    exact ⟨quiet_sched (callerStep_time hstep), by simp⟩
  case woken back =>
    cases back <;>
    · obtain ⟨rfl, rfl⟩ := Prod.mk.inj (Option.some_inj.mp h)
      exact ⟨rfl, by simp⟩

/-- In `simulate_cpus` the supervisor is quiet or simulates the process of the CPU it is at. -/
theorem supervisorStep_cpus {n : Nat} (h : s.supervisorStep cfg = some (s', es))
    (hsup : s.supervisor = .cpus n) :
    (∃ c p, c.val = n ∧ (s.simulator_cpu_data c).current = some p ∧
      s.simulateProcess c p = some (s', es)) ∨
    (∀ c, c.val = n → (s.simulator_cpu_data c).current = none) ∧ Quiet s s' es := by
  rw [Sim.supervisorStep.eq_def, hsup] at h
  dsimp only at h
  split at h
  · rename_i hn
    split at h
    · rename_i p hp
      exact .inl ⟨⟨n, hn⟩, p, rfl, hp, h⟩
    · rename_i hnone
      obtain ⟨rfl, rfl⟩ := Prod.mk.inj (Option.some_inj.mp h)
      refine .inr ⟨?_, rfl, by simp⟩
      rintro c rfl
      exact hnone
  · rename_i hn
    obtain ⟨rfl, rfl⟩ := Prod.mk.inj (Option.some_inj.mp h)
    refine .inr ⟨?_, rfl, by simp⟩
    rintro c rfl
    exact absurd c.isLt hn

theorem supervisorStep_io (h : s.supervisorStep cfg = some (s', es)) (hsup : s.supervisor = .io) :
    s.simulateIo = some s' ∧ es = [] := by
  rw [Sim.supervisorStep.eq_def, hsup] at h
  obtain ⟨s₁, hio, heq⟩ := Option.map_eq_some_iff.mp h
  obtain ⟨rfl, rfl⟩ := Prod.mk.inj heq
  exact ⟨hio, rfl⟩

theorem supervisorStep_cases (h : s.supervisorStep cfg = some (s', es)) :
    Quiet s s' es ∨ (∃ c p, s.simulateProcess c p = some (s', es)) ∨
      s.simulateIo = some s' ∧ es = [] := by
  by_cases hcpus : ∃ n, s.supervisor = .cpus n
  · obtain ⟨n, hn⟩ := hcpus
    rcases supervisorStep_cpus h hn with ⟨c, p, -, -, hprocess⟩ | ⟨-, hquiet⟩
    · exact .inr (.inl ⟨c, p, hprocess⟩)
    · exact .inl hquiet
  by_cases hio : s.supervisor = .io
  · exact .inr (.inr (supervisorStep_io h hio))
  · exact .inl (supervisorStep_quiet h (fun n hn => hcpus ⟨n, hn⟩) hio)

/-- The CPU threads never touch the account. -/
theorem next_quiet {t : Turn ncpu} (h : s.next cfg t = some (s', es)) (ht : t ≠ .supervisor) :
    Quiet s s' es := by
  rw [Sim.next.eq_def] at h
  cases t <;> dsimp only at h
  case supervisor => exact absurd rfl ht
  case thread c =>
    split at h
    · simp at h
    · exact threadStep_quiet h
  case spurious c =>
    split at h
    · simp at h
    · obtain ⟨s₁, hspurious, heq⟩ := Option.map_eq_some_iff.mp h
      obtain ⟨rfl, rfl⟩ := Prod.mk.inj heq
      obtain ⟨sched, hstep, rfl⟩ := Option.map_eq_some_iff.mp hspurious
      refine ⟨quiet_sched ?_, by simp⟩
      rw [State.spurious] at hstep
      split at hstep
      · obtain rfl := Option.some_inj.mp hstep
        rfl
      · simp at hstep

/-- A turn is quiet, or a tick of a process, or the section of `simulate_io`. -/
theorem next_cases {t : Turn ncpu} (h : s.next cfg t = some (s', es)) :
    Quiet s s' es ∨ (∃ c p, s.simulateProcess c p = some (s', es)) ∨
      s.simulateIo = some s' ∧ es = [] := by
  by_cases ht : t = .supervisor
  · subst ht
    exact supervisorStep_cases h
  · exact .inl (next_quiet h ht)

end ECE3056.Scheduling
