import ECE3056.Library.Fairness
import ECE3056.Library.Tally
import ECE3056.Scheduling.Progress

/-!
# Fair runs of the simulator

An infinite run in which every turn is calm and the supervisor and every CPU thread
are treated fairly. Unless the simulator has exited, the supervisor comes round to the
top of its loop again and again, where `simulator_mutex` is free and every thread
that is not blocked can move; and so every such thread moves.
-/

namespace ECE3056.Scheduling

open ECE3056.Custody ECE3056.Fairness ECE3056.Tally

variable {ncpu nproc : Nat} {cfg : Config}
variable {s s' : Sim ncpu nproc} {place : Fin nproc → Thread ncpu 1 ⊕ Rest} {c d : Fin ncpu}
variable {t : Turn ncpu}

/-- A turn that does not store an event in the gap. -/
def CalmStep (cfg : Config) (s : Sim ncpu nproc) (t : Turn ncpu) (s' : Sim ncpu nproc) : Prop :=
  s.calm t = true ∧ ∃ es, s.next cfg t = some (s', es)

def Sim.Enabled (cfg : Config) (s : Sim ncpu nproc) (t : Turn ncpu) : Prop :=
  ∃ r, s.next cfg t = some r

/-- A run from `start_simulator` on. A thread that can take `simulator_mutex`, or an `IRWL` lock,
again and again gets it again and again. -/
structure FairRun (cfg : Config) (r : Trace (@CalmStep ncpu nproc cfg)) : Prop where
  initial : (r.state 0).Initial
  supervisor : r.Fair (Sim.Enabled cfg) .supervisor
  thread : ∀ c, r.Fair (Sim.Enabled cfg) (.thread c)

/-! ## How far the supervisor is from the top of its loop -/

/-- The steps that are left of `wake_up`. -/
def Caller.stepsLeft : Caller ncpu nproc → Nat
  | ret => 0
  | forcePreempt _ => 1
  | compare .. => 2
  | scan _ => 3
  | pushToQueue _ => 4
  | wakeUp _ => 5

/-- The places of the supervisor, in the order in which it comes to them. -/
def Supervisor.distance (caller : Caller ncpu nproc) : Supervisor ncpu nproc → Nat
  | lock | exited | forceUnlocked .. | forced _ => 0
  | done => 1
  | woken .creat => 2
  | waking .creat => 3 + caller.stepsLeft
  | wake _ .creat => 9
  | creat => 10
  | woken .io => 11
  | waking .io => 12 + caller.stepsLeft
  | wake _ .io => 18
  | io => 19
  | cpus n => 20 + 3 * (ncpu - n)
  | resume c _ => 21 + 3 * (ncpu - (c + 1))
  | wait c _ => 22 + 3 * (ncpu - (c + 1))
  | reading => 21 + 3 * ncpu
  | gantt => 22 + 3 * ncpu

def Sim.distance (s : Sim ncpu nproc) : Nat := s.supervisor.distance (s.sched.caller 0)

/-- The turns that the thread takes which the supervisor waits for. -/
def Sim.waitTurns (s : Sim ncpu nproc) : Nat :=
  match s.supervisor with
  | .wait c _ => s.turnsLeft c
  | _ => 0

theorem Sim.waitTurns_le (s : Sim ncpu nproc) : s.waitTurns ≤ 12 := by
  rw [waitTurns]
  split
  · exact CpuThread.turnsLeft_le ..
  · omega

theorem callerStep_stepsLeft {r r' : State ncpu nproc 1} {alg : Char}
    (hs : r.callerStep alg 0 = some r') :
    (r'.caller 0).stepsLeft < (r.caller 0).stepsLeft := by
  rw [State.callerStep] at hs
  cases hpc : r.caller 0 <;> rw [hpc] at hs <;> dsimp only at hs
  case ret => simp at hs
  case pushToQueue p =>
    obtain ⟨x, -, rfl⟩ := Option.map_eq_some_iff.mp hs
    rw [caller_setCaller_self]
    split <;> simp [Caller.stepsLeft]
  case compare p low_id low =>
    cases low_id <;> rw [← Option.some_inj.mp hs, caller_setCaller_self]
    · simp [Caller.stepsLeft]
    · split <;> simp [Caller.stepsLeft]
  all_goals
    rw [← Option.some_inj.mp hs, caller_setCaller_self]
    simp [Caller.stepsLeft]

/-- Every move of the supervisor brings it closer to the top of its loop. -/
theorem SupervisorTurn.distance_lt (hs : SupervisorTurn cfg s s') (hlock : s.supervisor ≠ .lock) :
    s'.distance < s.distance := by
  rw [Sim.distance, Sim.distance]
  cases hs with
  | exit hsup | start hsup => exact absurd hsup hlock
  | @tick c p event s' hsup _ htick =>
    have hc := c.isLt
    rw [htick.supervisor, hsup]
    split <;> simp only [Supervisor.distance] <;> omega
  | @skip c hsup =>
    have hc := c.isLt
    rw [hsup]
    simp only [Sim.setSupervisor, Supervisor.distance]
    omega
  | @inside back sched hsup hstep =>
    have hlt := callerStep_stepsLeft hstep
    rw [hsup]
    cases back <;> simp only [Supervisor.distance] <;> omega
  | @wake p back hsup =>
    rw [hsup, show Sim.supervisor (Sim.setSupervisor _ _) = .waking back from rfl]
    cases back <;> simp [Sim.setSupervisor, Supervisor.distance, Caller.stepsLeft]
  | @woken back hsup hret =>
    rw [hsup, hret]
    cases back <;> simp [Sim.setSupervisor, Supervisor.distance, Caller.stepsLeft]
  | read hsup | simulate hsup | simulated hsup | resume hsup | noRequest hsup | request hsup
  | complete hsup | creat _ hsup | noCreat hsup | done hsup | wokenIo hsup | wokenCreat hsup =>
    rw [hsup]
    simp only [Sim.setSupervisor, Supervisor.distance]
    omega

/-! ## The writers that the supervisor waits for -/

/-- The `IRWL_WRITER_UNLOCK`s that a thread will still execute while the supervisor has
`simulator_mutex`, and the `IRWL_WRITER_LOCK`s before them. -/
def CpuThread.macrosLeft : CpuThread → Nat
  | published state => if state = CpuState.idle then 0 else 2
  | returned => 1
  | top | asleep | signalled | dispatch _ | counted | student _ | unlocked _ => 0

theorem ThreadTurn.macrosLeft (hs : ThreadTurn cfg s c s') (hsup : s.supervisor = .gantt) :
    (s'.thread c).macrosLeft ≤ (s.thread c).macrosLeft ∧
      (s.thread c = .returned → (s'.thread c).macrosLeft < (s.thread c).macrosLeft) := by
  cases hs with
  | idle _ hfree | sleep _ hfree | read _ hfree | count _ hfree | publish _ _ hfree =>
    rw [hsup] at hfree
    simp [Supervisor.holdsMutex] at hfree
  | callIdle hc =>
    rw [hc, thread_setThread]
    simp [CpuThread.macrosLeft]
  | @call state hcalls =>
    have hthread : (s.callHandler c state (Coherent.entry state)).1.thread c = .student state :=
      thread_setThread ..
    rw [hthread]
    refine ⟨Nat.zero_le _, fun hc => ?_⟩
    rw [hc] at hcalls
    exact hcalls.elim
  | inside hc => exact ⟨le_rfl, fun hret => by simp [hc] at hret⟩
  | unlock hc =>
    rw [hc, thread_setThread]
    simp [CpuThread.macrosLeft]
  | @relock state hc =>
    rw [hc, thread_setThread]
    by_cases hidle : state = .idle <;> simp [hidle, CpuThread.macrosLeft]
  | back hc =>
    rw [hc, thread_setThread]
    simp [CpuThread.macrosLeft]

def Sim.macrosLeft (s : Sim ncpu nproc) : Nat := ∑ c, (s.thread c).macrosLeft

theorem ThreadTurn.sum_macrosLeft (h : Coherent s place) (hs : ThreadTurn cfg s c s') :
    s'.macrosLeft + (s.thread c).macrosLeft = s.macrosLeft + (s'.thread c).macrosLeft :=
  sum_change (f := fun d => (s.thread d).macrosLeft) (g := fun d => (s'.thread d).macrosLeft)
    (Finset.mem_univ c) fun d _ hd => by rw [(hs.frame h).thread d hd]

/-- While the supervisor waits for the writers, they can only become fewer. -/
theorem Moved.macrosLeft_le (h : Coherent s place) (hsup : s.supervisor = .gantt)
    (hs : Moved cfg s t s') : s'.macrosLeft ≤ s.macrosLeft := by
  cases hs with
  | supervisor hmove =>
    cases hmove with
    | tick hsup' | inside hsup' =>
      rw [hsup] at hsup'
      simp at hsup'
    | _ => exact le_rfl
  | thread _ hmove =>
    have hsum := hmove.sum_macrosLeft h
    have hle := (hmove.macrosLeft hsup).1
    omega
  | spurious => exact le_rfl

theorem ThreadTurn.time (hs : ThreadTurn cfg s c s') : s'.simulator_time = s.simulator_time := by
  cases hs with
  | idle | sleep =>
    show (s.signal c).simulator_time = _
    rw [Sim.signal.eq_def]
    split <;> split <;> rfl
  | read | count | callIdle | call | inside | unlock | publish | relock | back => rfl

/-- The supervisor stands where it stood, and it is as late as it was. -/
structure SameSupervisor (s s' : Sim ncpu nproc) : Prop where
  supervisor : s'.supervisor = s.supervisor
  caller : s'.sched.caller 0 = s.sched.caller 0
  time : s'.simulator_time = s.simulator_time

theorem SameSupervisor.refl (s : Sim ncpu nproc) : SameSupervisor s s := ⟨rfl, rfl, rfl⟩

theorem SameSupervisor.trans {s'' : Sim ncpu nproc} (h : SameSupervisor s s')
    (h' : SameSupervisor s' s'') : SameSupervisor s s'' :=
  ⟨h'.supervisor.trans h.supervisor, h'.caller.trans h.caller, h'.time.trans h.time⟩

/-- The others leave a supervisor that does not wait where it is. -/
theorem Moved.supervisor_other (h : Coherent s place) (hwait : ∀ c k, s.supervisor ≠ .wait c k)
    (ht : t ≠ .supervisor) (hs : Moved cfg s t s') : SameSupervisor s s' := by
  cases hs with
  | supervisor => exact absurd rfl ht
  | thread _ hmove =>
    have hf := hmove.frame h
    refine ⟨?_, hf.caller_eq, hmove.time⟩
    rcases hf.supervisor with heq | ⟨k, hw, -⟩
    · exact heq
    · exact absurd hw (hwait _ k)
  | spurious => exact ⟨rfl, rfl, rfl⟩

theorem Moved.threadTurn (hs : Moved cfg s (.thread c) s') : ThreadTurn cfg s c s' := by
  cases hs with
  | thread _ hmove => exact hmove

theorem Moved.supervisorTurn (hs : Moved cfg s .supervisor s') : SupervisorTurn cfg s s' := by
  cases hs with
  | supervisor hmove => exact hmove

/-! ## The states of a fair run -/

variable {r : Trace (@CalmStep ncpu nproc cfg)} {n : ℕ}

namespace FairRun

theorem run (hr : FairRun cfg r) (i : ℕ) : ∃ es, Sim.Run cfg Sim.calm (r.state i) es := by
  refine Trace.stable (p := fun s => ∃ es, Sim.Run cfg Sim.calm s es) (n := 0)
    ⟨[], .initial hr.initial⟩ ?_ i (Nat.zero_le i)
  rintro i - t ⟨es, hs⟩ ⟨hcalm, es', hnext⟩
  exact ⟨_, hs.step hcalm hnext⟩

theorem coherent (hr : FairRun cfg r) (i : ℕ) : ∃ place, Coherent (r.state i) place := by
  obtain ⟨es, hs⟩ := hr.run i
  exact hs.coherent

theorem moved (hr : FairRun cfg r) {i : ℕ} (hstep : CalmStep cfg (r.state i) t s') :
    Moved cfg (r.state i) t s' := by
  obtain ⟨es, hs⟩ := hr.run i
  obtain ⟨hcalm, es', hnext⟩ := hstep
  exact hs.moved hcalm hnext

end FairRun

/-- A fair run in which the simulator does not exit. -/
structure Endless (cfg : Config) (r : Trace (@CalmStep ncpu nproc cfg)) : Prop
    extends FairRun cfg r where
  running : ∀ i, (r.state i).supervisor ≠ .exited

namespace Endless

/-- The supervisor does not wait for the writers forever. -/
theorem writers_leave (hr : Endless cfg r) (hgantt : ∀ i ≥ n, (r.state i).supervisor = .gantt)
    (m : ℕ) : ∃ i ≥ m, (r.state i).writers ≤ 0 := by
  by_contra hnone
  push Not at hnone
  -- from here on some thread has returned, and each that leaves lets fewer follow
  obtain ⟨k, hk, hsettled⟩ := settles (f := fun i => (r.state i).macrosLeft) (n := max m n) (by
    intro i hi
    rcases r.next i with ⟨-, hsame⟩ | ⟨t, -, hstep⟩
    · rw [hsame]
    · obtain ⟨place, h⟩ := hr.coherent i
      exact (hr.moved hstep).macrosLeft_le h (hgantt i ((le_max_right m n).trans hi)))
  have hkm : m ≤ k := (le_max_left m n).trans hk
  have hkn : n ≤ k := (le_max_right m n).trans hk
  obtain ⟨place, h⟩ := hr.coherent k
  obtain ⟨es, hs⟩ := hr.run k
  obtain ⟨c, hc⟩ := h.returned_of_gantt hs.balanced (hgantt k hkn) (hnone k hkm)
  obtain ⟨i, hi, -, hret, hstep⟩ := Trace.taken (p := fun s => s.thread c = .returned)
    (hr.thread c) hc (by
      intro i _ t ht hret hstep
      obtain ⟨place, h⟩ := hr.coherent i
      have hb : ¬ (r.state i).Blocked c := by
        rintro (hasleep | hwait)
        · simp [hret] at hasleep
        · rcases h.cpuOkAt hret with ⟨hcpu, -⟩ | ⟨hcpu, -⟩ <;> simp [hwait] at hcpu
      exact ((hr.moved hstep).other h hb ht).1.trans hret) (by
      intro hall j
      have hj : k ≤ max k j := le_max_left ..
      refine ⟨max k j, le_max_right .., ?_⟩
      rw [Sim.Enabled, Sim.next.eq_def]
      dsimp only
      rw [if_neg (hr.running _), Sim.threadStep, hall _ hj]
      dsimp only
      rw [if_neg (by simp [hgantt _ (hkn.trans hj)])]
      exact ⟨_, rfl⟩)
  obtain ⟨place', h'⟩ := hr.coherent i
  have hmove := (hr.moved hstep).threadTurn
  have hsum := hmove.sum_macrosLeft h'
  have hlt := (hmove.macrosLeft (hgantt i (hkn.trans hi))).2 hret
  have heq := hsettled i hi
  have heq' := hsettled (i + 1) (Nat.le_succ_of_le hi)
  omega

/-- Where it does not wait for a CPU, the supervisor moves in the end. -/
theorem supervisor_moves (hr : Endless cfg r)
    (hwait : ∀ c k, (r.state n).supervisor ≠ .wait c k) :
    ∃ i ≥ n, SameSupervisor (r.state n) (r.state i) ∧
      SupervisorTurn cfg (r.state i) (r.state (i + 1)) := by
  obtain ⟨i, hi, -, hsame, hstep⟩ := Trace.taken (p := SameSupervisor (r.state n))
    hr.supervisor (.refl _) (by
      intro i _ t ht hsame hstep
      obtain ⟨place, h⟩ := hr.coherent i
      exact hsame.trans ((hr.moved hstep).supervisor_other h (by rwa [hsame.supervisor]) ht)) (by
      intro hall m
      by_cases hgantt : (r.state n).supervisor = .gantt
      · obtain ⟨i, hi, hw⟩ := hr.writers_leave (n := n)
          (fun i hi => (hall i hi).supervisor.trans hgantt) (max m n)
        have hin : n ≤ i := (le_max_right m n).trans hi
        refine ⟨i, (le_max_left m n).trans hi, ?_⟩
        obtain ⟨place, h⟩ := hr.coherent i
        refine h.supervisorStep_isSome cfg (hr.running i) ?_ fun _ => hw
        rw [(hall i hin).supervisor]
        exact hwait
      · have hj : n ≤ max n m := le_max_left ..
        refine ⟨max n m, le_max_right .., ?_⟩
        obtain ⟨place, h⟩ := hr.coherent (max n m)
        refine h.supervisorStep_isSome cfg (hr.running _) ?_ ?_
        · rw [(hall _ hj).supervisor]
          exact hwait
        · rw [(hall _ hj).supervisor]
          exact fun hg => absurd hg hgantt)
  exact ⟨i, hi, hsame, (hr.moved hstep).supervisorTurn⟩

/-- The supervisor comes to the top of its loop again and again. -/
theorem comes_to_lock (hr : Endless cfg r) (n : ℕ) : ∃ i ≥ n, (r.state i).supervisor = .lock := by
  -- a turn of the thread waited for counts one, a place of the supervisor more than all of them
  refine leads_to (P := fun _ => True)
    (f := fun i => 13 * (r.state i).distance + (r.state i).waitTurns) ?_ (n := n) trivial
  intro n _
  by_cases hlock : (r.state n).supervisor = .lock
  · exact ⟨n, le_rfl, .inl hlock⟩
  by_cases hbusy : ∃ c, (r.state n).Busy c
  · obtain ⟨c, k, hwait⟩ := hbusy
    obtain ⟨es, hs⟩ := hr.run n
    obtain ⟨i, hi, -, ⟨hwait', hans, heq⟩, hstep⟩ := Trace.taken
      (p := fun s => s.supervisor = .wait c k ∧ s.Answers c ∧
        s.turnsLeft c = (r.state n).turnsLeft c)
      (hr.thread c) ⟨hwait, hs.attended c k hwait, rfl⟩ (by
        rintro i - t ht ⟨hwait', hans, heq⟩ hstep
        obtain ⟨place, h⟩ := hr.coherent i
        obtain ⟨h₁, h₂, h₃⟩ := (hr.moved hstep).answers_other h hwait' hans ht
        exact ⟨h₁, h₂, h₃.trans heq⟩) (by
        intro hall m
        obtain ⟨hwait', hans, -⟩ := hall (max n m) (le_max_left ..)
        obtain ⟨place, h⟩ := hr.coherent (max n m)
        exact ⟨max n m, le_max_right .., h.answers_isSome cfg hwait' hans⟩)
    obtain ⟨place, h⟩ := hr.coherent i
    refine ⟨i + 1, Nat.le_succ_of_le hi, .inr ⟨trivial, ?_⟩⟩
    have hle := (r.state (i + 1)).waitTurns_le
    rcases (hr.moved hstep).threadTurn.answers h hwait' hans with hresume | ⟨hwait'', -, hlt⟩
    · rw [Sim.distance, Sim.distance, hresume, hwait]
      simp only [Supervisor.distance]
      omega
    · rw [Sim.distance, Sim.distance, Sim.waitTurns, Sim.waitTurns, hwait, hwait'']
      simp only [Supervisor.distance]
      omega
  · obtain ⟨i, hi, hsame, hmove⟩ := hr.supervisor_moves (n := n)
      fun c k hk => hbusy ⟨c, k, hk⟩
    refine ⟨i + 1, Nat.le_succ_of_le hi, .inr ⟨trivial, ?_⟩⟩
    have hlt := hmove.distance_lt (by rwa [hsame.supervisor])
    have hle := (r.state (i + 1)).waitTurns_le
    have heq : (r.state i).distance = (r.state n).distance := by
      rw [Sim.distance, Sim.distance, hsame.supervisor, hsame.caller]
    omega

/-- A thread that is not blocked moves in the end. -/
theorem thread_moves (hr : Endless cfg r) (hb : ¬ (r.state n).Blocked c) :
    ∃ i ≥ n, (r.state i).thread c = (r.state n).thread c ∧
      (r.state i).sched.cpu c = (r.state n).sched.cpu c ∧
      ThreadTurn cfg (r.state i) c (r.state (i + 1)) := by
  have hblocked : ∀ {i}, (r.state i).thread c = (r.state n).thread c →
      (r.state i).sched.cpu c = (r.state n).sched.cpu c → ¬ (r.state i).Blocked c := by
    intro i hthread hcpu
    rw [Sim.Blocked, hthread, hcpu]
    exact hb
  obtain ⟨i, hi, -, ⟨hthread, hcpu⟩, hstep⟩ := Trace.taken
    (p := fun s => s.thread c = (r.state n).thread c ∧ s.sched.cpu c = (r.state n).sched.cpu c)
    (hr.thread c) ⟨rfl, rfl⟩ (by
      rintro i - t ht ⟨hthread, hcpu⟩ hstep
      obtain ⟨place, h⟩ := hr.coherent i
      obtain ⟨hthread', hcpu'⟩ := (hr.moved hstep).other h (hblocked hthread hcpu) ht
      exact ⟨hthread'.trans hthread, hcpu'.trans hcpu⟩) (by
      intro hall m
      obtain ⟨i, hi, hlock⟩ := hr.comes_to_lock (max n m)
      obtain ⟨hthread, hcpu⟩ := hall i ((le_max_left n m).trans hi)
      refine ⟨i, (le_max_right n m).trans hi, ?_⟩
      rw [Sim.Enabled, Sim.next.eq_def]
      dsimp only
      rw [if_neg (hr.running i)]
      obtain ⟨place, h⟩ := hr.coherent i
      exact h.threadStep_isSome cfg (by rw [hlock]; rfl) (hblocked hthread hcpu))
  exact ⟨i, hi, hthread, hcpu, (hr.moved hstep).threadTurn⟩

end Endless

end ECE3056.Scheduling
