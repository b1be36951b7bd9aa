import ECE3056.Scheduling.Turns
import ECE3056.Scheduling.WriterLock

/-!
# Some thread can always move

While the supervisor waits for a CPU, the thread of that CPU is on its way back to
the top of its loop, where it signals the supervisor, and nothing that it needs is
held by anybody who waits. So the wait lasts a bounded number of turns of this one
thread, whatever the others do; and the simulator has no deadlock.
-/

namespace ECE3056.Scheduling

open ECE3056.Custody ECE3056.LockCount

variable {ncpu nproc : Nat} {cfg : Config}
variable {s s' : Sim ncpu nproc} {place : Fin nproc → Thread ncpu 1 ⊕ Rest} {c d : Fin ncpu}
variable {es es' : List (Event ncpu nproc)} {t : Turn ncpu}

/-! ## Who can move -/

/-- The thread waits for a signal or for a process. -/
def Sim.Blocked (s : Sim ncpu nproc) (c : Fin ncpu) : Prop :=
  s.thread c = .asleep ∨ s.sched.cpu c = .condWait

namespace Coherent

/-- With `simulator_mutex` free, a thread that is not blocked has a next step. -/
theorem threadStep_isSome (h : Coherent s place) (cfg : Config)
    (hfree : s.supervisor.holdsMutex = false) (hc : ¬ s.Blocked c) :
    ∃ r, s.threadStep cfg c = some r := by
  have hread : s.supervisor ≠ .reading := by
    intro heq
    rw [heq] at hfree
    simp [Supervisor.holdsMutex] at hfree
  rw [Sim.Blocked, not_or] at hc
  rw [Sim.threadStep]
  cases ht : s.thread c <;> dsimp only
  case asleep => exact absurd ht hc.1
  case top | signalled =>
    rw [hfree]
    exact ⟨_, rfl⟩
  case counted | published | returned =>
    rw [if_neg hread]
    exact ⟨_, rfl⟩
  case dispatch state =>
    cases state with
    | idle | running => exact ⟨_, rfl⟩
    | terminate =>
      dsimp only
      rw [hfree]
      exact ⟨_, rfl⟩
    | preempt | yield =>
      dsimp only
      rw [if_neg hread]
      exact ⟨_, rfl⟩
  case student state =>
    obtain ⟨hinside, -⟩ := h.cpuOkAt ht
    split
    · rw [if_neg hread]
      exact ⟨_, rfl⟩
    · have hne : s.sched.cpu c ≠ .idling ∧ s.sched.cpu c ≠ .running ∧
          s.sched.cpu c ≠ .condWait := by
        refine ⟨?_, ?_, hc.2⟩ <;> (intro heq; rw [heq] at hinside; exact hinside)
      obtain ⟨sched, -, hstep, -⟩ := h.placed.cpuStep cfg.scheduling_alg hne
      rw [hstep]
      exact ⟨_, rfl⟩
  case unlocked state =>
    obtain ⟨⟨pcb, hpc⟩, -⟩ := h.cpuOkAt ht
    rw [hpc]
    dsimp only
    rw [hfree, contextSwitch_eq hpc]
    exact ⟨_, rfl⟩

/-- The supervisor has a next step unless it waits for a CPU or for the writers. -/
theorem supervisorStep_isSome (h : Coherent s place) (cfg : Config)
    (hexit : s.supervisor ≠ .exited) (hwait : ∀ c k, s.supervisor ≠ .wait c k)
    (hgantt : s.supervisor = .gantt → s.writers ≤ 0) : ∃ r, s.supervisorStep cfg = some r := by
  have hok := h.supervisor
  unfold Sim.SupervisorOk at hok
  rw [Sim.supervisorStep]
  cases hsup : s.supervisor <;> rw [hsup] at hok <;> try dsimp only
  case wait c k => exact absurd hsup (hwait c k)
  case exited => exact absurd hsup hexit
  case gantt =>
    rw [if_neg (by have := hgantt hsup; omega)]
    exact ⟨_, rfl⟩
  case cpus n =>
    split
    · rename_i hn
      split
      · rename_i p hcur
        obtain ⟨-, -, hcpu⟩ := h.tick_owns hsup hcur
        obtain ⟨time, hop⟩ := op_eq_some hcpu
        obtain ⟨op', hop'⟩ := exists_after_cpu (h.shape p) hcpu
        obtain ⟨s', es, htick⟩ := simulateProcess_returns ⟨n, hn⟩ hop hop'
        exact ⟨_, htick⟩
      · exact ⟨_, rfl⟩
    · exact ⟨_, rfl⟩
  case resume c k => cases k <;> exact ⟨_, rfl⟩
  case io =>
    obtain ⟨s₁, hstep, -⟩ := h.step_io hsup
    rw [hstep]
    exact ⟨_, rfl⟩
  case waking back =>
    rw [Sim.wakeUpStep]
    split
    · exact ⟨_, rfl⟩
    · exact ⟨_, rfl⟩
    · rename_i hne _
      obtain ⟨sched, -, hstep, -⟩ := h.placed.callerStep (w := 0) cfg.scheduling_alg hne
      rw [hstep]
      exact ⟨_, rfl⟩
  case forceUnlocked | forced => exact hok.elim
  case woken back => cases back <;> exact ⟨_, rfl⟩
  all_goals exact ⟨_, rfl⟩

end Coherent

/-! ## The answer to an event -/

/-- How many turns the thread of a CPU takes at most to signal the supervisor. -/
def CpuThread.turnsLeft (pc : Cpu nproc) : CpuThread → Nat
  | asleep => 0
  | top => 1
  | returned => 2
  | published _ => 3
  | unlocked _ => 4
  | student _ =>
    match pc with
    | .contextSwitch _ => 5
    | .setCurrent _ => 6
    | .setRunning _ => 7
    | .popFromQueue => 8
    | .pushToQueue _ | .yield | .terminate => 9
    | .preempt => 10
    | .idling | .running | .idle | .condWait => 0
  | counted => 10
  | dispatch _ => 11
  | signalled => 12

namespace Sim

def turnsLeft (s : Sim ncpu nproc) (c : Fin ncpu) : Nat :=
  (s.thread c).turnsLeft (s.sched.cpu c)

/-- The thread has the event of the supervisor and has not signalled it yet. -/
def Answers (s : Sim ncpu nproc) (c : Fin ncpu) : Prop :=
  match s.thread c with
  | .top | .returned | .counted | .signalled => True
  | .dispatch state | .unlocked state | .published state => state.IsEvent
  | .student state => state.IsEvent ∧ s.sched.cpu c ≠ .idle ∧ s.sched.cpu c ≠ .condWait
  | .asleep => False

/-- The supervisor waits only for a thread that is on its way to signal it. -/
def Attended (s : Sim ncpu nproc) : Prop := ∀ c k, s.supervisor = .wait c k → s.Answers c

end Sim

theorem CpuThread.turnsLeft_le (pc : Cpu nproc) (t : CpuThread) : t.turnsLeft pc ≤ 12 := by
  cases t with
  | student _ => cases pc <;> simp [turnsLeft]
  | asleep | top | returned | published _ | unlocked _ | counted | dispatch _ | signalled =>
    simp [turnsLeft]

theorem Sim.Answers.not_blocked (h : s.Answers c) (hcoh : Coherent s place) : ¬ s.Blocked c := by
  rintro (hasleep | hwait)
  · rw [Sim.Answers, hasleep] at h
    exact h
  · cases ht : s.thread c with
    | student state =>
      rw [Sim.Answers, ht] at h
      exact h.2.2 hwait
    | top | published _ | returned =>
      rcases hcoh.cpuOkAt ht with ⟨hcpu, -⟩ | ⟨hcpu, -⟩ <;> simp [hwait] at hcpu
    | asleep | signalled | counted =>
      have hcpu := (hcoh.cpuOkAt ht).1.1
      simp [hwait] at hcpu
    | dispatch state =>
      rcases hcoh.cpuOkAt ht with ⟨-, ⟨hcpu, -⟩, -⟩ | ⟨-, hcpu, -⟩ <;> simp [hwait] at hcpu
    | unlocked state =>
      obtain ⟨⟨pcb, hcpu⟩, -⟩ := hcoh.cpuOkAt ht
      simp [hwait] at hcpu

/-- A handler of an event comes one step closer to `context_switch`. -/
theorem cpuStep_turnsLeft {r r' : State ncpu nproc 1} {alg : Char}
    (hs : r.cpuStep alg c = some r') (hne : ∀ pcb, r.cpu c ≠ .contextSwitch pcb)
    (hidle : r.cpu c ≠ .idle) (state : CpuState) :
    (CpuThread.student state).turnsLeft (r'.cpu c) < (CpuThread.student state).turnsLeft (r.cpu c) ∧
      r'.cpu c ≠ .idle ∧ r'.cpu c ≠ .condWait := by
  rw [State.cpuStep] at hs
  cases hpc : r.cpu c <;> rw [hpc] at hs hne hidle <;> dsimp only at hs
  case idling | running | condWait => simp at hs
  case contextSwitch pcb => exact absurd rfl (hne pcb)
  case idle => exact absurd rfl hidle
  case setRunning pcb | setCurrent pcb =>
    rw [← Option.some_inj.mp hs, cpu_setCpu_self]
    simp [CpuThread.turnsLeft]
  case popFromQueue =>
    obtain ⟨⟨node, q⟩, -, rfl⟩ := Option.map_eq_some_iff.mp hs
    rw [cpu_setCpu_self]
    cases node <;> simp [CpuThread.turnsLeft]
  case preempt | yield | terminate | pushToQueue pcb =>
    obtain ⟨x, -, rfl⟩ := Option.map_eq_some_iff.mp hs
    rw [cpu_setCpu_self]
    simp [CpuThread.turnsLeft]

theorem signal_of_wait {k : Cont} (hwait : s.supervisor = .wait c k) :
    (s.signal c).supervisor = .resume c k := by
  rw [Sim.signal, hwait]
  dsimp only
  rw [if_pos rfl]
  rfl

/-- The thread signals the supervisor, or comes closer to doing so. -/
theorem ThreadTurn.answers {k : Cont} (h : Coherent s place) (hwait : s.supervisor = .wait c k)
    (hans : s.Answers c) (hs : ThreadTurn cfg s c s') :
    s'.supervisor = .resume c k ∨
      s'.supervisor = .wait c k ∧ s'.Answers c ∧ s'.turnsLeft c < s.turnsLeft c := by
  rw [Sim.Answers] at hans
  rw [Sim.Answers, Sim.turnsLeft, Sim.turnsLeft]
  cases hs with
  | idle hc | sleep hc => exact .inl (signal_of_wait hwait)
  | read hc _ hevent =>
    rw [hc, thread_setThread]
    exact .inr ⟨hwait, hevent, by simp [CpuThread.turnsLeft]⟩
  | count hc =>
    rw [hc, thread_setThread]
    exact .inr ⟨hwait, trivial, by simp [CpuThread.turnsLeft]⟩
  | callIdle hc =>
    rw [hc] at hans
    exact hans.elim
  | call state hcalls =>
    obtain ⟨hevent, -⟩ := h.calls_running hcalls
    have hthread : (s.callHandler c state (Coherent.entry state)).1.thread c = .student state :=
      thread_setThread ..
    have hcpu : (s.callHandler c state (Coherent.entry state)).1.sched.cpu c =
        Coherent.entry state := cpu_setCpu_self ..
    rw [hthread, hcpu]
    right
    refine ⟨hwait, ?_, ?_⟩
    · cases state <;> simp [Coherent.entry, CpuState.IsEvent] at hevent ⊢
    · cases hc : s.thread c <;> rw [hc] at hcalls
      case dispatch state' =>
        obtain ⟨rfl, -, hne⟩ := hcalls
        cases state' <;> simp [Coherent.entry, CpuThread.turnsLeft]
      case counted =>
        obtain rfl : state = .terminate := hcalls
        simp [Coherent.entry, CpuThread.turnsLeft]
      all_goals exact hcalls.elim
  | @inside state sched hc hne hstep =>
    rw [hc] at hans ⊢
    obtain ⟨hlt, hpc⟩ := cpuStep_turnsLeft hstep hne hans.2.1 state
    exact .inr ⟨hwait, ⟨hans.1, hpc⟩, hlt⟩
  | unlock hc hpc =>
    rw [hc] at hans ⊢
    rw [hpc, thread_setThread]
    exact .inr ⟨hwait, hans.1, by simp [CpuThread.turnsLeft]⟩
  | publish hc =>
    rw [hc] at hans ⊢
    rw [thread_setThread]
    exact .inr ⟨hwait, hans, by simp [CpuThread.turnsLeft]⟩
  | @relock state hc =>
    rw [hc] at hans ⊢
    have hne : state ≠ .idle := fun heq => by rw [heq] at hans; exact hans
    rw [thread_setThread, if_neg hne]
    exact .inr ⟨hwait, trivial, by simp [CpuThread.turnsLeft]⟩
  | back hc =>
    rw [hc, thread_setThread]
    exact .inr ⟨hwait, trivial, by simp [CpuThread.turnsLeft]⟩

/-- Whoever else moves leaves a thread that is not blocked where it is. -/
theorem Moved.other (h : Coherent s place) (hb : ¬ s.Blocked c) (ht : t ≠ .thread c)
    (hs : Moved cfg s t s') : s'.thread c = s.thread c ∧ s'.sched.cpu c = s.sched.cpu c := by
  rw [Sim.Blocked, not_or] at hb
  cases hs with
  | supervisor hmove =>
    cases hmove with
    | @tick d p event s' _ _ htick =>
      obtain ⟨time, hsched⟩ := htick.sched
      refine ⟨?_, by rw [hsched]; rfl⟩
      rw [htick.thread]
      split
      · rename_i hevent
        refine Function.update_of_ne ?_ ..
        rintro rfl
        exact hb.1 (htick.asleep hevent)
      · rfl
    | @inside back sched _ hstep =>
      obtain ⟨place', hspec⟩ := h.placed.callerStep_spec hstep
      exact ⟨rfl, (hspec.frame.cpu c (by simp)).resolve_right fun hw => hb.2 hw.1⟩
    | exit | start | read | simulate | skip | simulated | resume | noRequest | request | complete
    | creat | noCreat | done | wake | woken | wokenIo | wokenCreat => exact ⟨rfl, rfl⟩
  | @thread d _ _ hmove =>
    have hd : c ≠ d := fun heq => ht (by rw [heq])
    have hf := hmove.frame h
    exact ⟨hf.thread c hd, (hf.sched.cpu c (by simpa using hd)).resolve_right fun hw => hb.2 hw.1⟩
  | @spurious d _ hpc =>
    refine ⟨rfl, Function.update_of_ne ?_ ..⟩
    rintro rfl
    exact hb.2 hpc

/-- Only the thread that the supervisor waits for ends the wait. -/
theorem Moved.waits {k : Cont} (h : Coherent s place) (hwait : s.supervisor = .wait c k)
    (ht : t ≠ .thread c) (hs : Moved cfg s t s') : s'.supervisor = .wait c k := by
  cases hs with
  | supervisor hmove =>
    cases hmove with
    | exit hsup | start hsup | read hsup | simulate hsup | skip hsup | tick hsup | simulated hsup
    | resume hsup | noRequest hsup | request hsup | complete hsup | creat _ hsup | noCreat hsup
    | done hsup | wake hsup | inside hsup | woken hsup | wokenIo hsup | wokenCreat hsup =>
      rw [hwait] at hsup
      simp at hsup
  | @thread d _ _ hmove =>
    rcases (hmove.frame h).supervisor with heq | ⟨k', hwait', -⟩
    · exact heq.trans hwait
    · rw [hwait] at hwait'
      exact absurd (by rw [(Supervisor.wait.inj hwait').1]) ht
  | spurious => exact hwait

theorem Moved.answers_other {k : Cont} (h : Coherent s place) (hwait : s.supervisor = .wait c k)
    (hans : s.Answers c) (ht : t ≠ .thread c) (hs : Moved cfg s t s') :
    s'.supervisor = .wait c k ∧ s'.Answers c ∧ s'.turnsLeft c = s.turnsLeft c := by
  obtain ⟨hthread, hcpu⟩ := hs.other h (hans.not_blocked h) ht
  refine ⟨hs.waits h hwait ht, ?_, ?_⟩
  · rw [Sim.Answers, hthread, hcpu]
    exact hans
  · rw [Sim.turnsLeft, hthread, hcpu]
    rfl

/-- A supervisor that did not wait has stored an event for a thread that was asleep. -/
theorem Moved.wait_cases {k : Cont} (h : Coherent s place) (hs : Moved cfg s t s')
    (hwait : s'.supervisor = .wait c k) :
    s.supervisor = .wait c k ∨ s'.thread c = .signalled := by
  cases hs with
  | supervisor hmove =>
    cases hmove with
    | @tick d p event s' _ _ htick =>
      right
      rw [htick.supervisor] at hwait
      rw [htick.thread]
      split at hwait
      · rename_i hevent
        obtain rfl := (Supervisor.wait.inj hwait).1
        rw [if_pos hevent, Function.update_self]
      · simp at hwait
    | inside => exact .inl hwait
    | exit | start | read | simulate | skip | simulated | resume | noRequest | request | complete
    | creat | noCreat | done | wake | woken | wokenIo | wokenCreat =>
      simp [Sim.setSupervisor] at hwait
  | thread _ hmove =>
    rcases (hmove.frame h).supervisor with heq | ⟨k', -, hresume⟩
    · exact .inl (heq.symm.trans hwait)
    · simp [hresume] at hwait
  | spurious => exact .inl hwait

theorem Moved.attended (h : Coherent s place) (hs : Moved cfg s t s') (hatt : s.Attended) :
    s'.Attended := by
  intro c k hwait'
  rcases hs.wait_cases h hwait' with hwait | hsignalled
  · have hans := hatt c k hwait
    by_cases ht : t = .thread c
    · subst ht
      cases hs with
      | thread _ hmove =>
        rcases hmove.answers h hwait hans with hresume | ⟨-, hans', -⟩
        · simp [hresume] at hwait'
        · exact hans'
    · exact (hs.answers_other h hwait hans ht).2.1
  · rw [Sim.Answers, hsignalled]
    trivial

theorem Sim.Run.attended (hs : Sim.Run cfg Sim.calm s es) : s.Attended := by
  induction hs with
  | initial hinit =>
    intro c k hwait
    simp [hinit.supervisor] at hwait
  | step hrun hcalm hnext ih =>
    obtain ⟨place, h⟩ := hrun.coherent
    exact (h.moved hcalm hnext).attended h ih

/-- The thread that the supervisor waits for has a next step. -/
theorem Coherent.answers_isSome {k : Cont} (h : Coherent s place) (cfg : Config)
    (hwait : s.supervisor = .wait c k) (hans : s.Answers c) :
    ∃ r, s.next cfg (.thread c) = some r := by
  rw [next_of_busy ⟨k, hwait⟩]
  exact h.threadStep_isSome cfg (by rw [hwait]; rfl) (hans.not_blocked h)

/-- So many turns of its thread end the wait, whoever else moves in between. -/
theorem Sim.Run.answered {k : Cont} {ts : List (Turn ncpu)} (hs : Sim.Run cfg Sim.calm s es)
    (hwait : s.supervisor = .wait c k) (hexec : s.exec cfg Sim.calm es ts = some (s', es'))
    (hcount : s.turnsLeft c ≤ ts.count (.thread c)) :
    ∃ pre post s₁ es₁, ts = pre ++ post ∧ s.exec cfg Sim.calm es pre = some (s₁, es₁) ∧
      s₁.supervisor = .resume c k := by
  induction ts generalizing s es with
  | nil =>
    have hans := hs.attended c k hwait
    rw [Sim.Answers] at hans
    have hpos : 0 < s.turnsLeft c := by
      rw [Sim.turnsLeft]
      obtain ⟨place, h⟩ := hs.coherent
      cases ht : s.thread c <;> rw [ht] at hans <;> simp only [CpuThread.turnsLeft] <;>
        try omega
      · exact hans.elim
      · rename_i state
        obtain ⟨hinside, -⟩ := h.cpuOkAt ht
        cases hpc : s.sched.cpu c <;> rw [hpc] at hans hinside <;>
          simp [Cpu.Inside] at hans hinside ⊢
    rw [List.count_nil] at hcount
    omega
  | cons t ts ih =>
    rw [Sim.exec] at hexec
    split at hexec
    · rename_i hcalm
      split at hexec
      · rename_i s₁ es₁ hnext
        have hrun₁ := hs.step hcalm hnext
        obtain ⟨place, h⟩ := hs.coherent
        have hans := hs.attended c k hwait
        have hmove := h.moved hcalm hnext
        have hlater : s₁.supervisor = .wait c k → s₁.turnsLeft c ≤ ts.count (.thread c) →
            ∃ pre post s₂ es₂, t :: ts = pre ++ post ∧
              s.exec cfg Sim.calm es pre = some (s₂, es₂) ∧ s₂.supervisor = .resume c k := by
          intro hwait₁ hcount₁
          obtain ⟨pre, post, s₂, es₂, rfl, hpre, hresume⟩ := ih hrun₁ hwait₁ hexec hcount₁
          refine ⟨t :: pre, post, s₂, es₂, rfl, ?_, hresume⟩
          rw [Sim.exec, if_pos hcalm, hnext]
          exact hpre
        by_cases ht : t = .thread c
        · subst ht
          rw [List.count_cons_self] at hcount
          cases hmove with
          | thread _ hturn =>
            rcases hturn.answers h hwait hans with hresume | ⟨hwait₁, -, hlt⟩
            · refine ⟨[.thread c], ts, s₁, es ++ es₁, rfl, ?_, hresume⟩
              rw [Sim.exec, if_pos hcalm, hnext]
              rfl
            · exact hlater hwait₁ (by omega)
        · rw [List.count_cons_of_ne ht] at hcount
          obtain ⟨hwait₁, -, heq⟩ := hmove.answers_other h hwait hans ht
          exact hlater hwait₁ (by omega)
      · simp at hexec
    · simp at hexec

/-! ## No deadlock -/

/-- The writer that keeps the supervisor from reading has returned from its handler. -/
theorem Coherent.returned_of_gantt (h : Coherent s place) (hb : s.Balanced)
    (hsup : s.supervisor = .gantt) (hw : 0 < s.writers) : ∃ c, s.thread c = .returned := by
  have hsum : 0 < ∑ u, s.depth u := by
    rw [← show s.writers = ∑ u, s.depth u from hb.counts]
    exact hw
  obtain ⟨u, -, hu⟩ := Finset.exists_lt_of_sum_lt (s := Finset.univ) (f := fun _ => (0 : Int))
    (g := s.depth) (by simpa using hsum)
  cases u with
  | none =>
    change 0 < s.supervisor.depth at hu
    rw [hsup] at hu
    exact absurd hu (lt_irrefl 0)
  | some c =>
    change 0 < (s.thread c).depth at hu
    refine ⟨c, ?_⟩
    cases ht : s.thread c with
    | returned => rfl
    | student state =>
      rw [ht] at hu
      obtain ⟨-, ⟨-, k, hk⟩ | ⟨rfl, -⟩⟩ := h.cpuOkAt ht
      · simp [hsup] at hk
      · simp [CpuThread.depth] at hu
    | unlocked state | published state =>
      rw [ht] at hu
      cases state <;> simp [CpuThread.depth] at hu
    | top | asleep | signalled | dispatch _ | counted =>
      rw [ht] at hu
      simp [CpuThread.depth] at hu

/-- In no state of a calm run before the exit do all threads wait for each other; and while the
supervisor waits for the scheduler to be run on a CPU, the thread of that CPU can always move, and
at most twelve of its turns, whatever the other threads do in between, end the wait. -/
theorem never_stuck (hs : Sim.Run cfg Sim.calm s es) :
    (s.supervisor ≠ .exited → (∃ r, s.next cfg .supervisor = some r) ∨
        ∃ c r, s.next cfg (.thread c) = some r) ∧
      ∀ c k, s.supervisor = .wait c k →
        (∃ r, s.next cfg (.thread c) = some r) ∧
          ∀ ts s' es', s.exec cfg Sim.calm es ts = some (s', es') → 12 ≤ ts.count (.thread c) →
            ∃ pre post s₁ es₁, ts = pre ++ post ∧
              s.exec cfg Sim.calm es pre = some (s₁, es₁) ∧ s₁.supervisor = .resume c k := by
  obtain ⟨place, h⟩ := hs.coherent
  constructor
  · intro hexit
    by_cases hbusy : ∃ c, s.Busy c
    · obtain ⟨c, k, hwait⟩ := hbusy
      exact .inr ⟨c, h.answers_isSome cfg hwait (hs.attended c k hwait)⟩
    by_cases hgantt : s.supervisor = .gantt ∧ 0 < s.writers
    · obtain ⟨c, hc⟩ := h.returned_of_gantt hs.balanced hgantt.1 hgantt.2
      refine .inr ⟨c, ?_⟩
      rw [Sim.next.eq_def]
      dsimp only
      rw [if_neg hexit, Sim.threadStep, hc]
      dsimp only
      rw [if_neg (by simp [hgantt.1])]
      exact ⟨_, rfl⟩
    · refine .inl (h.supervisorStep_isSome cfg hexit (fun c k hk => hbusy ⟨c, k, hk⟩) ?_)
      intro hsup
      by_contra hw
      exact hgantt ⟨hsup, by omega⟩
  · intro c k hwait
    refine ⟨h.answers_isSome cfg hwait (hs.attended c k hwait), ?_⟩
    intro ts s' es' hexec hcount
    exact hs.answered hwait hexec (((s.thread c).turnsLeft_le _).trans hcount)

/-- The supervisor waits for the CPU whose thread is in `yield`. -/
theorem never_stuck_yielding : ∃ (s : Sim 1 processCount) (es : List (Event 1 processCount)),
    Sim.Run fifo Sim.calm s es ∧ s.supervisor = .wait 0 .tick ∧
      ∃ r, s.next fifo (.thread 0) = some r := by
  have hexec : (startSimulator.exec fifo Sim.calm [] yieldingTurns).map
      (fun r => r.1.supervisor) = some (.wait 0 .tick) := by decide +kernel
  obtain ⟨⟨s, es⟩, hexec, hwait⟩ := Option.map_eq_some_iff.mp hexec
  have hs := (Sim.Run.initial startSimulator_initial).exec hexec
  exact ⟨s, es, hs, hwait, ((never_stuck hs).2 0 .tick hwait).1⟩

end ECE3056.Scheduling
