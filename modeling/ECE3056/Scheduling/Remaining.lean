import ECE3056.Scheduling.Exit
import ECE3056.Scheduling.FairRuns
import ECE3056.Scheduling.TimeRemaining

/-!
# What remains to be done

The ticks that are left of the programs, the ticks that are left of the I/O requests
and the processes still to be created only become fewer. While no tick runs, a process
that the simulator knows of stays on its CPU, a process taken from the ready list is on
its way to the simulator, and a thread that finds the list occupied comes to take one.
-/

namespace ECE3056.Scheduling

open ECE3056.Custody ECE3056.Fairness ECE3056.Tally

variable {ncpu nproc : Nat} {cfg : Config}
variable {s s' : Sim ncpu nproc} {place : Fin nproc → Thread ncpu 1 ⊕ Rest} {c d : Fin ncpu}
variable {t : Turn ncpu} {p : Fin nproc}

/-! ## What is left to do -/

namespace Sim

/-- The ticks that the programs have still to run. -/
def totalTicks (s : Sim ncpu nproc) : Nat := ∑ p, s.account.ticksLeft p

/-- The ticks that are left of the I/O requests, with the one that completes each. -/
def ioLeft (s : Sim ncpu nproc) : Nat := (s.io_queue.map fun r => r.2.toNat + 1).sum

/-- The processes that `wake_up` has still to be called for. -/
def newLeft (s : Sim ncpu nproc) : Nat := nproc - s.firstNew

end Sim

theorem Sim.created_le_firstNew (s : Sim ncpu nproc) : s.processes_created ≤ s.firstNew := by
  rw [firstNew]
  split <;> omega

theorem Sim.ioLeft_eq_zero : s.ioLeft = 0 ↔ s.io_queue = [] := by
  rw [ioLeft]
  cases s.io_queue with
  | nil => simp
  | cons request rest =>
    simp only [List.map_cons, List.sum_cons]
    constructor
    · omega
    · simp

theorem Coherent.totalTicks_le (h : Coherent s place) (hstep : CalmStep cfg s t s') :
    s'.totalTicks ≤ s.totalTicks := by
  obtain ⟨hcalm, es, hnext⟩ := hstep
  refine Finset.sum_le_sum fun p _ => ?_
  have hticks := h.ticks_next hcalm hnext p
  omega

/-- A tick takes one off. -/
theorem TickTurn.totalTicks {event : Option CpuState} (ht : TickTurn s s' c p event)
    (h : Coherent s place) (hsup : s.supervisor = .cpus c)
    (hcur : (s.simulator_cpu_data c).current = some p) : s'.totalTicks + 1 = s.totalTicks := by
  obtain ⟨-, -, hcpu⟩ := h.tick_owns hsup hcur
  obtain ⟨request, hreceived⟩ := ht.account.received (h.shape p) hcpu
  have hsum := sum_change (f := s.account.ticksLeft) (g := s'.account.ticksLeft)
    (Finset.mem_univ p) fun q _ hq => (ht.account.keeps hq).ticksLeft
  have hticks := hreceived.ticks
  rw [Sim.totalTicks, Sim.totalTicks]
  omega

/-- Without a tick, no request is submitted. -/
theorem Moved.ioLeft_le (h : Coherent s place) (hs : Moved cfg s t s')
    (htotal : s'.totalTicks = s.totalTicks) : s'.ioLeft ≤ s.ioLeft := by
  cases hs with
  | supervisor hmove =>
    cases hmove with
    | tick hsup hcur htick =>
      have := htick.totalTicks h hsup hcur
      omega
    | @request p time rest _ hqueue htime =>
      have hsub := toNat_sub_one htime
      rw [Sim.ioLeft, Sim.ioLeft, hqueue]
      simp only [Sim.setSupervisor, List.map_cons, List.sum_cons]
      omega
    | complete _ hqueue =>
      rw [Sim.ioLeft, Sim.ioLeft, hqueue]
      simp [Sim.setSupervisor]
    | _ => exact le_rfl
  | thread _ hmove =>
    rw [Sim.ioLeft, (hmove.frame h).io_queue]
    exact le_rfl
  | spurious => exact le_rfl

/-- `simulate_io` takes one off the request at the head of the queue. -/
theorem SupervisorTurn.ioLeft_lt (hs : SupervisorTurn cfg s s') (hsup : s.supervisor = .io)
    (hqueue : s.io_queue ≠ []) : s'.ioLeft < s.ioLeft := by
  cases hs with
  | noRequest _ hnil => exact absurd hnil hqueue
  | @request p time rest _ hcons htime =>
    have hsub := toNat_sub_one htime
    rw [Sim.ioLeft, Sim.ioLeft, hcons]
    simp only [Sim.setSupervisor, List.map_cons, List.sum_cons]
    omega
  | complete _ hcons =>
    rw [Sim.ioLeft, Sim.ioLeft, hcons]
    simp [Sim.setSupervisor]
  | exit hsup' | start hsup' | read hsup' | simulate hsup' | skip hsup' | tick hsup'
  | simulated hsup' | resume hsup' | creat _ hsup' | noCreat hsup' | done hsup' | wake hsup'
  | inside hsup' | woken hsup' | wokenIo hsup' | wokenCreat hsup' =>
    rw [hsup] at hsup'
    simp at hsup'

theorem ThreadFrame.firstNew_eq (hf : ThreadFrame s s' c) : s'.firstNew = s.firstNew := by
  rw [Sim.firstNew, Sim.firstNew, hf.created]
  rcases hf.supervisor with heq | ⟨k, hwait, hresume⟩
  · rw [heq]
  · rw [hwait, hresume]

theorem Moved.newLeft_le (h : Coherent s place) (hs : Moved cfg s t s') :
    s'.newLeft ≤ s.newLeft := by
  rw [Sim.newLeft, Sim.newLeft]
  cases hs with
  | supervisor hmove =>
    cases hmove with
    | @wake p back hsup =>
      rw [Sim.firstNew, Sim.firstNew, hsup]
      cases back <;> simp only [Sim.setSupervisor] <;> omega
    | tick hsup _ htick =>
      have hsup' := htick.supervisor
      rw [Sim.firstNew, Sim.firstNew, hsup, htick.created]
      split at hsup' <;> rw [hsup']
    | inside => exact le_rfl
    | @woken back hsup =>
      rw [Sim.firstNew, Sim.firstNew, hsup]
      cases back <;> exact le_rfl
    | exit hsup | start hsup | read hsup | simulate hsup | skip hsup | simulated hsup | resume hsup
    | noRequest hsup | request hsup | complete hsup | creat _ hsup | noCreat hsup | done hsup
    | wokenIo hsup | wokenCreat hsup =>
      rw [Sim.firstNew, Sim.firstNew, hsup]
      exact le_rfl
  | thread _ hmove => rw [(hmove.frame h).firstNew_eq]
  | spurious => exact le_rfl

/-- The call of `wake_up` for a new process takes one off. -/
theorem SupervisorTurn.newLeft_lt (h : Coherent s place) (hs : SupervisorTurn cfg s s')
    (hsup : s.supervisor = .wake p .creat) : s'.newLeft < s.newLeft := by
  have hok := h.supervisor
  unfold Sim.SupervisorOk at hok
  rw [hsup] at hok
  have hp := p.isLt
  rw [Sim.newLeft, Sim.newLeft, Sim.firstNew, Sim.firstNew, hsup]
  cases hs with
  | @wake q back hsup' =>
    obtain ⟨rfl, rfl⟩ := Supervisor.wake.inj (hsup.symm.trans hsup')
    simp only [Sim.setSupervisor]
    omega
  | exit hsup' | start hsup' | read hsup' | simulate hsup' | skip hsup' | tick hsup'
  | simulated hsup' | resume hsup' | noRequest hsup' | request hsup' | complete hsup'
  | creat _ hsup' | noCreat hsup' | done hsup' | inside hsup' | woken hsup' | wokenIo hsup'
  | wokenCreat hsup' =>
    rw [hsup] at hsup'
    simp at hsup'

/-! ## No process is forgotten -/

/-- A process that `wake_up` has not been called for is still to be created. -/
def Sim.NoneForgotten (s : Sim ncpu nproc) : Prop :=
  ∀ p, s.sched.state p = .new → (∀ w, s.sched.caller w ≠ .wakeUp p) → s.firstNew ≤ p

/-- As far as the PCBs and `wake_up` show, nobody has left the processes still to be created. -/
theorem Sim.NoneForgotten.congr (h : s.NoneForgotten)
    (hnew : ∀ p, s'.sched.state p = .new → (∀ w, s'.sched.caller w ≠ .wakeUp p) →
      s.sched.state p = .new ∧ ∀ w, s.sched.caller w ≠ .wakeUp p)
    (hfirst : s'.firstNew ≤ s.firstNew) : s'.NoneForgotten := by
  intro p hstate hcaller
  obtain ⟨hstate₀, hcaller₀⟩ := hnew p hstate hcaller
  exact hfirst.trans (h p hstate₀ hcaller₀)

theorem CpuMoves.uncreated {s : State ncpu nproc 1} {place' : Fin nproc → Thread ncpu 1 ⊕ Rest}
    (hm : CpuMoves s c place place') (hp : place' p = .inr .uncreated) :
    place p = .inr .uncreated := by
  cases hm with
  | stay => exact hp
  | push q | pop q | yield q | terminate q =>
    by_cases hq : p = q
    · simp [hq] at hp
    · rwa [Function.update_of_ne hq] at hp

theorem CallerMoves.uncreated {s : State ncpu nproc 1} {place' : Fin nproc → Thread ncpu 1 ⊕ Rest}
    (hm : CallerMoves s 0 place place') (hp : place' p = .inr .uncreated) :
    place p = .inr .uncreated := by
  cases hm with
  | stay => exact hp
  | push q =>
    by_cases hq : p = q
    · simp [hq] at hp
    · rwa [Function.update_of_ne hq] at hp

theorem ThreadTurn.noneForgotten (h : Coherent s place) (hs : ThreadTurn cfg s c s')
    (hnone : s.NoneForgotten) : s'.NoneForgotten := by
  have hfirst := (hs.frame h).firstNew_eq.le
  cases hs with
  | idle hc | sleep hc =>
    have hsched := (signal_frame (s := s) (c := c) (by simp [hc])).2.2.2
    refine hnone.congr (fun p hstate hcaller => ?_) hfirst
    change (s.signal c).sched.state p = .new at hstate
    change ∀ w, (s.signal c).sched.caller w ≠ .wakeUp p at hcaller
    rw [hsched] at hstate hcaller
    exact ⟨hstate, hcaller⟩
  | inside _ _ hstep =>
    obtain ⟨place', hspec⟩ := h.placed.cpuStep_spec hstep
    refine hnone.congr (fun p hstate hcaller => ?_) hfirst
    have hplace := (hspec.placed.uncreated_iff p).mp ⟨hstate, hcaller⟩
    exact (h.placed.uncreated_iff p).mpr (hspec.moves.uncreated hplace)
  | read | count | callIdle | call | unlock | publish | relock | back =>
    exact hnone.congr (fun p hstate hcaller => ⟨hstate, hcaller⟩) hfirst

theorem SupervisorTurn.noneForgotten (h : Coherent s place) (hs : SupervisorTurn cfg s s')
    (hnone : s.NoneForgotten) : s'.NoneForgotten := by
  cases hs with
  | @tick c p event s' hsup _ htick =>
    obtain ⟨time, hsched⟩ := htick.sched
    refine hnone.congr (fun p hstate hcaller => ?_) ?_
    · rw [hsched] at hstate hcaller
      exact ⟨hstate, hcaller⟩
    · have hsup' := htick.supervisor
      rw [Sim.firstNew, Sim.firstNew, hsup, htick.created]
      split at hsup' <;> rw [hsup']
  | inside _ hstep =>
    obtain ⟨place', hspec⟩ := h.placed.callerStep_spec hstep
    refine hnone.congr (fun p hstate hcaller => ?_) le_rfl
    have hplace := (hspec.placed.uncreated_iff p).mp ⟨hstate, hcaller⟩
    exact (h.placed.uncreated_iff p).mpr (hspec.moves.uncreated hplace)
  | @wake p back hsup =>
    intro q hstate hcaller
    have hret := h.caller (by simp [hsup])
    have hle := hnone q hstate fun w => by
      rw [Fin.fin_one_eq_zero w, hret]
      simp
    have hqp : p ≠ q := by
      rintro rfl
      exact hcaller 0 (caller_setCaller_self ..)
    rw [Sim.firstNew, hsup] at hle
    change s.processes_created ≤ q at hle
    cases back with
    | io => exact hle
    | creat =>
      have hok := h.supervisor
      unfold Sim.SupervisorOk at hok
      rw [hsup] at hok
      have hne : (p : Nat) ≠ q := fun heq => hqp (Fin.ext heq)
      have hp := hok.2
      rw [Sim.firstNew]
      simp only [Sim.setSupervisor]
      omega
  | @woken back hsup =>
    refine hnone.congr (fun p hstate hcaller => ⟨hstate, hcaller⟩) ?_
    rw [Sim.firstNew, Sim.firstNew, hsup]
    cases back <;> exact le_rfl
  | exit hsup | start hsup | read hsup | simulate hsup | skip hsup | simulated hsup | resume hsup
  | noRequest hsup | request hsup | complete hsup | creat _ hsup | noCreat hsup | done hsup
  | wokenIo hsup | wokenCreat hsup =>
    refine hnone.congr (fun p hstate hcaller => ⟨hstate, hcaller⟩) ?_
    rw [Sim.firstNew, Sim.firstNew, hsup]
    exact le_rfl

theorem Sim.Run.noneForgotten {es : List (Event ncpu nproc)} (hs : Sim.Run cfg Sim.calm s es) :
    s.NoneForgotten := by
  induction hs with
  | initial hinit =>
    intro p _ _
    rw [Sim.firstNew, hinit.supervisor]
    simp [hinit.created]
  | step hrun hcalm hnext ih =>
    obtain ⟨place, h⟩ := hrun.coherent
    cases h.moved hcalm hnext with
    | supervisor hmove => exact hmove.noneForgotten h ih
    | thread _ hmove => exact hmove.noneForgotten h ih
    | spurious => exact ih

theorem Sim.Run.noLostWakeup {es : List (Event ncpu nproc)} (hs : Sim.Run cfg Sim.calm s es) :
    s.sched.NoLostWakeup := hs.reachable.interleaved.noLostWakeup

/-! ## Turns without a tick -/

/-- No event is stored. -/
theorem Moved.no_wait (h : Coherent s place) (hs : Moved cfg s t s')
    (htotal : s'.totalTicks = s.totalTicks) (hwait : ∀ c k, s.supervisor ≠ .wait c k) (c : Fin ncpu)
    (k : Cont) : s'.supervisor ≠ .wait c k := by
  intro hwait'
  cases hs with
  | supervisor hmove =>
    cases hmove with
    | tick hsup hcur htick =>
      have := htick.totalTicks h hsup hcur
      omega
    | inside => exact hwait c k hwait'
    | _ => simp [Sim.setSupervisor] at hwait'
  | thread _ hmove =>
    rcases (hmove.frame h).supervisor with heq | ⟨k', hw, -⟩
    · exact hwait c k (heq.symm.trans hwait')
    · exact hwait _ k' hw
  | spurious => exact hwait c k hwait'

/-- A process that the simulator knows of stays on its CPU. -/
theorem ThreadTurn.current_stays (h : Coherent s place) (hs : ThreadTurn cfg s c s')
    (hwait : ∀ c k, s.supervisor ≠ .wait c k) (hcur : (s.simulator_cpu_data c).current = some p) :
    (s'.simulator_cpu_data c).current = some p := by
  have hnb : ¬ s.Busy c := fun hb => hwait c _ hb.choose_spec
  cases hs with
  | idle _ _ hnone => simp [hcur] at hnone
  | sleep hc =>
    have hdata := (signal_frame (s := s) (c := c) (by simp [hc])).2.2.1
    show (Function.update (s.signal c).simulator_cpu_data c _ c).current = _
    rw [Function.update_self, hdata]
    exact hcur
  | publish hc hpc =>
    obtain ⟨-, ⟨-, hbusy⟩ | ⟨-, -, hnone⟩⟩ := h.cpuOkAt hc
    · exact absurd hbusy hnb
    · simp [hcur] at hnone
  | read | count | callIdle | call | inside | unlock | relock | back => exact hcur

theorem Moved.current_stays (h : Coherent s place) (hs : Moved cfg s t s')
    (hwait : ∀ c k, s.supervisor ≠ .wait c k) (hcur : (s.simulator_cpu_data c).current = some p) :
    (s'.simulator_cpu_data c).current = some p := by
  cases hs with
  | supervisor hmove =>
    cases hmove with
    | tick _ _ htick =>
      rw [htick.current]
      exact hcur
    | _ => exact hcur
  | @thread d _ _ hmove =>
    by_cases hd : c = d
    · subst hd
      exact hmove.current_stays h hwait hcur
    · rw [(hmove.frame h).data c hd]
      exact hcur
  | spurious => exact hcur

/-- The thread has taken a process from the ready list and has yet to tell the simulator. -/
def Sim.Dispatching (s : Sim ncpu nproc) (c : Fin ncpu) : Prop :=
  ∃ p, (∃ state, s.thread c = .student state) ∧ (s.sched.cpu c = .setRunning p ∨
      s.sched.cpu c = .setCurrent (some p) ∨ s.sched.cpu c = .contextSwitch (some p)) ∨
    (∃ state, s.thread c = .unlocked state) ∧ s.sched.cpu c = .contextSwitch (some p)

theorem ThreadTurn.dispatching (hs : ThreadTurn cfg s c s') (hdisp : s.Dispatching c) :
    (s'.simulator_cpu_data c).current.isSome ∨
      s'.Dispatching c ∧ s'.turnsLeft c < s.turnsLeft c := by
  rw [Sim.turnsLeft, Sim.turnsLeft]
  obtain ⟨p, ⟨⟨state, hc⟩, hpc⟩ | ⟨⟨state, hc⟩, hpc⟩⟩ := hdisp
  · cases hs with
    | @inside state' sched hc' hne hstep =>
      right
      rw [State.cpuStep] at hstep
      rcases hpc with hpc | hpc | hpc
      · rw [hpc] at hstep ⊢
        obtain rfl := Option.some_inj.mp hstep
        refine ⟨⟨p, .inl ⟨⟨state, hc⟩, .inr (.inl (cpu_setCpu_self ..))⟩⟩, ?_⟩
        rw [show Sim.thread { s with sched := _ } c = s.thread c from rfl, hc, cpu_setCpu_self]
        simp [CpuThread.turnsLeft]
      · rw [hpc] at hstep ⊢
        obtain rfl := Option.some_inj.mp hstep
        refine ⟨⟨p, .inl ⟨⟨state, hc⟩, .inr (.inr (cpu_setCpu_self ..))⟩⟩, ?_⟩
        rw [show Sim.thread { s with sched := _ } c = s.thread c from rfl, hc, cpu_setCpu_self]
        simp [CpuThread.turnsLeft]
      · exact absurd hpc (hne _)
    | @unlock state' pcb hc' hpc' =>
      right
      have hpcb : s.sched.cpu c = .contextSwitch (some p) := by
        rcases hpc with hpc | hpc | hpc
        · simp [hpc] at hpc'
        · simp [hpc] at hpc'
        · exact hpc
      refine ⟨⟨p, .inr ⟨⟨state', thread_setThread ..⟩, hpcb⟩⟩, ?_⟩
      rw [thread_setThread, hc, hpcb]
      simp [CpuThread.turnsLeft]
    | @call state' hcalls =>
      rw [hc] at hcalls
      exact hcalls.elim
    | idle hc' | sleep hc' | read hc' | count hc' | callIdle hc' | publish hc' | relock hc'
    | back hc' => simp [hc] at hc'
  · cases hs with
    | @publish state' pcb hc' hpc' =>
      left
      obtain rfl := Cpu.contextSwitch.inj (hpc.symm.trans hpc')
      show (Function.update s.simulator_cpu_data c _ c).current.isSome
      rw [Function.update_self]
      rfl
    | @call state' hcalls =>
      rw [hc] at hcalls
      exact hcalls.elim
    | idle hc' | sleep hc' | read hc' | count hc' | callIdle hc' | inside hc' | unlock hc'
    | relock hc' | back hc' => simp [hc] at hc'

/-- A CPU has no process in hand that the simulator does not know of, unless its thread is about to
publish it or to put it back. -/
theorem Coherent.in_hand (h : Coherent s place) (hwait : ∀ c k, s.supervisor ≠ .wait c k)
    (hcur : (s.simulator_cpu_data c).current = none) (hhand : s.sched.hand (.inl c) = some p) :
    s.Dispatching c ∨ ∃ state, s.thread c = .student state ∧ s.sched.cpu c = .pushToQueue p := by
  change (s.sched.cpu c).hand (s.sched.current c) = some p at hhand
  have hout : ¬ s.Outside c := by
    rintro (⟨hrunning, hknown⟩ | ⟨hidling, -⟩)
    · rw [hrunning] at hhand
      rw [hcur, show s.sched.current c = some p from hhand] at hknown
      simp at hknown
    · simp [hidling, Cpu.hand] at hhand
  cases hc : s.thread c with
  | top | published _ | returned => exact absurd (h.cpuOkAt hc) hout
  | asleep | signalled | counted => exact absurd (.inl (h.cpuOkAt hc).1) hout
  | dispatch state =>
    rcases h.cpuOkAt hc with ⟨-, howns, -⟩ | ⟨-, hidling, hnone⟩
    · exact absurd (.inl howns) hout
    · exact absurd (.inr ⟨hidling, hnone⟩) hout
  | student state =>
    obtain ⟨hinside, ⟨-, k, hk⟩ | ⟨-, hentering, -⟩⟩ := h.cpuOkAt hc
    · exact absurd hk (hwait c k)
    cases hpc : s.sched.cpu c <;> rw [hpc] at hhand hinside hentering <;>
      dsimp only [Cpu.hand] at hhand
    case idling | running => exact hinside.elim
    case preempt | yield | terminate => exact absurd trivial hentering
    case idle | condWait | popFromQueue => simp at hhand
    case pushToQueue pcb =>
      obtain rfl := Option.some_inj.mp hhand
      exact .inr ⟨state, rfl, rfl⟩
    case setRunning pcb =>
      obtain rfl := Option.some_inj.mp hhand
      exact .inl ⟨_, .inl ⟨⟨state, hc⟩, .inl hpc⟩⟩
    case setCurrent pcb =>
      rw [hhand] at hpc
      exact .inl ⟨p, .inl ⟨⟨state, hc⟩, .inr (.inl hpc)⟩⟩
    case contextSwitch pcb =>
      rw [show pcb = some p from hhand] at hpc
      exact .inl ⟨p, .inl ⟨⟨state, hc⟩, .inr (.inr hpc)⟩⟩
  | unlocked state =>
    obtain ⟨⟨pcb, hpc⟩, -⟩ := h.cpuOkAt hc
    rw [hpc] at hhand
    rw [show pcb = some p from hhand] at hpc
    exact .inl ⟨p, .inr ⟨⟨state, hc⟩, hpc⟩⟩

/-! ## The ready list -/

theorem pushToQueue_head {q q' : Queue nproc} (h : pushToQueue q p = some q') :
    q'.head ≠ none := by
  rw [pushToQueue] at h
  split at h
  · rw [← Option.some_inj.mp h]
    simp
  · rename_i curr hcurr
    obtain ⟨last, -, rfl⟩ := Option.map_eq_some_iff.mp h
    simp [hcurr]

theorem push_head {r r' : State ncpu nproc 1} (h : r.push p = some r') : r'.ready.head ≠ none := by
  obtain ⟨q, hq, rfl⟩ := Option.map_eq_some_iff.mp h
  exact pushToQueue_head hq

/-- A list that is not empty stays so, unless the thread takes a process from it. -/
theorem cpuStep_head {r r' : State ncpu nproc 1} {alg : Char}
    {place : Fin nproc → Thread ncpu 1 ⊕ Rest} (hp : Placed r place)
    (hs : r.cpuStep alg c = some r') (hhead : r.ready.head ≠ none) :
    r'.ready.head ≠ none ∨ ∃ p, r'.cpu c = .setRunning p := by
  by_cases hpop : r.cpu c = .popFromQueue
  · obtain ⟨r₁, hstep, hpops⟩ :
        ∃ r₁, r.cpuStep alg c = some r₁ ∧ r.PopsOnce r₁ c := hp.popsOnce hpop
    obtain rfl : r₁ = r' := Option.some_inj.mp (hstep.symm.trans hs)
    rcases hpops with ⟨-, hnone, -⟩ | ⟨p, -, -, hcpu, -⟩
    · exact absurd hnone hhead
    · exact .inr ⟨p, hcpu⟩
  · left
    rw [State.cpuStep] at hs
    cases hpc : r.cpu c <;> rw [hpc] at hs hpop <;> dsimp only at hs
    case popFromQueue => exact absurd rfl hpop
    case idling | running | condWait => simp at hs
    case idle | setRunning | setCurrent | contextSwitch =>
      rw [← Option.some_inj.mp hs]
      exact hhead
    case preempt | yield | terminate =>
      obtain ⟨q, -, rfl⟩ := Option.map_eq_some_iff.mp hs
      exact hhead
    case pushToQueue pcb =>
      obtain ⟨r₁, hpush, rfl⟩ := Option.map_eq_some_iff.mp hs
      have hpushed := push_head hpush
      exact hpushed

theorem callerStep_head {r r' : State ncpu nproc 1} {alg : Char}
    (hs : r.callerStep alg 0 = some r') (hhead : r.ready.head ≠ none) : r'.ready.head ≠ none := by
  rw [State.callerStep] at hs
  cases hpc : r.caller 0 <;> rw [hpc] at hs <;> dsimp only at hs
  case ret => simp at hs
  case pushToQueue pcb =>
    obtain ⟨r₁, hpush, rfl⟩ := Option.map_eq_some_iff.mp hs
    have hpushed := push_head hpush
    exact hpushed
  case compare process low_id low =>
    cases low_id <;> rw [← Option.some_inj.mp hs] <;> exact hhead
  all_goals
    rw [← Option.some_inj.mp hs]
    exact hhead

theorem Moved.head_stays (h : Coherent s place) (hs : Moved cfg s t s')
    (hhead : s.sched.ready.head ≠ none) :
    s'.sched.ready.head ≠ none ∨ ∃ c, s'.Dispatching c := by
  cases hs with
  | supervisor hmove =>
    left
    cases hmove with
    | tick _ _ htick =>
      obtain ⟨time, hsched⟩ := htick.sched
      rw [hsched]
      exact hhead
    | inside _ hstep => exact callerStep_head hstep hhead
    | _ => exact hhead
  | @thread c _ _ hmove =>
    cases hmove with
    | idle hc | sleep hc =>
      have hsched := (signal_frame (s := s) (c := c) (by simp [hc])).2.2.2
      left
      show (s.signal c).sched.ready.head ≠ none
      rw [hsched]
      exact hhead
    | @inside state sched hc _ hstep =>
      rcases cpuStep_head h.placed hstep hhead with hhead' | ⟨p, hpc⟩
      · exact .inl hhead'
      · exact .inr ⟨_, p, .inl ⟨⟨state, hc⟩, .inl hpc⟩⟩
    | read | count | callIdle | call | unlock | publish | relock | back => exact .inl hhead
  | spurious => exact .inl hhead

/-- How many turns an idle CPU's thread takes at most to call `pop_from_queue`. -/
def CpuThread.turnsToPop (pc : Cpu nproc) : CpuThread → Nat
  | student _ =>
    match pc with
    | .popFromQueue => 0
    | .idle | .pushToQueue _ => 1
    | .contextSwitch _ => 7
    | .setCurrent _ => 8
    | .setRunning _ => 9
    | .idling | .running | .condWait | .preempt | .yield | .terminate => 0
  | dispatch _ => 2
  | top => 3
  | returned => 4
  | published _ => 5
  | unlocked _ => 6
  | asleep | signalled | counted => 0

/-- The thread looks for a process, with no CPU waited for and none known to have one. -/
theorem ThreadTurn.turnsToPop (h : Coherent s place) (hs : ThreadTurn cfg s c s')
    (hwait : ∀ c k, s.supervisor ≠ .wait c k) (hcur : (s.simulator_cpu_data c).current = none)
    (hhead : s.sched.ready.head ≠ none)
    (hpop : ¬ ((∃ state, s.thread c = .student state) ∧ s.sched.cpu c = .popFromQueue)) :
    (s'.thread c).turnsToPop (s'.sched.cpu c) < (s.thread c).turnsToPop (s.sched.cpu c) := by
  have hnb : ¬ s.Busy c := fun hb => hwait c _ hb.choose_spec
  cases hs with
  | sleep _ _ hsome => simp [hcur] at hsome
  | read hc => exact absurd (h.cpuOkAt hc).2.2 hnb
  | count hc =>
    rcases h.cpuOkAt hc with ⟨-, -, hbusy⟩ | ⟨hidle, -⟩
    · exact absurd hbusy hnb
    · simp at hidle
  | call state hcalls => exact absurd (h.calls_running hcalls).2.2 hnb
  | idle hc =>
    rw [hc, thread_setThread]
    simp [CpuThread.turnsToPop]
  | callIdle hc =>
    have hcpu : (s.sched.setCpu c .idle).cpu c = .idle := cpu_setCpu_self ..
    rw [hc, thread_setThread]
    show (CpuThread.student _).turnsToPop ((s.sched.setCpu c .idle).cpu c) < _
    rw [hcpu]
    simp [CpuThread.turnsToPop]
  | @inside state sched hc hne hstep =>
    have hentering : ¬ (s.sched.cpu c).Entering := by
      obtain ⟨-, ⟨-, hbusy⟩ | ⟨-, hentering, -⟩⟩ := h.cpuOkAt hc
      · exact absurd hbusy hnb
      · exact hentering
    rw [show Sim.thread { s with sched } c = s.thread c from rfl, hc]
    rw [State.cpuStep] at hstep
    cases hpc : s.sched.cpu c <;> rw [hpc] at hstep hentering hne hpop <;> dsimp only at hstep
    case idling | running | condWait => simp at hstep
    case preempt | yield | terminate => exact absurd trivial hentering
    case contextSwitch pcb => exact absurd rfl (hne pcb)
    case popFromQueue => exact absurd ⟨⟨state, hc⟩, rfl⟩ hpop
    case idle =>
      rw [if_neg hhead] at hstep
      rw [← Option.some_inj.mp hstep, cpu_setCpu_self]
      simp [CpuThread.turnsToPop]
    case setRunning pcb | setCurrent pcb =>
      rw [← Option.some_inj.mp hstep, cpu_setCpu_self]
      simp [CpuThread.turnsToPop]
    case pushToQueue pcb =>
      obtain ⟨r, -, rfl⟩ := Option.map_eq_some_iff.mp hstep
      rw [cpu_setCpu_self]
      simp [CpuThread.turnsToPop]
  | unlock hc hpc =>
    rw [hc, hpc, thread_setThread]
    simp [CpuThread.turnsToPop]
  | publish hc =>
    rw [hc, thread_setThread]
    simp [CpuThread.turnsToPop]
  | relock hc =>
    rw [hc, thread_setThread]
    split <;> simp [CpuThread.turnsToPop]
  | back hc =>
    rw [hc, thread_setThread]
    simp [CpuThread.turnsToPop]

/-- A pop from a list that is not empty takes a process. -/
theorem ThreadTurn.pops (h : Coherent s place) (hs : ThreadTurn cfg s c s') {state : CpuState}
    (hc : s.thread c = .student state) (hpc : s.sched.cpu c = .popFromQueue)
    (hhead : s.sched.ready.head ≠ none) : s'.Dispatching c := by
  cases hs with
  | @inside _ sched _ _ hstep =>
    obtain ⟨sched', hstep', hpops⟩ :
        ∃ sched', s.sched.cpuStep cfg.scheduling_alg c = some sched' ∧ s.sched.PopsOnce sched' c :=
      h.placed.popsOnce hpc
    obtain rfl : sched' = sched := Option.some_inj.mp (hstep'.symm.trans hstep)
    rcases hpops with ⟨-, hnone, -⟩ | ⟨p, -, -, hcpu, -⟩
    · exact absurd hnone hhead
    · exact ⟨p, .inl ⟨⟨state, hc⟩, .inl hcpu⟩⟩
  | unlock _ hpc' => simp [hpc] at hpc'
  | call state' hcalls =>
    rw [hc] at hcalls
    exact hcalls.elim
  | idle hc' | sleep hc' | read hc' | count hc' | callIdle hc' | publish hc' | relock hc'
  | back hc' => simp [hc] at hc'

theorem ThreadTurn.pushes (hs : ThreadTurn cfg s c s') {state : CpuState}
    (hc : s.thread c = .student state) (hpc : s.sched.cpu c = .pushToQueue p) :
    s'.sched.ready.head ≠ none := by
  cases hs with
  | inside _ _ hstep =>
    rw [State.cpuStep, hpc] at hstep
    obtain ⟨r, hpush, rfl⟩ := Option.map_eq_some_iff.mp hstep
    have hpushed := push_head hpush
    exact hpushed
  | unlock _ hpc' => simp [hpc] at hpc'
  | call state' hcalls =>
    rw [hc] at hcalls
    exact hcalls.elim
  | idle hc' | sleep hc' | read hc' | count hc' | callIdle hc' | publish hc' | relock hc'
  | back hc' => simp [hc] at hc'

/-! ## The loop of the supervisor -/

/-- Where the supervisor goes from the places before `simulate_io`. -/
theorem SupervisorTurn.goes (hs : SupervisorTurn cfg s s') :
    match s.supervisor with
    | .lock => s'.supervisor = if nproc ≤ s.processes_terminated then .exited else .gantt
    | .gantt => s'.supervisor = .reading
    | .reading => s'.supervisor = .cpus 0
    | .cpus n => (∃ h : n < ncpu, (s.simulator_cpu_data ⟨n, h⟩).current = none ∧
        s'.supervisor = .cpus (n + 1)) ∨ (∃ c p event, (s.simulator_cpu_data c).current = some p ∧
          c.val = n ∧ TickTurn s s' c p event) ∨ ncpu ≤ n ∧ s'.supervisor = .io
    | _ => True := by
  cases hs with
  | exit hsup hend =>
    rw [hsup]
    exact (if_pos hend).symm
  | start hsup hend =>
    rw [hsup]
    exact (if_neg (Nat.not_le.mpr hend)).symm
  | read hsup | simulate hsup =>
    rw [hsup]
    rfl
  | @skip c hsup hnone =>
    rw [hsup]
    exact .inl ⟨c.isLt, hnone, rfl⟩
  | @tick c p event s' hsup hcur htick =>
    rw [hsup]
    exact .inr (.inl ⟨c, p, event, hcur, rfl, htick⟩)
  | simulated hsup hn =>
    rw [hsup]
    exact .inr (.inr ⟨hn, rfl⟩)
  | resume hsup | noRequest hsup | request hsup | complete hsup | creat _ hsup | noCreat hsup
  | done hsup | wake hsup | inside hsup | woken hsup | wokenIo hsup | wokenCreat hsup =>
    rw [hsup]
    trivial

/-- How many ticks on `simulator_time` will be a multiple of ten. -/
def ticksToTen (time : UInt32) : Nat := (10 - time.toNat % 10) % 10

theorem ticksToTen_succ {time : UInt32} (h : time % 10 ≠ 0) :
    ticksToTen (time + 1) + 1 ≤ ticksToTen time := by
  have hne : time.toNat % 10 ≠ 0 := by
    intro heq
    apply h
    apply UInt32.toNat_inj.mp
    rw [UInt32.toNat_mod]
    exact heq
  have hlt := time.toNat_lt
  have hadd : (time + 1).toNat = (time.toNat + 1) % 4294967296 := UInt32.toNat_add ..
  rw [ticksToTen, ticksToTen, hadd]
  by_cases hwrap : time.toNat + 1 = 4294967296
  · rw [hwrap]
    omega
  · have hsucc : (time.toNat + 1) % 4294967296 = time.toNat + 1 := Nat.mod_eq_of_lt (by omega)
    rw [hsucc]
    omega

/-- How far the supervisor is from finding that a process is to be created. A pass of its loop
counts more than the places of one pass. -/
def Sim.toCreat (s : Sim ncpu nproc) : Nat :=
  match s.supervisor with
  | .lock => (40 + 3 * ncpu) * ticksToTen s.simulator_time + 23 + 3 * ncpu
  | .wake _ .creat | .waking .creat | .woken .creat | .done =>
    (40 + 3 * ncpu) * ticksToTen (s.simulator_time + 1) + 24 + 3 * ncpu + s.distance
  | _ => (40 + 3 * ncpu) * ticksToTen s.simulator_time + s.distance

theorem SupervisorTurn.toCreat_lt (hs : SupervisorTurn cfg s s')
    (hnew : s.processes_created < nproc) :
    s'.toCreat < s.toCreat ∨ ∃ p, s'.supervisor = .wake p .creat := by
  by_cases hlock : s.supervisor = .lock
  · left
    cases hs with
    | exit hsup | start hsup =>
      rw [Sim.toCreat, Sim.toCreat, hsup]
      simp only [Sim.setSupervisor, Sim.distance, Supervisor.distance]
      omega
    | read hsup | simulate hsup | skip hsup | tick hsup | simulated hsup | resume hsup
    | noRequest hsup | request hsup | complete hsup | creat _ hsup | noCreat hsup | done hsup
    | wake hsup | inside hsup | woken hsup | wokenIo hsup | wokenCreat hsup =>
      rw [hlock] at hsup
      simp at hsup
  · have hlt := hs.distance_lt hlock
    cases hs with
    | exit hsup | start hsup => exact absurd hsup hlock
    | creat h hsup => exact .inr ⟨_, rfl⟩
    | noCreat hsup hnot =>
      left
      have hle := ticksToTen_succ fun h => hnot ⟨h, hnew⟩
      have hmul := Nat.mul_le_mul_left (40 + 3 * ncpu) hle
      rw [Sim.toCreat, Sim.toCreat, hsup]
      rw [Sim.distance, Sim.distance, hsup] at *
      simp only [Sim.setSupervisor, Supervisor.distance] at *
      rw [Nat.mul_add] at hmul
      omega
    | done hsup =>
      left
      rw [Sim.toCreat, Sim.toCreat, hsup]
      simp only [Sim.setSupervisor]
      omega
    | @tick c p event s' hsup _ htick =>
      left
      have hsup' := htick.supervisor
      rw [Sim.toCreat, Sim.toCreat, hsup, htick.time]
      split at hsup' <;> rw [hsup'] <;> dsimp only <;> omega
    | @wake p back hsup | @inside back sched hsup | @woken back hsup =>
      left
      rw [Sim.toCreat, Sim.toCreat]
      simp only [Sim.setSupervisor, hsup] at *
      cases back <;> dsimp only <;> omega
    | complete hsup =>
      left
      rw [Sim.toCreat, Sim.toCreat]
      simp only [Sim.setSupervisor, hsup] at hlt ⊢
      exact Nat.add_lt_add_left hlt ((40 + 3 * ncpu) * ticksToTen s.simulator_time)
    | read hsup | simulate hsup | skip hsup | simulated hsup | resume hsup | noRequest hsup
    | request hsup | wokenIo hsup | wokenCreat hsup =>
      left
      rw [Sim.toCreat, Sim.toCreat, hsup]
      simp only [Sim.setSupervisor] at *
      omega

end ECE3056.Scheduling
