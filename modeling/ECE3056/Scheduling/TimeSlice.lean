import ECE3056.Scheduling.Exit
import ECE3056.Scheduling.FairRuns

/-!
# The time slice

`context_switch` loads the timer of a CPU, and every tick that counts a burst down
counts the timer down. A stop-watch that is restarted by each `context_switch` and
counts the ticks of `simulate_process` shows when the timer goes off.
-/

namespace ECE3056.Scheduling

open ECE3056.Custody

variable {ncpu nproc : Nat} {cfg : Config}
variable {s s' : Sim ncpu nproc} {place : Fin nproc → Thread ncpu 1 ⊕ Rest} {c d : Fin ncpu}
variable {es : List (Event ncpu nproc)} {t : Turn ncpu} {p : Fin nproc} {v : CpuState} {n : Nat}

namespace Sim

/-- The turn is a tick on the CPU. -/
def Ticks (s : Sim ncpu nproc) (c : Fin ncpu) (t : Turn ncpu) : Prop :=
  t = .supervisor ∧ s.supervisor = .cpus c ∧ (s.simulator_cpu_data c).current ≠ none

/-- The turn is the section of `context_switch` on the CPU. -/
def Switches (s : Sim ncpu nproc) (c : Fin ncpu) (t : Turn ncpu) : Prop :=
  t = .thread c ∧ ∃ state, s.thread c = .unlocked state

/-- A calm run, with the ticks on the CPU since its last `context_switch`. -/
inductive Watched (cfg : Config) (c : Fin ncpu) : Sim ncpu nproc → Nat → Prop
  | initial {s : Sim ncpu nproc} : Initial s → Watched cfg c s 0
  | switch {s s' : Sim ncpu nproc} {n : Nat} {t : Turn ncpu} {es : List (Event ncpu nproc)} :
      Watched cfg c s n → s.calm t = true → s.next cfg t = some (s', es) → s.Switches c t →
      Watched cfg c s' 0
  | tick {s s' : Sim ncpu nproc} {n : Nat} {t : Turn ncpu} {es : List (Event ncpu nproc)} :
      Watched cfg c s n → s.calm t = true → s.next cfg t = some (s', es) → s.Ticks c t →
      Watched cfg c s' (n + 1)
  | other {s s' : Sim ncpu nproc} {n : Nat} {t : Turn ncpu} {es : List (Event ncpu nproc)} :
      Watched cfg c s n → s.calm t = true → s.next cfg t = some (s', es) → ¬ s.Switches c t →
      ¬ s.Ticks c t → Watched cfg c s' n

theorem Watched.run (h : Watched cfg c s n) : ∃ es, Sim.Run cfg Sim.calm s es := by
  induction h with
  | initial hinit => exact ⟨[], .initial hinit⟩
  | switch _ hcalm hnext _ ih | tick _ hcalm hnext _ ih | other _ hcalm hnext _ _ ih =>
    obtain ⟨es, hs⟩ := ih
    exact ⟨_, hs.step hcalm hnext⟩

/-- Every calm run can be watched. -/
theorem Run.watched (h : Sim.Run cfg Sim.calm s es) (c : Fin ncpu) :
    ∃ n, Watched cfg c s n := by
  induction h with
  | initial hinit => exact ⟨0, .initial hinit⟩
  | @step s s' es es' t _ hcalm hnext ih =>
    obtain ⟨n, hn⟩ := ih
    by_cases hswitch : s.Switches c t
    · exact ⟨0, hn.switch hcalm hnext hswitch⟩
    by_cases htick : s.Ticks c t
    · exact ⟨n + 1, hn.tick hcalm hnext htick⟩
    · exact ⟨n, hn.other hcalm hnext hswitch htick⟩

end Sim

/-! ## What a tick does to the timer -/

theorem raise_data (s : Sim ncpu nproc) (c : Fin ncpu) (v : CpuState) (k : Cont) :
    (s.raise c v k).simulator_cpu_data =
      Function.update s.simulator_cpu_data c { s.simulator_cpu_data c with state := v } := by
  rw [Sim.raise, Sim.signal]
  split <;> split <;> rfl

/-- A tick leaves the other CPUs alone. -/
theorem simulateProcess_data (hs : s.simulateProcess c p = some (s', es)) (hd : d ≠ c) :
    s'.simulator_cpu_data d = s.simulator_cpu_data d := by
  obtain ⟨op, -, hs⟩ := Option.bind_eq_some_iff.mp hs
  have hset : ∀ (r : Sim ncpu nproc) (x : CpuData nproc),
      r.simulator_cpu_data d = s.simulator_cpu_data d →
      Function.update r.simulator_cpu_data c x d = s.simulator_cpu_data d := by
    intro r x heq
    rw [Function.update_of_ne hd]
    exact heq
  split at hs
  · split at hs
    · dsimp only at hs
      split at hs <;> obtain ⟨rfl, -⟩ := Prod.mk.inj (Option.some_inj.mp hs)
      · rw [raise_data]
        exact hset _ _ (hset s _ rfl)
      · exact hset s _ rfl
    · obtain ⟨op, -, hs⟩ := Option.bind_eq_some_iff.mp hs
      split at hs <;> obtain ⟨rfl, -⟩ := Prod.mk.inj (Option.some_inj.mp hs)
      · rw [raise_data]
        exact hset _ _ rfl
      · rw [raise_data]
        exact hset _ _ rfl
      · rfl
  · obtain ⟨rfl, -⟩ := Prod.mk.inj (Option.some_inj.mp hs)
    rfl
  · obtain ⟨rfl, -⟩ := Prod.mk.inj (Option.some_inj.mp hs)
    rfl

/-- The process on the CPU has ticks left of its burst. -/
def Sim.InBurst (s : Sim ncpu nproc) (c : Fin ncpu) : Prop :=
  ∃ p op, (s.simulator_cpu_data c).current = some p ∧ s.op p = some op ∧ 0 < op.time

/-- Within a burst a tick counts the timer down, and preempts when it comes to zero; at the end of
the burst it leaves the timer alone and stores another event. -/
inductive TimerTick (s s' : Sim ncpu nproc) (c : Fin ncpu) (p : Fin nproc) :
    List (Event ncpu nproc) → Prop
  | preempt : s.InBurst c → (s.simulator_cpu_data c).preemption_timer = 1 →
      TimerTick s s' c p [.simulated p .cpu, .stored c .preempt]
  | count : s.InBurst c → (s.simulator_cpu_data c).preemption_timer ≠ 1 →
      (s'.simulator_cpu_data c).preemption_timer = (s.simulator_cpu_data c).preemption_timer - 1 →
      TimerTick s s' c p [.simulated p .cpu]
  | finish {v : CpuState} : ¬ s.InBurst c → v ≠ .preempt →
      TimerTick s s' c p [.simulated p .cpu, .stored c v]

theorem Coherent.timerTick (h : Coherent s place) (hsup : s.supervisor = .cpus c)
    (hcur : (s.simulator_cpu_data c).current = some p)
    (hs : s.simulateProcess c p = some (s', es)) : TimerTick s s' c p es := by
  obtain ⟨-, -, hcpu⟩ := h.tick_owns hsup hcur
  obtain ⟨time, hop⟩ := op_eq_some hcpu
  rw [Sim.simulateProcess, hop, Option.bind_eq_bind, Option.bind_some] at hs
  dsimp only at hs
  by_cases htime : time > 0
  · have hburst : s.InBurst c := ⟨p, _, hcur, hop, htime⟩
    rw [if_pos htime] at hs
    split at hs <;> obtain ⟨-, rfl⟩ := Prod.mk.inj (Option.some_inj.mp hs)
    · exact .preempt hburst (by omega)
    · refine .count hburst (by omega) ?_
      obtain ⟨rfl, -⟩ := Prod.mk.inj (Option.some_inj.mp hs)
      show (Function.update s.simulator_cpu_data c _ c).preemption_timer = _
      rw [Function.update_self]
  · have hburst : ¬ s.InBurst c := by
      rintro ⟨q, op, hq, hop', hlt⟩
      obtain rfl := Option.some_inj.mp (hcur.symm.trans hq)
      obtain rfl := Option.some_inj.mp (hop.symm.trans hop')
      exact htime hlt
    rw [if_neg htime] at hs
    obtain ⟨op, hop', hs⟩ := Option.bind_eq_some_iff.mp hs
    cases htype : op.type <;> rw [htype] at hs <;>
      obtain ⟨-, rfl⟩ := Prod.mk.inj (Option.some_inj.mp hs)
    case cpu =>
      -- a burst is not followed by another one
      rw [op_incPc] at hop'
      have hnext := WellShaped.after_cpu (h.shape p) hcpu
      rw [List.getElem?_map, hop'] at hnext
      simp [htype] at hnext
    case io => exact .finish hburst (by simp)
    case terminate => exact .finish hburst (by simp)

/-- Where a tick of the simulator finds its CPU. -/
theorem supervisorStep_tick (hsup : s.supervisor = .cpus c)
    (hcur : (s.simulator_cpu_data c).current = some p)
    (hs : s.supervisorStep cfg = some (s', es)) : s.simulateProcess c p = some (s', es) := by
  rw [Sim.supervisorStep, hsup] at hs
  dsimp only at hs
  rw [dif_pos c.isLt, hcur] at hs
  exact hs

/-! ## The stop-watch and the timer -/

/-- The process of a CPU runs, or the thread is on its way to let it run. -/
def CpuThread.Settled : CpuThread → Prop
  | top | asleep | published _ | returned => True
  | signalled | dispatch _ | counted | student _ | unlocked _ => False

theorem settled_of_tick (h : s.thread c = .asleep ∨ s.inGap c = true) : (s.thread c).Settled := by
  rcases h with hasleep | hgap
  · rw [hasleep]
    trivial
  · cases hc : s.thread c <;> simp [Sim.inGap, hc] at hgap <;> trivial

/-- The timer shows what is left of the time slice. -/
structure OnTime (cfg : Config) (s : Sim ncpu nproc) (c : Fin ncpu) (n : Nat) : Prop where
  slice : 0 < cfg.time_slice → n ≤ cfg.time_slice
  timer : (s.thread c).Settled → (s.simulator_cpu_data c).current ≠ none →
    (s.simulator_cpu_data c).preemption_timer = cfg.time_slice - n ∧
      (0 < cfg.time_slice → n < cfg.time_slice)

theorem OnTime.congr (h : OnTime cfg s c n) (hthread : s'.thread c = s.thread c)
    (hdata : s'.simulator_cpu_data c = s.simulator_cpu_data c) : OnTime cfg s' c n := by
  refine ⟨h.slice, ?_⟩
  rw [hthread, hdata]
  exact h.timer

theorem OnTime.busy (h : OnTime cfg s c n) (hthread : ¬ (s'.thread c).Settled) :
    OnTime cfg s' c n := ⟨h.slice, fun hsettled => absurd hsettled hthread⟩

/-- A thread that does not publish does not touch its timer. -/
theorem ThreadTurn.onTime (hs : ThreadTurn cfg s c s') (hot : OnTime cfg s c n) :
    ((∃ state, s.thread c = .unlocked state) → OnTime cfg s' c 0) ∧
      ((¬ ∃ state, s.thread c = .unlocked state) → OnTime cfg s' c n) := by
  cases hs with
  | idle hc =>
    refine ⟨fun ⟨state, hu⟩ => by simp [hc] at hu, fun _ => hot.busy ?_⟩
    rw [thread_setThread]
    exact id
  | sleep hc =>
    refine ⟨fun ⟨state, hu⟩ => by simp [hc] at hu, fun _ => ?_⟩
    have hdata := (signal_frame (s := s) (c := c) (by simp [hc])).2.2.1
    refine ⟨hot.slice, fun _ hcur => ?_⟩
    change (Function.update (s.signal c).simulator_cpu_data c
      { (s.signal c).simulator_cpu_data c with state := .running } c).current ≠ none at hcur
    show (Function.update (s.signal c).simulator_cpu_data c
      { (s.signal c).simulator_cpu_data c with state := .running } c).preemption_timer = _ ∧ _
    rw [Function.update_self, hdata] at hcur ⊢
    exact hot.timer (by rw [hc]; trivial) hcur
  | read hc | count hc | callIdle hc | unlock hc =>
    refine ⟨fun ⟨state, hu⟩ => by simp [hc] at hu, fun _ => hot.busy ?_⟩
    rw [thread_setThread]
    exact id
  | @call state hcalls =>
    have hthread : (s.callHandler c state (Coherent.entry state)).1.thread c = .student state :=
      thread_setThread ..
    refine ⟨fun ⟨state', hu⟩ => ?_, fun _ => hot.busy ?_⟩
    · rw [hu] at hcalls
      exact hcalls.elim
    · rw [hthread]
      exact id
  | inside hc =>
    exact ⟨fun ⟨state, hu⟩ => by simp [hc] at hu, fun _ => hot.congr rfl rfl⟩
  | @publish state pcb hc =>
    refine ⟨fun _ => ⟨fun h => h.le, fun _ _ => ?_⟩, fun hno => absurd ⟨_, hc⟩ hno⟩
    show (Function.update s.simulator_cpu_data c
      { s.simulator_cpu_data c with
        current := pcb, preemption_timer := cfg.time_slice } c).preemption_timer = _ ∧ _
    rw [Function.update_self]
    exact ⟨(Int.sub_zero _).symm, id⟩
  | @relock state hc =>
    refine ⟨fun ⟨state, hu⟩ => by simp [hc] at hu, fun _ => ⟨hot.slice, fun _ hcur => ?_⟩⟩
    exact hot.timer (by rw [hc]; trivial) hcur
  | back hc =>
    refine ⟨fun ⟨state, hu⟩ => by simp [hc] at hu, fun _ => ⟨hot.slice, fun _ hcur => ?_⟩⟩
    exact hot.timer (by rw [hc]; trivial) hcur

/-- A turn of the supervisor that is not a tick on the CPU leaves it alone. -/
theorem Coherent.supervisor_elsewhere (h : Coherent s place) (hcalm : s.calm .supervisor = true)
    (hs : s.next cfg .supervisor = some (s', es)) (hno : ¬ s.Ticks c .supervisor) :
    s'.thread c = s.thread c ∧ s'.simulator_cpu_data c = s.simulator_cpu_data c := by
  change s.supervisorStep cfg = some (s', es) at hs
  by_cases htick : ∃ d p, s.supervisor = .cpus (d : Fin ncpu).val ∧
      (s.simulator_cpu_data d).current = some p
  · obtain ⟨d, p, hsup, hcur⟩ := htick
    have hd : c ≠ d := by
      rintro rfl
      exact hno ⟨rfl, hsup, by simp [hcur]⟩
    have hproc := supervisorStep_tick hsup hcur hs
    refine ⟨?_, simulateProcess_data hproc hd⟩
    rw [(h.tickTurn hsup hcur hcalm hproc).thread]
    split
    · exact Function.update_of_ne hd ..
    · rfl
  · cases h.supervisorTurn hcalm hs with
    | tick hsup hcur => exact absurd ⟨_, _, hsup, hcur⟩ htick
    | exit | start | read | simulate | skip | simulated | resume | noRequest | request | complete
    | creat | noCreat | done | wake | inside | woken | wokenIo | wokenCreat => exact ⟨rfl, rfl⟩

/-- A tick lets the stop-watch and the timer go on together. -/
theorem OnTime.tick (h : Coherent s place) (hot : OnTime cfg s c n)
    (hcalm : s.calm .supervisor = true) (hs : s.next cfg .supervisor = some (s', es))
    (htick : s.Ticks c .supervisor) : OnTime cfg s' c (n + 1) := by
  obtain ⟨-, hsup, hcur⟩ := htick
  obtain ⟨p, hp⟩ := Option.ne_none_iff_exists'.mp hcur
  have hproc := supervisorStep_tick hsup hp hs
  have hturn := h.tickTurn hsup hp hcalm hproc
  obtain ⟨hthread, -, -⟩ := h.tick_owns hsup hp
  obtain ⟨htimer, hless⟩ := hot.timer (settled_of_tick hthread) hcur
  have hslice : 0 < cfg.time_slice → ((n + 1 : Nat) : Int) ≤ cfg.time_slice := by
    intro hpos
    have := hless hpos
    omega
  refine ⟨hslice, ?_⟩
  have hevent := hturn.thread
  cases h.timerTick hsup hp hproc with
  | preempt | finish =>
    -- the thread is signalled
    intro hsettled'
    rw [hevent] at hsettled'
    change (Function.update s.thread c .signalled c).Settled at hsettled'
    rw [Function.update_self] at hsettled'
    exact hsettled'.elim
  | count _ hne hcount =>
    intro _ _
    rw [hcount, htimer]
    refine ⟨by omega, fun hpos => ?_⟩
    have := hslice hpos
    omega

theorem Sim.Watched.onTime (hs : Sim.Watched cfg c s n) : OnTime cfg s c n := by
  induction hs with
  | initial hinit =>
    refine ⟨fun h => h.le, fun _ hcur => ?_⟩
    rw [hinit.data] at hcur
    exact absurd rfl hcur
  | @switch s s' n t es hw hcalm hnext hswitch ih =>
    obtain ⟨es', hrun⟩ := hw.run
    obtain ⟨place, h⟩ := hrun.coherent
    obtain ⟨rfl, hstate⟩ := hswitch
    exact ((h.moved hcalm hnext).threadTurn.onTime ih).1 hstate
  | @tick s s' n t es hw hcalm hnext htick ih =>
    obtain ⟨es', hrun⟩ := hw.run
    obtain ⟨place, h⟩ := hrun.coherent
    obtain rfl := htick.1
    exact ih.tick h hcalm hnext htick
  | @other s s' n t es hw hcalm hnext hswitch htick ih =>
    obtain ⟨es', hrun⟩ := hw.run
    obtain ⟨place, h⟩ := hrun.coherent
    cases t with
    | supervisor =>
      obtain ⟨hthread, hdata⟩ := h.supervisor_elsewhere hcalm hnext htick
      exact ih.congr hthread hdata
    | thread d =>
      have hmove := (h.moved hcalm hnext).threadTurn
      by_cases hd : c = d
      · subst hd
        exact (hmove.onTime ih).2 fun hu => hswitch ⟨rfl, hu⟩
      · have hf := hmove.frame h
        exact ih.congr (hf.thread c hd) (hf.data c hd)
    | spurious d =>
      cases h.moved hcalm hnext with
      | spurious => exact ih.congr rfl rfl

/-! ## When the timer goes off -/

/-- The turn stores `CPU_PREEMPT` for the CPU. -/
def Sim.Preempts (s s' : Sim ncpu nproc) (c : Fin ncpu) : Prop :=
  (s'.simulator_cpu_data c).state = .preempt ∧ (s.simulator_cpu_data c).state ≠ .preempt

theorem ThreadTurn.not_preempts (hs : ThreadTurn cfg s c s') : ¬ s.Preempts s' c := by
  rintro ⟨hafter, hbefore⟩
  cases hs with
  | idle | sleep => simp [Sim.setThread, Sim.setCpuState, Sim.setData] at hafter
  | publish =>
    simp only [Sim.setThread, Sim.publish, Sim.setData, Function.update_self] at hafter
    exact hbefore hafter
  | read | count | callIdle | call | inside | unlock | relock | back => exact hbefore hafter

/-- A tick stores `CPU_PREEMPT` when the timer is at one and the burst has not ended. -/
theorem Coherent.preempts_iff (h : Coherent s place) (hcalm : s.calm .supervisor = true)
    (hs : s.next cfg .supervisor = some (s', es)) (htick : s.Ticks c .supervisor) :
    s.Preempts s' c ↔ s.InBurst c ∧ (s.simulator_cpu_data c).preemption_timer = 1 := by
  obtain ⟨-, hsup, hcur⟩ := htick
  obtain ⟨p, hp⟩ := Option.ne_none_iff_exists'.mp hcur
  have hproc := supervisorStep_tick hsup hp hs
  have hturn := h.tickTurn hsup hp hcalm hproc
  have hstate := hturn.state c
  have hasleep := hturn.asleep
  rw [if_pos rfl] at hstate
  rw [Sim.Preempts]
  cases h.timerTick hsup hp hproc with
  | preempt hburst htimer =>
    have hrunning := (h.cpuOkAt (hasleep rfl)).2
    refine ⟨fun _ => ⟨hburst, htimer⟩, fun _ => ⟨hstate, ?_⟩⟩
    rw [hrunning]
    simp
  | count _ hne =>
    refine ⟨fun hpre => ?_, fun hone => absurd hone.2 hne⟩
    change _ = (s.simulator_cpu_data c).state at hstate
    exact absurd (hstate.symm.trans hpre.1) hpre.2
  | @finish v hburst hv =>
    refine ⟨fun hpre => ?_, fun hone => absurd hone.1 hburst⟩
    exact absurd (hstate.symm.trans hpre.1) hv

/-- The time slice is kept exactly. In a calm run a process stays on its CPU for at most
`time_slice` ticks after the `context_switch` that put it there; and `CPU_PREEMPT` is stored for a
CPU by tick number `time_slice`, if that tick is still within the burst, and by nothing else. -/
theorem time_slice_exact (hs : Sim.Watched cfg c s n) :
    (0 < cfg.time_slice → n ≤ cfg.time_slice) ∧
      ∀ t s' es, s.calm t = true → s.next cfg t = some (s', es) →
        (s.Preempts s' c ↔ s.Ticks c t ∧ s.InBurst c ∧ n + 1 = cfg.time_slice) := by
  have hot := hs.onTime
  obtain ⟨es₀, hrun⟩ := hs.run
  obtain ⟨place, h⟩ := hrun.coherent
  refine ⟨hot.slice, ?_⟩
  intro t s' es hcalm hnext
  cases t with
  | supervisor =>
    by_cases htick : s.Ticks c .supervisor
    · obtain ⟨-, hsup, hcur⟩ := htick
      have hiff := h.preempts_iff hcalm hnext ⟨rfl, hsup, hcur⟩
      obtain ⟨p, hp⟩ := Option.ne_none_iff_exists'.mp hcur
      obtain ⟨hthread, -, -⟩ := h.tick_owns hsup hp
      have htimer := (hot.timer (settled_of_tick hthread) hcur).1
      rw [hiff, htimer]
      constructor
      · rintro ⟨hburst, hone⟩
        exact ⟨⟨rfl, hsup, hcur⟩, hburst, by omega⟩
      · rintro ⟨-, hburst, hlast⟩
        exact ⟨hburst, by omega⟩
    · obtain ⟨-, hdata⟩ := h.supervisor_elsewhere hcalm hnext htick
      refine ⟨fun hpre => ?_, fun hall => absurd hall.1 htick⟩
      rw [Sim.Preempts, hdata] at hpre
      exact absurd hpre.1 hpre.2
  | thread d =>
    refine ⟨fun hpre => ?_, fun hall => by simp [Sim.Ticks] at hall⟩
    have hmove := (h.moved hcalm hnext).threadTurn
    by_cases hd : c = d
    · subst hd
      exact absurd hpre hmove.not_preempts
    · rw [Sim.Preempts, (hmove.frame h).data c hd] at hpre
      exact absurd hpre.1 hpre.2
  | spurious d =>
    refine ⟨fun hpre => ?_, fun hall => by simp [Sim.Ticks] at hall⟩
    cases h.moved hcalm hnext with
    | spurious => exact absurd hpre.1 hpre.2

/-- Round robin with a time slice of one tick. -/
def oneTick : Config := ⟨'r', 1⟩

/-- The first tick of the process preempts it. -/
theorem time_slice_exact_oneTick : ∃ (s s' : Sim 1 1) (n : Nat) (es : List (Event 1 1)),
    Sim.Watched oneTick 0 s n ∧ s.next oneTick .supervisor = some (s', es) ∧ s.Preempts s' 0 ∧
      n = 0 := by
  have hexec : ((oneProcess.exec oneTick Sim.calm [] (oneProcessTurns.take 27)).bind fun r =>
      (r.1.next oneTick .supervisor).map fun r' =>
        r.1.calm .supervisor && (r'.1.simulator_cpu_data 0).state == .preempt &&
          (r.1.simulator_cpu_data 0).state != .preempt) = some true := by decide +kernel
  obtain ⟨⟨s, es⟩, hexec, hstep⟩ := Option.bind_eq_some_iff.mp hexec
  obtain ⟨⟨s', es'⟩, hnext, hstate⟩ := Option.map_eq_some_iff.mp hstep
  simp only [Bool.and_eq_true, beq_iff_eq, bne_iff_ne] at hstate
  obtain ⟨⟨hcalm, hafter⟩, hbefore⟩ := hstate
  obtain ⟨n, hn⟩ := ((Sim.Run.initial oneProcess_initial).exec hexec).watched 0
  have hpre : s.Preempts s' 0 := ⟨hafter, hbefore⟩
  obtain ⟨-, -, hlast⟩ := ((time_slice_exact hn).2 .supervisor s' es' hcalm hnext).mp hpre
  have hone : (n : ℤ) + 1 = 1 := hlast
  exact ⟨s, s', n, es', hn, hnext, hpre, by omega⟩

end ECE3056.Scheduling
