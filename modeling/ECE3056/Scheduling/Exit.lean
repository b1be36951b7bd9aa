import ECE3056.Library.Tally
import ECE3056.Scheduling.ExactService
import ECE3056.Scheduling.Turns

/-!
# When the simulator exits

The supervisor stops when `processes_terminated` has reached the number of processes.
The counter is raised before `terminate` is called, and so it runs ahead of the PCBs
by the CPUs that are on their way into that handler; but then the supervisor waits.
Where it tests the counter, the counter is the number of terminated processes.
-/

namespace ECE3056.Scheduling

open ECE3056.Custody ECE3056.Tally

variable {ncpu nproc ncaller : Nat} {cfg : Config}

/-! ## Resting places, as the PCBs show them -/

section Places
variable {s s' : State ncpu nproc ncaller} {place place' : Fin nproc → Thread ncpu ncaller ⊕ Rest}

theorem Placed.terminated_iff (hp : Placed s place) (p : Fin nproc) :
    s.state p = .terminated ↔ place p = .inr .terminated := by
  obtain ⟨xs, -, hxs⟩ := hp.queue
  exact hp.at_iff hxs p .terminated

theorem Placed.uncreated_iff (hp : Placed s place) (p : Fin nproc) :
    (s.state p = .new ∧ ∀ w, s.caller w ≠ .wakeUp p) ↔ place p = .inr .uncreated := by
  obtain ⟨xs, -, hxs⟩ := hp.queue
  exact hp.at_iff hxs p .uncreated

/-- The number of processes that have terminated. -/
def State.terminated (s : State ncpu nproc ncaller) : Nat :=
  tally Finset.univ fun p => s.state p = .terminated

theorem Placed.terminated_eq (hp : Placed s place) :
    s.terminated = tally Finset.univ fun p => place p = .inr .terminated :=
  tally_congr fun p _ => hp.terminated_iff p

/-- A step of a handler terminates the process in hand, or none. -/
theorem CpuMoves.terminated {c : Fin ncpu} (hm : CpuMoves s c place place')
    (hp : Placed s place) (hp' : Placed s' place') :
    s'.terminated = s.terminated + if s.cpu c = .terminate then 1 else 0 := by
  rw [hp.terminated_eq, hp'.terminated_eq]
  have hmoved : ∀ p, place p ≠ .inr .terminated → ∀ l,
      (tally Finset.univ fun q => Function.update place p l q = .inr .terminated) =
        (tally Finset.univ fun q => place q = .inr .terminated) +
          if l = .inr .terminated then 1 else 0 := by
    intro p hplace l
    have hchange := tally_change (s := Finset.univ) (p := fun q => place q = .inr .terminated)
      (q := fun q => Function.update place p l q = .inr .terminated) (Finset.mem_univ p)
      (fun q _ hq => by rw [Function.update_of_ne hq])
    rw [if_neg hplace] at hchange
    simpa only [Function.update_self, Nat.add_zero] using hchange
  cases hm with
  | stay _ hnt => rw [if_neg hnt, Nat.add_zero]
  | push p hc hplace =>
    rw [hmoved p (by simp [hplace])]
    simp [hc]
  | pop p hc hplace =>
    rw [hmoved p (by simp [hplace])]
    simp [hc]
  | yield p hc _ hplace =>
    rw [hmoved p (by simp [hplace])]
    simp [hc]
  | terminate p hc _ hplace =>
    rw [hmoved p (by simp [hplace])]
    simp [hc]

/-- A step of `wake_up` terminates nobody. -/
theorem CallerMoves.terminated {w : Fin ncaller} (hm : CallerMoves s w place place')
    (hp : Placed s place) (hp' : Placed s' place') : s'.terminated = s.terminated := by
  rw [hp.terminated_eq, hp'.terminated_eq]
  apply tally_congr
  intro q _
  cases hm with
  | stay => rfl
  | push p hc =>
    have hplace := hp.place_eq (hand_inr hc)
    by_cases hq : q = p
    · simp [hq, hplace]
    · rw [Function.update_of_ne hq]

end Places

/-! ## The counter -/

variable {s s' : Sim ncpu nproc} {place : Fin nproc → Thread ncpu 1 ⊕ Rest} {c d : Fin ncpu}
variable {es es' : List (Event ncpu nproc)} {t : Turn ncpu}

namespace Sim

/-- The process of the CPU has been counted, and `terminate` has not marked it yet. -/
def Ending (s : Sim ncpu nproc) (c : Fin ncpu) : Prop :=
  s.thread c = .counted ∨ s.sched.cpu c = .terminate

instance (s : Sim ncpu nproc) : DecidablePred s.Ending :=
  fun _ => inferInstanceAs (Decidable (_ ∨ _))

def TerminatedCounted (s : Sim ncpu nproc) : Prop :=
  s.processes_terminated = s.sched.terminated + tally Finset.univ s.Ending

end Sim

/-- A CPU on its way into `terminate` keeps the supervisor waiting. -/
theorem Coherent.busy_of_ending (h : Coherent s place) (hc : s.Ending c) : s.Busy c := by
  rcases hc with hc | hpc
  · exact (h.cpuOkAt hc).2
  · by_contra hnb
    have hcpu := h.pendingOp_eq_cpu (c := c) fun k hk => hnb ⟨k, hk⟩
    rw [Sim.pendingOp, hpc] at hcpu
    simp [Cpu.opDue] at hcpu

/-- Nothing that the counter depends on has changed. -/
theorem Sim.TerminatedCounted.congr (h : s.TerminatedCounted)
    (hcount : s'.processes_terminated = s.processes_terminated)
    (hstate : s'.sched.terminated = s.sched.terminated) (hending : ∀ d, s'.Ending d ↔ s.Ending d) :
    s'.TerminatedCounted := by
  rw [Sim.TerminatedCounted, hcount, hstate, tally_congr fun d _ => hending d]
  exact h

/-- The CPU of a thread that moves is the only one that can come to be ending or stop to be. -/
theorem ThreadFrame.ending_iff (hf : ThreadFrame s s' c) (hd : d ≠ c) :
    s'.Ending d ↔ s.Ending d := by
  rw [Sim.Ending, Sim.Ending, hf.thread d hd]
  rcases hf.sched.cpu d (by simpa using hd) with heq | ⟨hwait, hidle⟩
  · rw [heq]
  · simp [hwait, hidle]

theorem ThreadFrame.tally_ending (hf : ThreadFrame s s' c) :
    tally Finset.univ s'.Ending + (if s.Ending c then 1 else 0) =
      tally Finset.univ s.Ending + if s'.Ending c then 1 else 0 :=
  tally_change (Finset.mem_univ c) fun _ _ hd => hf.ending_iff hd

/-- Only a thread that has counted its process or runs a handler can be ending it. -/
theorem Coherent.not_ending (h : Coherent s place) (hcounted : s.thread c ≠ .counted)
    (hstudent : ∀ state, s.thread c ≠ .student state) : ¬ s.Ending c := by
  rintro (hc | hpc)
  · exact hcounted hc
  · have hout : ¬ s.Outside c := by
      rintro (⟨hcpu, -⟩ | ⟨hcpu, -⟩) <;> simp [hpc] at hcpu
    cases hc : s.thread c with
    | top | published _ | returned => exact hout (h.cpuOkAt hc)
    | asleep => exact hout (.inl (h.cpuOkAt hc).1)
    | signalled => exact hout (.inl (h.cpuOkAt hc).1)
    | counted => exact hcounted hc
    | student state => exact hstudent state hc
    | dispatch state =>
      rcases h.cpuOkAt hc with ⟨-, howns, -⟩ | ⟨-, hcpu, -⟩
      · exact hout (.inl howns)
      · simp [hpc] at hcpu
    | unlocked state =>
      obtain ⟨⟨pcb, hcpu⟩, -⟩ := h.cpuOkAt hc
      simp [hpc] at hcpu

theorem ThreadFrame.terminatedCounted (hf : ThreadFrame s s' c) (h : s.TerminatedCounted)
    (hsum : s'.processes_terminated + s.sched.terminated + (if s.Ending c then 1 else 0) =
      s.processes_terminated + s'.sched.terminated + if s'.Ending c then 1 else 0) :
    s'.TerminatedCounted := by
  rw [Sim.TerminatedCounted] at h ⊢
  have htally := hf.tally_ending
  omega

theorem ThreadTurn.terminatedCounted {place' : Fin nproc → Thread ncpu 1 ⊕ Rest}
    (h : Coherent s place) (h' : Coherent s' place') (hs : ThreadTurn cfg s c s')
    (hcount : s.TerminatedCounted) : s'.TerminatedCounted := by
  have hf := hs.frame h
  -- the thread is neither before nor after the move on its way into `terminate`
  have hnone : s'.processes_terminated = s.processes_terminated →
      s'.sched.terminated = s.sched.terminated → ¬ s.Ending c → ¬ s'.Ending c →
      s'.TerminatedCounted := by
    intro hn hstate hbefore hafter
    apply hf.terminatedCounted hcount
    rw [hn, hstate, if_neg hbefore, if_neg hafter]
  cases hs with
  | idle hc | sleep hc =>
    obtain ⟨hframe, -, -, hsched⟩ := signal_frame (s := s) (c := c) (by simp [hc])
    apply hnone
    · show (s.signal c).processes_terminated = _
      rw [Sim.signal.eq_def]
      split <;> split <;> rfl
    · exact congrArg State.terminated hsched
    · exact h.not_ending (by simp [hc]) (by simp [hc])
    · exact h'.not_ending (by simp [thread_setThread]) (by simp [thread_setThread])
  | read hc =>
    exact hnone rfl rfl (h.not_ending (by simp [hc]) (by simp [hc]))
      (h'.not_ending (by simp [thread_setThread]) (by simp [thread_setThread]))
  | count hc =>
    apply hf.terminatedCounted hcount
    rw [if_neg (h.not_ending (by simp [hc]) (by simp [hc])),
      if_pos (show Sim.Ending _ c from .inl (thread_setThread ..))]
    show s.processes_terminated + 1 + s.sched.terminated + 0 =
      s.processes_terminated + s.sched.terminated + 1
    omega
  | callIdle hc =>
    refine hnone rfl rfl (h.not_ending (by simp [hc]) (by simp [hc])) ?_
    rintro (hafter | hafter)
    · simp [thread_setThread] at hafter
    · simp [Sim.setThread] at hafter
  | call state hcalls =>
    apply hf.terminatedCounted hcount
    have hcpu : (s.callHandler c state (Coherent.entry state)).1.sched.cpu c =
        Coherent.entry state := cpu_setCpu_self ..
    have hthread : (s.callHandler c state (Coherent.entry state)).1.thread c = .student state :=
      thread_setThread ..
    have hiff : (s.callHandler c state (Coherent.entry state)).1.Ending c ↔ s.Ending c := by
      obtain ⟨hevent, howns, -⟩ := h.calls_running hcalls
      rw [Sim.Ending, Sim.Ending, hcpu, hthread, howns.1]
      cases hc : s.thread c <;> rw [hc] at hcalls
      case dispatch state' =>
        obtain ⟨rfl, -, hne⟩ := hcalls
        cases state' <;> simp [Coherent.entry] at hne ⊢
      case counted =>
        obtain rfl : state = .terminate := hcalls
        simp [Coherent.entry]
      all_goals exact hcalls.elim
    rw [if_congr hiff rfl rfl]
    rfl
  | @inside state sched hc hne hstep =>
    obtain ⟨place₁, hspec⟩ := h.placed.cpuStep_spec hstep
    have hstate := hspec.moves.terminated h.placed hspec.placed
    have hafter : ¬ Sim.Ending { s with sched } c := by
      rintro (hafter | hafter)
      · simp [hc] at hafter
      · refine (cpuStep_inside hstep hne).2 ?_
        rw [hafter]
        trivial
    have hbefore : s.Ending c ↔ s.sched.cpu c = .terminate := by simp [Sim.Ending, hc]
    apply hf.terminatedCounted hcount
    rw [if_neg hafter, if_congr hbefore rfl rfl]
    show s.processes_terminated + s.sched.terminated + _ =
      s.processes_terminated + sched.terminated + 0
    omega
  | unlock hc hpc =>
    refine hnone rfl rfl ?_
      (h'.not_ending (by simp [thread_setThread]) (by simp [thread_setThread]))
    rintro (hbefore | hbefore)
    · simp [hc] at hbefore
    · simp [hpc] at hbefore
  | publish hc | back hc =>
    exact hnone rfl rfl (h.not_ending (by simp [hc]) (by simp [hc]))
      (h'.not_ending (by simp [thread_setThread]) (by simp [thread_setThread]))
  | relock hc =>
    refine hnone rfl rfl (h.not_ending (by simp [hc]) (by simp [hc])) (h'.not_ending ?_ ?_)
    · rw [thread_setThread]
      split <;> simp
    · rw [thread_setThread]
      split <;> simp

theorem SupervisorTurn.terminatedCounted (h : Coherent s place) (hs : SupervisorTurn cfg s s')
    (hcount : s.TerminatedCounted) : s'.TerminatedCounted := by
  cases hs with
  | @tick c p event s' _ _ htick =>
    obtain ⟨time, hsched⟩ := htick.sched
    refine hcount.congr htick.terminated (by rw [hsched]; rfl) ?_
    intro d
    rw [Sim.Ending, Sim.Ending, hsched, htick.thread]
    apply or_congr_left
    split
    · rename_i hevent
      by_cases hd : d = c
      · simp [hd, htick.asleep hevent]
      · rw [Function.update_of_ne hd]
    · rfl
  | @inside back sched hsup hstep =>
    obtain ⟨place', hspec⟩ := h.placed.callerStep_spec hstep
    refine hcount.congr rfl (hspec.moves.terminated h.placed hspec.placed) ?_
    intro d
    apply or_congr_right
    rcases hspec.frame.cpu d (by simp) with heq | ⟨hwait, hidle⟩
    · rw [heq]
    · simp [hwait, hidle]
  | exit | start | read | simulate | skip | simulated | resume | noRequest | request | complete
  | creat | noCreat | done | wake | woken | wokenIo | wokenCreat =>
    exact hcount.congr rfl rfl fun _ => Iff.rfl

theorem Moved.terminatedCounted {place' : Fin nproc → Thread ncpu 1 ⊕ Rest}
    (h : Coherent s place) (h' : Coherent s' place') (hs : Moved cfg s t s')
    (hcount : s.TerminatedCounted) : s'.TerminatedCounted := by
  cases hs with
  | supervisor hmove => exact hmove.terminatedCounted h hcount
  | thread _ hmove => exact hmove.terminatedCounted h h' hcount
  | @spurious c _ hwait =>
    refine hcount.congr rfl rfl fun d => or_congr_right ?_
    show Function.update s.sched.cpu c .idle d = _ ↔ _
    by_cases hd : d = c
    · simp [hd, hwait]
    · rw [Function.update_of_ne hd]

theorem Sim.Run.terminatedCounted (hs : Sim.Run cfg Sim.calm s es) : s.TerminatedCounted := by
  induction hs with
  | @initial s hinit =>
    have hnone : s.sched.terminated = 0 := by
      rw [State.terminated, tally, Finset.card_eq_zero, Finset.filter_eq_empty_iff]
      intro p _
      rw [hinit.sched.state]
      simp
    have hending : tally Finset.univ s.Ending = 0 := by
      rw [tally, Finset.card_eq_zero, Finset.filter_eq_empty_iff]
      intro c _
      rw [Sim.Ending, hinit.thread, hinit.sched.cpu]
      simp
    rw [Sim.TerminatedCounted, hinit.terminated, hnone, hending]
  | step hrun hcalm hnext ih =>
    obtain ⟨place, h⟩ := hrun.coherent
    obtain ⟨place', h'⟩ := (hrun.step hcalm hnext).coherent
    exact (h.moved hcalm hnext).terminatedCounted h h' ih

/-- While the supervisor waits for no CPU, the counter is the number of terminated processes. -/
theorem Coherent.counted (h : Coherent s place) (hcount : s.TerminatedCounted)
    (hwait : ∀ c k, s.supervisor ≠ .wait c k) : s.processes_terminated = s.sched.terminated := by
  have hnone : tally Finset.univ s.Ending = 0 := by
    rw [tally, Finset.card_eq_zero, Finset.filter_eq_empty_iff]
    intro c _ hc
    obtain ⟨k, hk⟩ := h.busy_of_ending hc
    exact hwait c k hk
  rw [hcount, hnone, Nat.add_zero]

theorem State.terminated_eq_iff {s : State ncpu nproc ncaller} :
    nproc ≤ s.terminated ↔ ∀ p, s.state p = .terminated := by
  have hcard : (Finset.univ : Finset (Fin nproc)).card = nproc := by simp
  have hle : s.terminated ≤ nproc := by
    rw [State.terminated, tally]
    exact (Finset.card_filter_le ..).trans hcard.le
  have hall := Finset.card_filter_eq_iff (s := (Finset.univ : Finset (Fin nproc)))
    (p := fun p => s.state p = .terminated)
  rw [hcard] at hall
  constructor
  · intro hge p
    exact hall.mp (Nat.le_antisymm hle hge) p (Finset.mem_univ p)
  · intro h
    exact Nat.le_of_eq (hall.mpr fun p _ => h p).symm

/-! ## The ticks that a process has run -/

/-- The number of times that `simulate_process` was called for a process. -/
def simulatedTicks (p : Fin nproc) (es : List (Event ncpu nproc)) : Nat :=
  es.countP fun
    | .simulated q _ => q = p
    | .stored .. | .called .. | .running _ => false

theorem simulatedTicks_append (p : Fin nproc) (es es' : List (Event ncpu nproc)) :
    simulatedTicks p (es ++ es') = simulatedTicks p es + simulatedTicks p es' :=
  List.countP_append

/-- What a tick shows: its process with the operation it stands at, and then the event. -/
theorem simulateProcess_shows {p : Fin nproc} (h : s.simulateProcess c p = some (s', es)) :
    ∃ op event, s.op p = some op ∧
      es = .simulated p op.type :: (Option.map (Event.stored c) event).toList := by
  obtain ⟨op, hop, h⟩ := Option.bind_eq_some_iff.mp h
  refine ⟨op, ?_⟩
  split at h
  case h_1 htype =>
    rw [htype]
    split at h
    · dsimp only at h
      split at h
      · obtain ⟨-, rfl⟩ := Prod.mk.inj (Option.some_inj.mp h)
        exact ⟨some .preempt, hop, rfl⟩
      · obtain ⟨-, rfl⟩ := Prod.mk.inj (Option.some_inj.mp h)
        exact ⟨none, hop, rfl⟩
    · obtain ⟨op', -, h⟩ := Option.bind_eq_some_iff.mp h
      split at h
      · obtain ⟨-, rfl⟩ := Prod.mk.inj (Option.some_inj.mp h)
        exact ⟨some .yield, hop, rfl⟩
      · obtain ⟨-, rfl⟩ := Prod.mk.inj (Option.some_inj.mp h)
        exact ⟨some .terminate, hop, rfl⟩
      · obtain ⟨-, rfl⟩ := Prod.mk.inj (Option.some_inj.mp h)
        exact ⟨none, hop, rfl⟩
  case h_2 htype | h_3 htype =>
    rw [htype]
    obtain ⟨-, rfl⟩ := Prod.mk.inj (Option.some_inj.mp h)
    exact ⟨none, hop, rfl⟩

theorem simulatedTicks_shows (p q : Fin nproc) (type : OpType) (event : Option CpuState) :
    simulatedTicks q (.simulated p type :: (Option.map (Event.stored c) event).toList) =
      if p = q then 1 else 0 := by
  cases event <;> by_cases hpq : p = q <;> simp [simulatedTicks, hpq]

theorem simulatedTicks_eq_zero {p : Fin nproc} (h : ∀ type, .simulated p type ∉ es) :
    simulatedTicks p es = 0 := by
  rw [simulatedTicks, List.countP_eq_zero]
  intro e he
  cases e with
  | simulated q type =>
    simp only [decide_eq_true_eq]
    rintro rfl
    exact h type he
  | stored | called | running => simp

/-- A turn runs a process for as many ticks as it takes off what is left of its program. -/
theorem Coherent.ticks_next (h : Coherent s place) (hcalm : s.calm t = true)
    (hs : s.next cfg t = some (s', es)) (p : Fin nproc) :
    simulatedTicks p es + s'.account.ticksLeft p = s.account.ticksLeft p := by
  have hobs := (h.next hcalm hs).2
  rcases next_cases hs with ⟨hacc, hnone⟩ | ⟨c, q, htick⟩ | ⟨hio, rfl⟩
  · rw [simulatedTicks_eq_zero (hnone p), hacc, Nat.zero_add]
  · obtain ⟨op, event, hop, hes⟩ := simulateProcess_shows htick
    have hcpu : s.account.opType q = some .cpu := by
      have htype : op.type = .cpu := by
        apply hobs.simulated q
        rw [hes]
        exact List.mem_cons_self ..
      exact htype ▸ Account.opType_eq hop
    have hacc := (simulateProcess_tick htick).1
    rw [hes, simulatedTicks_shows]
    by_cases hqp : q = p
    · obtain ⟨request, hreceived⟩ := hacc.received (h.shape q) hcpu
      rw [if_pos hqp, ← hqp, Nat.add_comm]
      exact hreceived.ticks
    · rw [if_neg hqp, Nat.zero_add]
      exact (hacc.keeps (Ne.symm hqp)).ticksLeft
  · rw [show simulatedTicks p ([] : List (Event ncpu nproc)) = 0 from rfl, Nat.zero_add]
    have hacc := simulateIo_io hio
    generalize s'.account = a', woken s' = w at hacc
    cases hacc with
    | none => rfl
    | wait => rfl
    | @complete q rest op hqueue hop =>
      have hioType : s.account.opType q = some .io := (h.io_mem q).mp (by
        rw [show s.io_queue = _ from hqueue]
        exact List.mem_cons_self ..)
      by_cases hqp : p = q
      · rw [hqp]
        exact (Account.complete_received rest (h.shape q) hioType hop).1
      · have hkeeps : Account.Keeps s.account
            { s.account.advance q op with io_queue := rest } p :=
          ⟨rfl, Function.update_of_ne hqp ..⟩
        exact hkeeps.ticksLeft

/-- Over any turns the ticks run and the ticks left make up the same sum. -/
theorem Coherent.ticks_exec {ts : List (Turn ncpu)} (h : Coherent s place)
    (hexec : s.exec cfg Sim.calm es ts = some (s', es')) (p : Fin nproc) :
    simulatedTicks p es' + s'.account.ticksLeft p =
      simulatedTicks p es + s.account.ticksLeft p := by
  induction ts generalizing s es place with
  | nil =>
    obtain ⟨rfl, rfl⟩ := Prod.mk.inj (Option.some_inj.mp hexec)
    rfl
  | cons t ts ih =>
    rw [Sim.exec] at hexec
    split at hexec
    · rename_i hcalm
      split at hexec
      · rename_i s₁ es₁ hnext
        obtain ⟨⟨place₁, h₁⟩, -⟩ := h.next hcalm hnext
        have hstep := h.ticks_next hcalm hnext p
        rw [ih h₁ hexec, simulatedTicks_append]
        omega
      · simp at hexec
    · simp at hexec

/-! ## The exit -/

/-- A terminated process stands at the last operation of its program. -/
theorem Coherent.ticksLeft_of_terminated (h : Coherent s place) {p : Fin nproc}
    (hp : s.sched.state p = .terminated) :
    s.opType p = some .terminate ∧ s.account.ticksLeft p = 0 := by
  have hop := h.op p
  rw [(h.placed.terminated_iff p).mp hp] at hop
  have hterm : s.account.opType p = some .terminate := hop
  refine ⟨hop, ?_⟩
  obtain ⟨op, hop', htype⟩ := Account.op_of_opType hterm
  have hend := WellShaped.after_terminate (h.shape p) hop
  rw [← List.map_drop, List.map_eq_nil_iff] at hend
  rw [Account.ticksLeft_eq hop', if_neg (by simp [htype]),
    show (s.account.ops p).drop (s.account.pc p + 1) = [] from hend]
  rfl

/-- What the simulator leaves behind. -/
structure Sim.Finished (s : Sim ncpu nproc) : Prop where
  state : ∀ p, s.sched.state p = .terminated
  ready : s.sched.ready.head = none
  io_queue : s.io_queue = []
  cpus : ∀ c p, ¬ s.sched.Owns c p

theorem Coherent.finished (h : Coherent s place) (hall : ∀ p, s.sched.state p = .terminated) :
    s.Finished := by
  have hplace : ∀ p, place p = .inr .terminated := fun p => (h.placed.terminated_iff p).mp (hall p)
  refine ⟨hall, ?_, ?_, ?_⟩
  · obtain ⟨xs, hholds, hxs⟩ := h.placed.queue
    have hnil : xs = [] := by
      apply List.eq_nil_iff_forall_not_mem.mpr
      intro p hp
      simpa [hplace] using (hxs p).mp hp
    rw [hnil] at hholds
    exact hholds.isList
  · rw [← List.map_eq_nil_iff (f := Prod.fst)]
    apply List.eq_nil_iff_forall_not_mem.mpr
    intro p hp
    have hio := (h.io_mem p).mp hp
    rw [(h.ticksLeft_of_terminated (hall p)).1] at hio
    simp at hio
  · intro c p howns
    simpa [hplace] using h.placed.place_eq (owns_iff.mp howns).1

/-- The simulator has exited only after it has tested the counter. -/
theorem Sim.Run.exited (hs : Sim.Run cfg Sim.calm s es) (hexit : s.supervisor = .exited) :
    ∀ p, s.sched.state p = .terminated := by
  cases hs with
  | initial hinit => simp [hinit.supervisor] at hexit
  | @step s₀ _ es₀ _ t hrun hcalm hnext =>
    obtain ⟨place, h⟩ := hrun.coherent
    cases h.moved hcalm hnext with
    | supervisor hmove =>
      cases hmove with
      | exit hlock hend =>
        have hcount := h.counted hrun.terminatedCounted (by simp [hlock])
        rw [hcount] at hend
        exact State.terminated_eq_iff.mp hend
      | tick _ _ htick =>
        rw [htick.supervisor] at hexit
        split at hexit <;> simp at hexit
      | inside hsup => simp [hsup] at hexit
      | _ => simp [Sim.setSupervisor] at hexit
    | @thread c _ hrunning hmove =>
      rcases (hmove.frame h).supervisor with heq | ⟨k, -, hresume⟩
      · exact absurd (heq.symm.trans hexit) hrunning
      · simp [hresume] at hexit
    | spurious hrunning => exact absurd hexit hrunning

/-- The simulator exits when every process has terminated and no sooner: where the supervisor tests
`processes_terminated`, the counter is the number of terminated processes; and after the exit every
process has been run for as many ticks as its program asks for, and nothing is queued, waits for
I/O or is on a CPU. -/
theorem exit_complete {s₀ : Sim ncpu nproc} (h₀ : s₀.Initial) {ts : List (Turn ncpu)}
    (hexec : s₀.exec cfg Sim.calm [] ts = some (s, es)) :
    (s.supervisor = .lock → s.processes_terminated = s.sched.terminated ∧
        (nproc ≤ s.processes_terminated ↔ ∀ p, s.sched.state p = .terminated)) ∧
      (s.supervisor = .exited →
        s.Finished ∧ ∀ p, simulatedTicks p es = burstTicks (s₀.ops p)) := by
  have hrun : Sim.Run cfg Sim.calm s es := (Sim.Run.initial h₀).exec hexec
  obtain ⟨place, h⟩ := hrun.coherent
  constructor
  · intro hlock
    have hcount := h.counted hrun.terminatedCounted (by simp [hlock])
    exact ⟨hcount, by rw [hcount]; exact State.terminated_eq_iff⟩
  · intro hexit
    have hall := hrun.exited hexit
    refine ⟨h.finished hall, ?_⟩
    intro p
    have hticks := (coherent_initial h₀).ticks_exec hexec p
    have hstart : s₀.account.ticksLeft p = burstTicks (s₀.ops p) := by
      show burstTicks ((s₀.ops p).drop (s₀.pc p)) = _
      rw [h₀.pc, List.drop_zero]
    rw [(h.ticksLeft_of_terminated (hall p)).2, hstart] at hticks
    simpa [simulatedTicks] using hticks

/-- One CPU and one process with a burst of two ticks. -/
def oneProcess : Sim 1 1 where
  sched := ⟨⟨none, fun _ => none⟩, fun _ => 1, fun _ => .new, fun _ => none, fun _ => .idling,
    fun _ => .ret⟩
  simulator_cpu_data := fun _ => ⟨none, .idle, -1⟩
  thread := fun _ => .top
  supervisor := .lock
  ops := fun _ => [⟨.cpu, 1⟩, ⟨.terminate, 0⟩]
  pc := fun _ => 0
  io_queue := []
  simulator_time := 0
  processes_created := 0
  processes_terminated := 0
  writers := 0

theorem oneProcess_initial : oneProcess.Initial where
  sched := ⟨rfl, fun _ => rfl, fun _ => rfl, fun _ => rfl⟩
  data := fun _ => rfl
  thread := fun _ => rfl
  supervisor := rfl
  shape := fun _ => rfl
  pc := fun _ => rfl
  io_queue := rfl
  time := rfl
  created := rfl
  terminated := rfl
  writers := rfl

/-- The whole simulation. -/
def oneProcessTurns : List (Turn 1) :=
  List.replicate 3 (.thread 0) ++ List.replicate 10 .supervisor ++
    List.replicate 8 (.thread 0) ++ List.replicate 15 .supervisor ++
    List.replicate 12 (.thread 0) ++ List.replicate 6 .supervisor

theorem exit_complete_oneProcess : ∃ (s : Sim 1 1) (es : List (Event 1 1)),
    s.supervisor = .exited ∧ s.Finished ∧
      ∀ p, simulatedTicks p es = burstTicks (oneProcess.ops p) := by
  have hexec : (oneProcess.exec fifo Sim.calm [] oneProcessTurns).map (fun r => r.1.supervisor) =
      some .exited := by decide +kernel
  obtain ⟨⟨s, es⟩, hexec, hexit⟩ := Option.map_eq_some_iff.mp hexec
  exact ⟨s, es, hexit, (exit_complete oneProcess_initial hexec).2 hexit⟩

end ECE3056.Scheduling
