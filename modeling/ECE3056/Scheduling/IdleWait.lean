import ECE3056.Scheduling.Exclusive

/-!
# Waiting for a process

`idle` blocks on `not_idle` in one critical section and pops in another. A thread
that is blocked and not yet released by a broadcast has an empty ready list, in
every interleaving; and a thread that comes too late takes nothing.
-/

namespace ECE3056.Scheduling

open ECE3056.Custody

variable {ncpu nproc ncaller : Nat} {scheduling_alg : Char}

/-- As `Reachable`, but `wake_up` may be called for any process at any time. -/
inductive Interleaved (scheduling_alg : Char) : State ncpu nproc ncaller → Prop
  | initial {s} : Initial s → Interleaved scheduling_alg s
  | step {s s' a} : Interleaved scheduling_alg s → step scheduling_alg s a = some s' →
      Interleaved scheduling_alg s'
  | wakeUp {s} {w : Fin ncaller} (process : Fin nproc) : Interleaved scheduling_alg s →
      s.caller w = .ret → Interleaved scheduling_alg (s.setCaller w (.wakeUp process))

/-- A thread is blocked on `not_idle` only while nothing is queued. -/
def State.NoLostWakeup (s : State ncpu nproc ncaller) : Prop :=
  ∀ c, s.cpu c = .condWait → s.ready.head = none

/-- `c` pops from the ready list: it selects NULL and leaves an empty list alone, or takes a queued
process that no other CPU owns off the list. -/
def State.PopsOnce (s s' : State ncpu nproc ncaller) (c : Fin ncpu) : Prop :=
  s'.cpu c = .setCurrent none ∧ s.ready.head = none ∧ s'.ready = s.ready ∨
    ∃ p ys zs, s'.cpu c = .setRunning p ∧ s.ready.Holds (ys ++ p :: zs) ∧
      s'.ready.Holds (ys ++ zs) ∧ p ∉ ys ++ zs ∧ ∀ c', ¬ s.Owns c' p

variable {s s' : State ncpu nproc ncaller}

theorem Reachable.interleaved (hs : Reachable scheduling_alg s) :
    Interleaved scheduling_alg s := by
  induction hs with
  | initial h => exact .initial h
  | step _ hstep ih => exact ih.step hstep

/-! ## What each step does to the waiters -/

namespace State.NoLostWakeup

theorem setCpu (h : s.NoLostWakeup) {c : Fin ncpu} {pc : Cpu nproc}
    (hpc : pc = .condWait → s.ready.head = none) : (s.setCpu c pc).NoLostWakeup := by
  intro d hd
  change Function.update s.cpu c pc d = .condWait at hd
  by_cases hdc : d = c
  · rw [hdc, Function.update_self] at hd
    exact hpc hd
  · rw [Function.update_of_ne hdc] at hd
    exact h d hd

/-- A push releases every waiter. -/
theorem push {pcb : Fin nproc} (hs : s.push pcb = some s') : s'.NoLostWakeup := by
  obtain ⟨q, -, rfl⟩ := Option.map_eq_some_iff.mp hs
  intro c hc
  change (if s.cpu c = .condWait then Cpu.idle else s.cpu c) = .condWait at hc
  split at hc
  · simp at hc
  · contradiction

theorem pop (h : s.NoLostWakeup) {node : Option (Fin nproc)} {q : Queue nproc}
    (hpop : popFromQueue scheduling_alg s.time_remaining s.ready = some (node, q)) :
    State.NoLostWakeup { s with ready := q } := by
  intro c hc
  have hnone := h c hc
  rw [popFromQueue_none hnone] at hpop
  obtain ⟨-, rfl⟩ := Prod.mk.inj (Option.some_inj.mp hpop)
  exact hnone

theorem cpuStep (h : s.NoLostWakeup) {c : Fin ncpu}
    (hs : s.cpuStep scheduling_alg c = some s') : s'.NoLostWakeup := by
  cases hc : s.cpu c <;> rw [State.cpuStep.eq_def, hc] at hs <;> dsimp only at hs
  case idling => simp at hs
  case running => simp at hs
  case condWait => simp at hs
  case idle =>
    -- `head` is tested in the section that starts the wait
    obtain rfl := Option.some_inj.mp hs
    apply h.setCpu
    intro hpc
    by_contra hne
    rw [if_neg hne] at hpc
    simp at hpc
  case preempt =>
    obtain ⟨p, -, rfl⟩ := Option.map_eq_some_iff.mp hs
    exact State.NoLostWakeup.setCpu (s := s.setState p .ready) h (by simp)
  case yield =>
    obtain ⟨p, -, rfl⟩ := Option.map_eq_some_iff.mp hs
    exact State.NoLostWakeup.setCpu (s := s.setState p .waiting) h (by simp)
  case terminate =>
    obtain ⟨p, -, rfl⟩ := Option.map_eq_some_iff.mp hs
    exact State.NoLostWakeup.setCpu (s := s.setState p .terminated) h (by simp)
  case pushToQueue p =>
    obtain ⟨s₁, hpush, rfl⟩ := Option.map_eq_some_iff.mp hs
    exact (push hpush).setCpu (by simp)
  case popFromQueue =>
    obtain ⟨⟨node, q⟩, hpop, rfl⟩ := Option.map_eq_some_iff.mp hs
    apply (h.pop hpop).setCpu
    cases node <;> simp
  case setRunning p =>
    obtain rfl := Option.some_inj.mp hs
    exact State.NoLostWakeup.setCpu (s := s.setState p .running) h (by simp)
  case setCurrent pcb =>
    obtain rfl := Option.some_inj.mp hs
    exact State.NoLostWakeup.setCpu
      (s := { s with current := Function.update s.current c pcb }) h (by simp)
  case contextSwitch pcb =>
    obtain rfl := Option.some_inj.mp hs
    apply h.setCpu
    split <;> simp

theorem callerStep (h : s.NoLostWakeup) {w : Fin ncaller}
    (hs : s.callerStep scheduling_alg w = some s') : s'.NoLostWakeup := by
  cases hw : s.caller w <;> rw [State.callerStep.eq_def, hw] at hs <;> dsimp only at hs
  case ret => simp at hs
  case pushToQueue p =>
    obtain ⟨s₁, hpush, rfl⟩ := Option.map_eq_some_iff.mp hs
    have h₁ := push hpush
    exact h₁
  case compare p low_id low =>
    cases low_id <;> obtain rfl := Option.some_inj.mp hs <;> exact h
  all_goals
    obtain rfl := Option.some_inj.mp hs
    exact h

theorem step (h : s.NoLostWakeup) {a : Act ncpu nproc ncaller}
    (hs : step scheduling_alg s a = some s') : s'.NoLostWakeup := by
  cases a with
  | call c handler =>
    change s.call c handler = some s' at hs
    rw [State.call.eq_def] at hs
    split at hs
    all_goals first
      | (rw [← Option.some_inj.mp hs]
         exact h.setCpu (by simp))
      | simp at hs
  | cpu c => exact h.cpuStep hs
  | spurious c =>
    change s.spurious c = some s' at hs
    rw [State.spurious] at hs
    split at hs
    · obtain rfl := Option.some_inj.mp hs
      exact h.setCpu (by simp)
    · simp at hs
  | callWakeUp w p =>
    change s.callWakeUp w p = some s' at hs
    rw [State.callWakeUp] at hs
    split at hs
    · obtain rfl := Option.some_inj.mp hs
      exact h
    · simp at hs
  | caller w => exact h.callerStep hs
  | setTime p time =>
    obtain rfl := Option.some_inj.mp hs
    exact h

end State.NoLostWakeup

theorem Interleaved.noLostWakeup (hs : Interleaved scheduling_alg s) : s.NoLostWakeup := by
  induction hs with
  | initial h =>
    intro c hc
    rw [h.cpu c] at hc
    simp at hc
  | step _ hstep ih => exact ih.step hstep
  | wakeUp _ _ _ ih => exact ih

/-! ## The pop -/

theorem Placed.popsOnce {place : Fin nproc → Thread ncpu ncaller ⊕ Rest} (hp : Placed s place)
    {c : Fin ncpu} (hc : s.cpu c = .popFromQueue) :
    ∃ s', s.cpuStep scheduling_alg c = some s' ∧ s.PopsOnce s' c := by
  obtain ⟨xs, hxs, hmem⟩ := hp.queue
  obtain ⟨node, q, hpop, hnode⟩ := popFromQueue_holds hxs scheduling_alg s.time_remaining
  refine ⟨_, by rw [State.cpuStep, hc]; dsimp only; rw [hpop]; rfl, ?_⟩
  rcases hnode with ⟨rfl, rfl, rfl⟩ | ⟨ys, p, zs, rfl, rfl, hq⟩
  · exact .inl ⟨cpu_setCpu_self .., hxs.isList, rfl⟩
  · have hnodup := hxs.nodup
    rw [List.nodup_middle, List.nodup_cons] at hnodup
    refine .inr ⟨p, ys, zs, cpu_setCpu_self .., hxs, hq, hnodup.1, ?_⟩
    intro c' howns
    have hplace := (hmem p).mp (by simp)
    rw [hp.place_eq (owns_iff.mp howns).1] at hplace
    simp at hplace

/-- No wakeup is lost by an idle CPU: in every interleaving a thread is blocked only while the
ready list is empty, a thread that finds the list empty after all selects NULL and leaves the list
as it is, and no process is taken twice. -/
theorem no_wakeup_lost (hs : Interleaved scheduling_alg s) :
    (∀ c, s.cpu c = .condWait → s.ready.head = none) ∧
      (∀ c, s.cpu c = .popFromQueue → s.ready.head = none →
        ∃ s', s.cpuStep scheduling_alg c = some s' ∧ s'.cpu c = .setCurrent none ∧
          s'.ready = s.ready) ∧
      (Reachable scheduling_alg s → ∀ c, s.cpu c = .popFromQueue →
        ∃ s', s.cpuStep scheduling_alg c = some s' ∧ s.PopsOnce s' c) := by
  refine ⟨hs.noLostWakeup, ?_, ?_⟩
  · intro c hc hnone
    refine ⟨_, ?_, cpu_setCpu_self .., rfl⟩
    rw [State.cpuStep, hc]
    dsimp only
    rw [popFromQueue_none hnone]
    rfl
  · intro hreach c hc
    obtain ⟨place, hp⟩ := hreach.placed
    exact hp.popsOnce hc

/-! ## A race for one process -/

/-- Both CPUs wait; process 0 is woken up, and CPU 0 takes it before CPU 1 does. -/
def raceForOne : List (Act 2 2 1) :=
  [.call 0 .idle, .cpu 0, .call 1 .idle, .cpu 1, .callWakeUp 0 0, .caller 0, .caller 0, .cpu 0,
    .cpu 1, .cpu 0]

theorem raceForOne_isSome : (run 'f' twoCpus raceForOne).isSome = true := by decide +kernel

def raceLost : State 2 2 1 := (run 'f' twoCpus raceForOne).get raceForOne_isSome

theorem raceLost_reachable : Reachable 'f' raceLost :=
  (Reachable.initial ⟨rfl, fun _ => rfl, fun _ => rfl, fun _ => rfl⟩).run
    (Option.some_get raceForOne_isSome).symm

/-- CPU 1 has come too late. -/
theorem no_wakeup_lost_race : (raceLost.cpu 0 = .setRunning 0 ∧ raceLost.cpu 1 = .popFromQueue) ∧
    ∃ s', raceLost.cpuStep 'f' 1 = some s' ∧ s'.cpu 1 = .setCurrent none ∧
      s'.ready = raceLost.ready :=
  ⟨by decide +kernel, (no_wakeup_lost raceLost_reachable.interleaved).2.1 1 (by decide +kernel)
    (by decide +kernel)⟩

end ECE3056.Scheduling
