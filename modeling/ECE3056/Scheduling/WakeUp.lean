import ECE3056.Scheduling.Exclusive
import Mathlib.Data.Fintype.EquivFin
import Mathlib.Data.Fintype.Lattice

/-!
# Preemption by wake_up

What one call of `wake_up` does under LRTF, from any state of the scheduler. Its
loop over `current[]` is bounded by a `cpu_count` that is never set.
-/

namespace ECE3056.Scheduling

variable {ncpu nproc ncaller : Nat} {scheduling_alg : Char}

/-- The CPU that `force_preempt` is called on. -/
def Caller.preempted : Caller ncpu nproc → List (Fin ncpu)
  | forcePreempt low_id => [low_id]
  | _ => []

/-- A thread runs `wake_up` to its end by itself, in at most so many steps: the CPUs that it calls
`force_preempt` on, and the state it leaves. -/
def wakeUpRun (scheduling_alg : Char) (w : Fin ncaller) :
    Nat → State ncpu nproc ncaller → Option (List (Fin ncpu) × State ncpu nproc ncaller)
  | 0, s => if s.caller w = .ret then some ([], s) else none
  | n + 1, s =>
    if s.caller w = .ret then some ([], s)
    else do
      let s₁ ← s.callerStep scheduling_alg w
      let (preempted, s') ← wakeUpRun scheduling_alg w n s₁
      return ((s.caller w).preempted ++ preempted, s')

namespace State

/-- The CPU runs a process with the least time remaining among those that run. -/
def Lowest (s : State ncpu nproc ncaller) (c : Fin ncpu) : Prop :=
  ∃ pcb, s.current c = some pcb ∧
    ∀ c' pcb', s.current c' = some pcb' → s.time_remaining pcb ≤ s.time_remaining pcb'

/-- No CPU is idle, and the least time remaining is less than that of the process. -/
def ShouldPreempt (s : State ncpu nproc ncaller) (process : Fin nproc) : Prop :=
  (∀ c, s.current c ≠ none) ∧
    ∃ c pcb, s.Lowest c ∧ s.current c = some pcb ∧ s.time_remaining pcb < s.time_remaining process

/-- What the comment on `wake_up` asks of a call that starts with these processes in the ready
list. -/
structure WakesUp (s : State ncpu nproc ncaller) (process : Fin nproc) (xs : List (Fin nproc))
    (preempted : List (Fin ncpu)) (s' : State ncpu nproc ncaller) : Prop where
  appended : s'.ready.Holds (xs ++ [process])
  preempts : s.ShouldPreempt process → ∃ c, preempted = [c] ∧ s.Lowest c
  spares : ¬ s.ShouldPreempt process → preempted = []

end State

variable {s s' : State ncpu nproc ncaller} {w : Fin ncaller} {process : Fin nproc}

/-- When no CPU is idle, one of them runs a process with the least time remaining. -/
theorem exists_lowest (hbusy : ∀ c, s.current c ≠ none) (c₀ : Fin ncpu) : ∃ c, s.Lowest c := by
  have : Nonempty (Fin ncpu) := ⟨c₀⟩
  let time := fun c => ((s.current c).map fun pcb => (s.time_remaining pcb).toNat).getD 0
  obtain ⟨c, hc⟩ := Finite.exists_min time
  obtain ⟨pcb, hpcb⟩ := Option.ne_none_iff_exists'.mp (hbusy c)
  refine ⟨c, pcb, hpcb, ?_⟩
  intro c' pcb' hpcb'
  have hle := hc c'
  simp only [time, hpcb, hpcb', Option.map_some, Option.getD_some] at hle
  exact UInt32.le_iff_toNat_le.mpr hle

theorem not_shouldPreempt_iff : ¬ s.ShouldPreempt process ↔
    (∃ c, s.current c = none) ∨
      ∀ c pcb, s.current c = some pcb → s.time_remaining process ≤ s.time_remaining pcb := by
  constructor
  · intro h
    by_cases hidle : ∃ c, s.current c = none
    · exact .inl hidle
    · right
      intro c pcb hpcb
      by_contra hlt
      have hbusy : ∀ c, s.current c ≠ none := fun c hc => hidle ⟨c, hc⟩
      obtain ⟨low_id, low, hlow, hmin⟩ := exists_lowest hbusy c
      have hless := UInt32.lt_of_le_of_lt (hmin c pcb hpcb) (UInt32.not_le.mp hlt)
      exact h ⟨hbusy, low_id, low, ⟨low, hlow, hmin⟩, hlow, hless⟩
  · intro h hshould
    obtain ⟨hbusy, c, pcb, -, hpcb, hlt⟩ := hshould
    rcases h with ⟨c', hc'⟩ | hall
    · exact hbusy c' hc'
    · exact UInt32.not_le.mpr hlt (hall c pcb hpcb)

/-- The loop of `wake_up` is never entered. -/
theorem scanCurrent_eq (s : State ncpu nproc ncaller) :
    scanCurrent s.current s.time_remaining ((List.finRange ncpu).take cpuCount) none 10 =
      (none, 10) := rfl

/-- A call of `wake_up` appends its process and preempts no CPU. -/
theorem wakeUpRun_eq {xs : List (Fin nproc)} (hs : s.ready.Holds xs) (hp : process ∉ xs)
    (hw : s.caller w = .wakeUp process) :
    ∃ s', wakeUpRun 'l' w 5 s = some ([], s') ∧ s'.ready.Holds (xs ++ [process]) := by
  obtain ⟨q, hpush, hq⟩ := pushToQueue_holds hs hp
  -- the states after `state` is set, after the push, and as `current[]` is compared
  let s₁ := (s.setState process .ready).setCaller w (.pushToQueue process)
  let s₂ := ({ s₁ with ready := q }.broadcast).setCaller w (.scan process)
  let s₃ := s₂.setCaller w (.compare process none 10)
  have h₁ : s₁.caller w = .pushToQueue process := caller_setCaller_self ..
  have h₂ : s₂.caller w = .scan process := caller_setCaller_self ..
  have h₃ : s₃.caller w = .compare process none 10 := caller_setCaller_self ..
  have step₁ : s.callerStep 'l' w = some s₁ := by rw [State.callerStep, hw]
  have step₂ : s₁.callerStep 'l' w = some s₂ := by
    have hpush₁ : s₁.push process = some ({ s₁ with ready := q }.broadcast) := by
      rw [State.push, show s₁.ready = s.ready from rfl, hpush]
      rfl
    rw [State.callerStep, h₁]
    dsimp only
    rw [hpush₁]
    rfl
  have step₃ : s₂.callerStep 'l' w = some s₃ := by
    rw [State.callerStep, h₂]
    dsimp only
    rw [scanCurrent_eq]
  have step₄ : s₃.callerStep 'l' w = some (s₃.setCaller w .ret) := by
    rw [State.callerStep, h₃]
  refine ⟨s₃.setCaller w .ret, ?_, hq⟩
  simp [wakeUpRun, hw, h₁, h₂, h₃, step₁, step₂, step₃, step₄, Caller.preempted]

/-- `wake_up` appends its process and preempts as it should if and only if some CPU is idle or no
running process has less time remaining. -/
theorem wake_up_preempts_iff {xs : List (Fin nproc)} (hs : s.ready.Holds xs) (hp : process ∉ xs)
    (hw : s.caller w = .wakeUp process) :
    (∃ preempted s', wakeUpRun 'l' w 5 s = some (preempted, s') ∧
        s.WakesUp process xs preempted s') ↔
      (∃ c, s.current c = none) ∨
        ∀ c pcb, s.current c = some pcb → s.time_remaining process ≤ s.time_remaining pcb := by
  obtain ⟨s', hrun, hready⟩ := wakeUpRun_eq hs hp hw
  rw [← not_shouldPreempt_iff]
  constructor
  · intro h hshould
    obtain ⟨preempted, t, hrun', hwakes⟩ := h
    obtain ⟨rfl, rfl⟩ := Prod.mk.inj (Option.some_inj.mp (hrun.symm.trans hrun'))
    obtain ⟨c, hc, -⟩ := hwakes.preempts hshould
    simp at hc
  · intro h
    exact ⟨[], s', hrun, hready, fun hshould => absurd hshould h, fun _ => rfl⟩

/-- With an idle CPU there is nothing to preempt. -/
theorem wake_up_preempts_idle :
    ∃ preempted s', wakeUpRun 'l' 0 5 (twoCpus.setCaller 0 (.wakeUp 0)) = some (preempted, s') ∧
      (twoCpus.setCaller 0 (.wakeUp 0)).WakesUp 0 [] preempted s' := by
  have hhead : (twoCpus.setCaller 0 (.wakeUp 0)).ready.head = none := rfl
  have hready : (twoCpus.setCaller 0 (.wakeUp 0)).ready.Holds [] := ⟨hhead, List.nodup_nil⟩
  exact (wake_up_preempts_iff hready (by simp) rfl).mpr (.inl ⟨0, rfl⟩)

/-! ## A longer process is woken up -/

/-- One CPU and two processes, before the first step. -/
def oneCpu : State 1 2 1 where
  ready := ⟨none, fun _ => none⟩
  time_remaining := fun _ => 3
  state := fun _ => .new
  current := fun _ => none
  cpu := fun _ => .idling
  caller := fun _ => .ret

/-- The CPU runs process 0 until one unit of its time is left; process 1 is woken up. -/
def runShort : List (Act 1 2 1) :=
  [.callWakeUp 0 0, .caller 0, .caller 0, .caller 0, .caller 0, .call 0 .idle, .cpu 0, .cpu 0,
    .cpu 0, .cpu 0, .cpu 0, .setTime 0 1, .callWakeUp 0 1]

theorem runShort_isSome : (run 'l' oneCpu runShort).isSome = true := by decide +kernel

def shortRunning : State 1 2 1 := (run 'l' oneCpu runShort).get runShort_isSome

theorem longer_process_waits :
    Reachable 'l' shortRunning ∧ shortRunning.caller 0 = .wakeUp 1 ∧ shortRunning.ready.Holds [] ∧
      ¬ ∃ preempted s', wakeUpRun 'l' 0 5 shortRunning = some (preempted, s') ∧
        shortRunning.WakesUp 1 [] preempted s' := by
  have hw : shortRunning.caller 0 = .wakeUp 1 := by decide +kernel
  have hhead : shortRunning.ready.head = none := by decide +kernel
  have hready : shortRunning.ready.Holds [] := ⟨hhead, List.nodup_nil⟩
  have hcur : shortRunning.current 0 = some 0 := by decide +kernel
  have htime : ¬ shortRunning.time_remaining 1 ≤ shortRunning.time_remaining 0 := by
    decide +kernel
  refine ⟨?_, hw, hready, ?_⟩
  · exact (Reachable.initial ⟨rfl, fun _ => rfl, fun _ => rfl, fun _ => rfl⟩).run
      (Option.some_get runShort_isSome).symm
  · intro h
    obtain ⟨preempted, s', hrun, hwakes⟩ := h
    obtain ⟨t, hrun', -⟩ := wakeUpRun_eq hready (List.not_mem_nil (a := 1)) hw
    obtain ⟨rfl, rfl⟩ := Prod.mk.inj (Option.some_inj.mp (hrun.symm.trans hrun'))
    have hshould : shortRunning.ShouldPreempt 1 := by
      by_contra hspare
      rcases not_shouldPreempt_iff.mp hspare with ⟨c, hc⟩ | hall
      · rw [Subsingleton.elim c 0, hcur] at hc
        simp at hc
      · exact htime (hall 0 0 hcur)
    obtain ⟨c, hc, -⟩ := hwakes.preempts hshould
    simp at hc

end ECE3056.Scheduling
