import ECE3056.Library.LockCount
import ECE3056.Scheduling.Events
import Mathlib.Data.Fintype.Option

/-!
# The writers of student_lock

`IRWL_WRITER_LOCK` and `IRWL_WRITER_UNLOCK` stand in different functions:
`context_switch` and `force_preempt` give up and take again what the caller of
their caller has taken. `idle` is called without the lock, and goes through the
same `context_switch`.
-/

namespace ECE3056.Scheduling

open ECE3056.LockCount

variable {ncpu nproc : Nat} {cfg : Config}

/-- The `IRWL_WRITER_LOCK`s that a CPU thread has executed, less the `IRWL_WRITER_UNLOCK`s. -/
def CpuThread.depth : CpuThread → Int
  | student state => if state = CpuState.idle then 0 else 1
  | unlocked state | published state => if state = CpuState.idle then -1 else 0
  | returned => 1
  | top | asleep | signalled | dispatch _ | counted => 0

/-- The same for the supervisor. -/
def Supervisor.depth : Supervisor ncpu nproc → Int
  | waking _ => 1
  | _ => 0

namespace Sim

/-- The depth of each thread; `none` is the supervisor. -/
def depth (s : Sim ncpu nproc) : Option (Fin ncpu) → Int
  | none => s.supervisor.depth
  | some c => (s.thread c).depth

/-- `writers` counts the threads between an `IRWL_WRITER_LOCK` and its `IRWL_WRITER_UNLOCK`, and
there are none while the supervisor is inside `IRWL_READER_LOCK`. -/
structure WritersCounted (s : Sim ncpu nproc) : Prop where
  nonneg : 0 ≤ s.writers
  count : s.writers = holders s.depth
  exclusive : s.supervisor = .reading → holders s.depth = 0

/-- A CPU that was idle is in `context_switch`, between its two `IRWL` macros. -/
def SwitchesFromIdle (s : Sim ncpu nproc) (c : Fin ncpu) : Prop :=
  s.thread c = .unlocked .idle ∨ s.thread c = .published .idle

/-- The step is not the `IRWL_WRITER_UNLOCK` of `context_switch` on a CPU that was idle. -/
def keepsLock (s : Sim ncpu nproc) : Turn ncpu → Bool
  | .thread c =>
    match s.thread c, s.sched.cpu c with
    | .student .idle, .contextSwitch _ => false
    | _, _ => true
  | .supervisor | .spurious _ => true

/-- What every run keeps true of `writers`. -/
structure Balanced (s : Sim ncpu nproc) : Prop where
  counts : Counts s.writers s.depth
  reading : s.supervisor = .reading → s.writers ≤ 0

/-- What a step does to the lock. -/
structure LockStep (s : Sim ncpu nproc) (t : Turn ncpu) (s' : Sim ncpu nproc) : Prop where
  /-- At most one thread executes a macro of the writers. -/
  one : ∃ u d, s'.depth = Function.update s.depth u d ∧ s'.writers = s.writers + (d - s.depth u)
  /-- Nobody changes `writers` under the reader. -/
  reading : s'.supervisor = .reading →
    s'.writers ≤ 0 ∨ s.supervisor = .reading ∧ s'.writers = s.writers
  idle : ∀ c, s'.SwitchesFromIdle c → s.SwitchesFromIdle c ∨ s.keepsLock t = false

end Sim

variable {s s' s₁ : Sim ncpu nproc} {c : Fin ncpu} {es : List (Event ncpu nproc)}

theorem CpuThread.depth_le_one (t : CpuThread) : t.depth ≤ 1 := by
  unfold depth
  split <;> try split
  all_goals decide

theorem CpuThread.depth_neg_iff (t : CpuThread) :
    t.depth < 0 ↔ t = .unlocked .idle ∨ t = .published .idle := by
  cases t with
  | student state | unlocked state | published state => cases state <;> simp [depth]
  | top | asleep | signalled | dispatch _ | counted | returned => simp [depth]

theorem Supervisor.depth_cases (v : Supervisor ncpu nproc) : v.depth = 0 ∨ v.depth = 1 := by
  cases v <;> simp [depth]

namespace Sim

/-- The counter is right exactly when no CPU switches from idle. -/
theorem Balanced.counted_iff (h : s.Balanced) :
    s.WritersCounted ↔ ∀ c, ¬ s.SwitchesFromIdle c := by
  have hone : ∀ t, s.depth t ≤ 1 := by
    intro t
    cases t with
    | none =>
      have := s.supervisor.depth_cases
      show s.supervisor.depth ≤ 1
      omega
    | some c => exact (s.thread c).depth_le_one
  have hcount := h.counts.eq_holders_iff hone
  have hidle : (∀ t, 0 ≤ s.depth t) ↔ ∀ c, ¬ s.SwitchesFromIdle c := by
    constructor
    · intro hpos c hc
      exact Int.not_lt.mpr (hpos (some c)) ((CpuThread.depth_neg_iff _).mpr hc)
    · intro hnone t
      cases t with
      | none =>
        have := s.supervisor.depth_cases
        show 0 ≤ s.supervisor.depth
        omega
      | some c => exact Int.not_lt.mp fun hc => hnone c ((CpuThread.depth_neg_iff _).mp hc)
  rw [← hidle, ← hcount]
  constructor
  · exact fun hw => hw.count
  · intro heq
    refine ⟨by omega, heq, ?_⟩
    intro hread
    have := h.reading hread
    omega

/-! ## Depths over single steps -/

theorem depth_setThread (s : Sim ncpu nproc) (c : Fin ncpu) (t : CpuThread) :
    (s.setThread c t).depth = Function.update s.depth (some c) t.depth := by
  funext u
  cases u with
  | none => rfl
  | some d =>
    show (Function.update s.thread c t d).depth = _
    by_cases hd : d = c
    · rw [hd, Function.update_self, Function.update_self]
    · rw [Function.update_of_ne hd, Function.update_of_ne (by simpa using hd)]
      rfl

theorem depth_setSupervisor (s : Sim ncpu nproc) (v : Supervisor ncpu nproc) :
    (s.setSupervisor v).depth = Function.update s.depth none v.depth := by
  funext u
  cases u with
  | none => rfl
  | some d => rfl

/-- A signal takes no lock and gives none up. -/
theorem depth_signal (s : Sim ncpu nproc) (c : Fin ncpu) : (s.signal c).depth = s.depth := by
  rw [signal]
  split
  · rename_i d k hwait
    split
    · rw [depth_setSupervisor]
      apply Function.update_eq_self_iff.mpr
      show _ = s.supervisor.depth
      rw [hwait]
      rfl
    · rfl
  · split
    · rename_i hasleep
      rw [depth_setThread]
      apply Function.update_eq_self_iff.mpr
      show _ = (s.thread c).depth
      rw [hasleep]
      rfl
    · rfl

theorem writers_signal (s : Sim ncpu nproc) (c : Fin ncpu) : (s.signal c).writers = s.writers := by
  rw [signal]
  split <;> split <;> rfl

theorem reading_of_signal (h : (s.signal c).supervisor = .reading) : s.supervisor = .reading := by
  rw [signal] at h
  split at h
  · split at h
    · simp [setSupervisor] at h
    · exact h
  · split at h <;> exact h

namespace LockStep

theorem switches_of_depth (hdepth : (s'.thread c).depth = (s.thread c).depth)
    (h : s'.SwitchesFromIdle c) : s.SwitchesFromIdle c := by
  rw [SwitchesFromIdle, ← CpuThread.depth_neg_iff] at h ⊢
  rwa [← hdepth]

/-- The supervisor moves on. -/
theorem supervisor {v : Supervisor ncpu nproc}
    (hthread : ∀ d, (s₁.thread d).depth = (s.thread d).depth)
    (hw : s₁.writers = s.writers + (v.depth - s.supervisor.depth))
    (hread : v = .reading → s₁.writers ≤ 0) : LockStep s .supervisor (s₁.setSupervisor v) := by
  refine ⟨⟨none, v.depth, ?_, hw⟩, fun hv => .inl (hread hv),
    fun d hd => .inl (switches_of_depth (hthread d) hd)⟩
  funext t
  cases t with
  | none => rfl
  | some d => exact hthread d

/-- A CPU thread moves on. -/
theorem thread {t : CpuThread} (hdepth : s₁.depth = s.depth)
    (hw : s₁.writers = s.writers + (t.depth - (s.thread c).depth))
    (hread : s₁.supervisor = .reading → s.supervisor = .reading ∧ s₁.writers = s.writers)
    (hidle : t.depth < 0 → s.SwitchesFromIdle c ∨ s.keepsLock (.thread c) = false) :
    LockStep s (.thread c) (s₁.setThread c t) := by
  refine ⟨⟨some c, t.depth, by rw [depth_setThread, hdepth], hw⟩, fun h => .inr (hread h), ?_⟩
  intro d hd
  by_cases hdc : d = c
  · subst hdc
    apply hidle
    rw [SwitchesFromIdle, ← CpuThread.depth_neg_iff] at hd
    change (Function.update s₁.thread d t d).depth < 0 at hd
    rwa [Function.update_self] at hd
  · left
    apply switches_of_depth _ hd
    show (Function.update s₁.thread c t d).depth = _
    rw [Function.update_of_ne hdc]
    exact congrFun hdepth (some d)

/-- A step of the scheduler is none of the lock. -/
theorem setSched (s : Sim ncpu nproc) (sched : State ncpu nproc 1) (t : Turn ncpu) :
    LockStep s t { s with sched } :=
  ⟨⟨none, s.depth none, (Function.update_eq_self none _).symm,
    by rw [Int.sub_self, Int.add_zero]⟩,
    fun h => .inr ⟨h, rfl⟩, fun _ hd => .inl hd⟩

/-- An event is stored for a CPU. -/
theorem raise (hthread : s₁.thread = s.thread) (hw : s₁.writers = s.writers)
    (hzero : s.supervisor.depth = 0) (v : CpuState) (k : Cont) :
    LockStep s .supervisor (s₁.raise c v k) := by
  apply supervisor
  · intro d
    rw [← hthread]
    exact congrFun (depth_signal (s₁.setCpuState c v) c) (some d)
  · rw [writers_signal, hzero]
    exact hw.trans (Int.add_zero _).symm
  · simp

theorem balanced {t : Turn ncpu} (h : LockStep s t s') (hs : s.Balanced) : s'.Balanced := by
  constructor
  · obtain ⟨t, d, hdepth, hw⟩ := h.one
    rw [hdepth, hw]
    exact hs.counts.update t d
  · intro hread
    rcases h.reading hread with hw | ⟨hread', hw⟩
    · exact hw
    · rw [hw]
      exact hs.reading hread'

end LockStep

/-! ## The steps of the supervisor -/

theorem simulateProcess_lockStep (hsup : s.supervisor.depth = 0) {pcb : Fin nproc}
    (hs : s.simulateProcess c pcb = some (s', es)) : LockStep s .supervisor s' := by
  have hnext : ∀ {s₁ : Sim ncpu nproc} {n : Nat}, s₁.thread = s.thread → s₁.writers = s.writers →
      LockStep s .supervisor (s₁.setSupervisor (.cpus n)) := by
    intro s₁ n hthread hw
    apply LockStep.supervisor (fun d => by rw [hthread]) _ (by simp)
    rw [hsup, hw]
    exact (Int.add_zero _).symm
  obtain ⟨op, -, hs⟩ := Option.bind_eq_some_iff.mp hs
  split at hs
  · split at hs
    · dsimp only at hs
      split at hs
      · obtain ⟨rfl, -⟩ := Prod.mk.inj (Option.some_inj.mp hs)
        refine LockStep.raise ?_ ?_ hsup .. <;> rfl
      · obtain ⟨rfl, -⟩ := Prod.mk.inj (Option.some_inj.mp hs)
        exact hnext rfl rfl
    · obtain ⟨op', -, hs⟩ := Option.bind_eq_some_iff.mp hs
      split at hs
      · obtain ⟨rfl, -⟩ := Prod.mk.inj (Option.some_inj.mp hs)
        refine LockStep.raise ?_ ?_ hsup .. <;> rfl
      · obtain ⟨rfl, -⟩ := Prod.mk.inj (Option.some_inj.mp hs)
        refine LockStep.raise ?_ ?_ hsup .. <;> rfl
      · obtain ⟨rfl, -⟩ := Prod.mk.inj (Option.some_inj.mp hs)
        exact hnext rfl rfl
  · obtain ⟨rfl, -⟩ := Prod.mk.inj (Option.some_inj.mp hs)
    exact hnext rfl rfl
  · obtain ⟨rfl, -⟩ := Prod.mk.inj (Option.some_inj.mp hs)
    exact hnext rfl rfl

theorem supervisorStep_lockStep (hs : s.supervisorStep cfg = some (s', es)) :
    LockStep s .supervisor s' := by
  have hmove : ∀ {s₁ : Sim ncpu nproc} {v : Supervisor ncpu nproc}, s₁.thread = s.thread →
      s₁.writers = s.writers → v.depth = s.supervisor.depth → (v = .reading → s.writers ≤ 0) →
      LockStep s .supervisor (s₁.setSupervisor v) := by
    intro s₁ v hthread hw hv hread
    apply LockStep.supervisor (fun d => by rw [hthread]) _ (by rwa [hw])
    rw [hw, hv]
    omega
  rw [supervisorStep.eq_def] at hs
  cases hsup : s.supervisor <;> rw [hsup] at hs hmove
  case wait | exited => simp at hs
  all_goals try dsimp only at hs
  case lock =>
    obtain ⟨rfl, -⟩ := Prod.mk.inj (Option.some_inj.mp hs)
    split <;> exact hmove rfl rfl rfl (by simp)
  case gantt =>
    split at hs
    · simp at hs
    · rename_i hnone
      obtain ⟨rfl, -⟩ := Prod.mk.inj (Option.some_inj.mp hs)
      exact hmove rfl rfl rfl fun _ => by omega
  case cpus n =>
    split at hs
    · split at hs
      · exact simulateProcess_lockStep (by rw [hsup]; rfl) hs
      · obtain ⟨rfl, -⟩ := Prod.mk.inj (Option.some_inj.mp hs)
        exact hmove rfl rfl rfl (by simp)
    · obtain ⟨rfl, -⟩ := Prod.mk.inj (Option.some_inj.mp hs)
      exact hmove rfl rfl rfl (by simp)
  case resume d k =>
    cases k with
    | tick | force back =>
      obtain ⟨rfl, -⟩ := Prod.mk.inj (Option.some_inj.mp hs)
      exact hmove rfl rfl rfl (by simp)
  case io =>
    obtain ⟨s₁, hstep, heq⟩ := Option.map_eq_some_iff.mp hs
    obtain ⟨rfl, -⟩ := Prod.mk.inj heq
    rw [simulateIo] at hstep
    split at hstep
    · obtain rfl := Option.some_inj.mp hstep
      exact hmove rfl rfl rfl (by simp)
    · split at hstep
      · obtain ⟨op, -, hstep⟩ := Option.bind_eq_some_iff.mp hstep
        obtain rfl := Option.some_inj.mp hstep
        refine hmove ?_ ?_ ?_ (by simp) <;> rfl
      · obtain rfl := Option.some_inj.mp hstep
        refine hmove ?_ ?_ ?_ (by simp) <;> rfl
  case creat =>
    obtain ⟨rfl, -⟩ := Prod.mk.inj (Option.some_inj.mp hs)
    rw [simulateCreat]
    split <;> exact hmove rfl rfl rfl (by simp)
  case wake p back =>
    obtain ⟨rfl, -⟩ := Prod.mk.inj (Option.some_inj.mp hs)
    refine LockStep.supervisor (fun _ => rfl) ?_ (by simp)
    rw [hsup]
    rfl
  case waking back =>
    obtain ⟨s₁, hstep, heq⟩ := Option.map_eq_some_iff.mp hs
    obtain ⟨rfl, -⟩ := Prod.mk.inj heq
    rw [wakeUpStep] at hstep
    split at hstep
    · obtain rfl := Option.some_inj.mp hstep
      refine LockStep.supervisor (fun _ => rfl) ?_ (by simp)
      rw [hsup]
      rfl
    · obtain rfl := Option.some_inj.mp hstep
      refine LockStep.supervisor (fun _ => rfl) ?_ (by simp)
      rw [hsup]
      rfl
    · obtain ⟨sched, -, rfl⟩ := Option.map_eq_some_iff.mp hstep
      exact LockStep.setSched s sched _
  case forceUnlocked d back =>
    obtain rfl : (s.forcePreempt d back).1 = s' := congrArg Prod.fst (Option.some_inj.mp hs)
    rw [forcePreempt]
    split
    · refine LockStep.raise ?_ ?_ ?_ .. <;> first | rfl | (rw [hsup]; rfl)
    · exact hmove rfl rfl rfl (by simp)
  case forced back =>
    obtain ⟨sched, -, heq⟩ := Option.map_eq_some_iff.mp hs
    obtain ⟨rfl, -⟩ := Prod.mk.inj heq
    refine LockStep.supervisor (fun _ => rfl) ?_ (by simp)
    rw [hsup]
    rfl
  case woken back =>
    cases back with
    | io | creat =>
      obtain ⟨rfl, -⟩ := Prod.mk.inj (Option.some_inj.mp hs)
      exact hmove rfl rfl rfl (by simp)
  all_goals
    obtain ⟨rfl, -⟩ := Prod.mk.inj (Option.some_inj.mp hs)
    exact hmove rfl rfl rfl (by simp)

/-! ## The steps of the CPU threads -/

theorem threadStep_lockStep (hs : s.threadStep cfg c = some (s', es)) :
    LockStep s (.thread c) s' := by
  -- the thread goes on without a macro
  have hmove : ∀ {s₁ : Sim ncpu nproc} {t : CpuThread}, s₁.depth = s.depth →
      s₁.writers = s.writers → t.depth = (s.thread c).depth → s₁.supervisor = s.supervisor →
      LockStep s (.thread c) (s₁.setThread c t) := by
    intro s₁ t hdepth hw ht hsup
    apply LockStep.thread hdepth _ fun h => ⟨hsup ▸ h, hw⟩
    · intro hneg
      exact .inl ((CpuThread.depth_neg_iff _).mp (ht ▸ hneg))
    · rw [hw, ht]
      omega
  -- it executes a macro, which it cannot do under the reader
  have hlock : ∀ {s₁ : Sim ncpu nproc} {t : CpuThread}, s.supervisor ≠ .reading →
      s₁.depth = s.depth → s₁.supervisor = s.supervisor →
      s₁.writers = s.writers + (t.depth - (s.thread c).depth) →
      (t.depth < 0 → s.keepsLock (.thread c) = false) →
      LockStep s (.thread c) (s₁.setThread c t) :=
    fun hne hdepth hsup hw hidle =>
      LockStep.thread hdepth hw (fun h => absurd (hsup ▸ h) hne) fun hneg => .inr (hidle hneg)
  rw [threadStep.eq_def] at hs
  cases hc : s.thread c <;> rw [hc] at hs hmove hlock <;> dsimp only at hs
  case asleep => simp at hs
  case top =>
    split at hs
    · simp at hs
    · rename_i hfree
      obtain rfl : (s.topSection c).1 = s' := congrArg Prod.fst (Option.some_inj.mp hs)
      have hne : (s.signal c).supervisor ≠ .reading := by
        intro h
        rw [reading_of_signal h] at hfree
        exact hfree rfl
      have hset : ∀ {s₁ : Sim ncpu nproc} {t : CpuThread}, s₁.depth = (s.signal c).depth →
          s₁.writers = (s.signal c).writers → s₁.supervisor = (s.signal c).supervisor →
          t.depth = 0 → LockStep s (.thread c) (s₁.setThread c t) := by
        intro s₁ t hdepth hw hsup ht
        apply LockStep.thread (hdepth.trans (depth_signal s c))
        · rw [hw, writers_signal, ht, hc]
          exact (Int.add_zero _).symm
        · exact fun h => absurd (hsup ▸ h) hne
        · intro hneg
          omega
      rw [topSection]
      split
      · exact hset rfl rfl rfl rfl
      · exact hset rfl rfl rfl rfl
  case signalled =>
    split at hs
    · simp at hs
    · obtain ⟨rfl, -⟩ := Prod.mk.inj (Option.some_inj.mp hs)
      split <;> exact hmove rfl rfl rfl rfl
  case dispatch state =>
    cases state <;> dsimp only at hs
    case idle =>
      obtain ⟨rfl, -⟩ := Prod.mk.inj (Option.some_inj.mp hs)
      exact hmove rfl rfl rfl rfl
    case running =>
      obtain ⟨rfl, -⟩ := Prod.mk.inj (Option.some_inj.mp hs)
      exact hmove rfl rfl rfl rfl
    case terminate =>
      split at hs
      · simp at hs
      · obtain ⟨rfl, -⟩ := Prod.mk.inj (Option.some_inj.mp hs)
        exact hmove rfl rfl rfl rfl
    all_goals
      split at hs
      · simp at hs
      · rename_i hne
        obtain ⟨rfl, -⟩ := Prod.mk.inj (Option.some_inj.mp hs)
        exact hlock hne rfl rfl rfl fun hneg => absurd hneg (by decide)
  case counted =>
    split at hs
    · simp at hs
    · rename_i hne
      obtain ⟨rfl, -⟩ := Prod.mk.inj (Option.some_inj.mp hs)
      exact hlock hne rfl rfl rfl fun hneg => absurd hneg (by decide)
  case student state =>
    split at hs
    · rename_i pcb hpc
      split at hs
      · simp at hs
      · rename_i hne
        obtain ⟨rfl, -⟩ := Prod.mk.inj (Option.some_inj.mp hs)
        refine hlock hne rfl rfl ?_ ?_
        · cases state <;> rfl
        · -- `idle` gives up what it has not taken
          intro hneg
          rcases (CpuThread.depth_neg_iff _).mp hneg with hstate | hstate
          · rw [CpuThread.unlocked.inj hstate] at hc
            rw [keepsLock, hc, hpc]
          · simp at hstate
    · obtain ⟨sched, -, heq⟩ := Option.map_eq_some_iff.mp hs
      obtain ⟨rfl, -⟩ := Prod.mk.inj heq
      exact LockStep.setSched s sched _
  case unlocked state =>
    split at hs
    · split at hs
      · simp at hs
      · obtain ⟨s₁, hswitch, heq⟩ := Option.map_eq_some_iff.mp hs
        obtain ⟨rfl, -⟩ := Prod.mk.inj heq
        obtain ⟨sched, -, rfl⟩ := Option.map_eq_some_iff.mp hswitch
        exact hmove rfl rfl rfl rfl
    · simp at hs
  case published state =>
    split at hs
    · simp at hs
    · rename_i hne
      obtain ⟨rfl, -⟩ := Prod.mk.inj (Option.some_inj.mp hs)
      refine hlock hne rfl rfl ?_ ?_
      · cases state <;> rfl
      · intro hneg
        cases state <;> exact absurd hneg (by decide)
  case returned =>
    split at hs
    · simp at hs
    · rename_i hne
      obtain ⟨rfl, -⟩ := Prod.mk.inj (Option.some_inj.mp hs)
      exact hlock hne rfl rfl rfl fun hneg => absurd hneg (by decide)

/-! ## Runs -/

theorem next_lockStep {t : Turn ncpu} (hs : s.next cfg t = some (s', es)) : LockStep s t s' := by
  rw [next.eq_def] at hs
  cases t with
  | supervisor => exact supervisorStep_lockStep hs
  | thread c =>
    dsimp only at hs
    split at hs
    · simp at hs
    · exact threadStep_lockStep hs
  | spurious c =>
    dsimp only at hs
    split at hs
    · simp at hs
    · obtain ⟨s₁, hstep, heq⟩ := Option.map_eq_some_iff.mp hs
      obtain ⟨rfl, -⟩ := Prod.mk.inj heq
      obtain ⟨sched, -, rfl⟩ := Option.map_eq_some_iff.mp hstep
      exact LockStep.setSched s sched _

theorem balanced_initial (hs : s.Initial) : s.Balanced := by
  have hzero : ∀ t, s.depth t = 0 := by
    intro t
    cases t with
    | none =>
      show s.supervisor.depth = 0
      rw [hs.supervisor]
      rfl
    | some c =>
      show (s.thread c).depth = 0
      rw [hs.thread c]
      rfl
  constructor
  · rw [Counts, hs.writers]
    exact (Finset.sum_eq_zero fun t _ => hzero t).symm
  · intro _
    rw [hs.writers]

theorem Run.balanced {ok : Sim ncpu nproc → Turn ncpu → Bool} (hs : Run cfg ok s es) :
    s.Balanced := by
  induction hs with
  | initial h => exact balanced_initial h
  | step _ _ hnext ih => exact (next_lockStep hnext).balanced ih

/-- When no CPU that was idle executes the first macro, none comes to stand behind it. -/
theorem Run.not_switchesFromIdle (hs : Run cfg keepsLock s es) (c : Fin ncpu) :
    ¬ s.SwitchesFromIdle c := by
  induction hs with
  | initial h =>
    intro hc
    rw [SwitchesFromIdle, h.thread c] at hc
    simp at hc
  | step _ hok hnext ih =>
    intro hc
    rcases (next_lockStep hnext).idle c hc with hc | hlock
    · exact ih hc
    · rw [hok] at hlock
      simp at hlock

end Sim

/-- In every state of a run `writers` is the number of threads that hold the writer side, and no
reader overlaps them, if and only if no CPU that was idle is in `context_switch` between its two
macros. So it is in every state of a run in which no such CPU executes the first of them. -/
theorem writers_counted_iff (hs : Sim.Run cfg (fun _ _ => true) s es) :
    (s.WritersCounted ↔ ∀ c, ¬ s.SwitchesFromIdle c) ∧
      (Sim.Run cfg Sim.keepsLock s es → s.WritersCounted) := by
  have hiff := hs.balanced.counted_iff
  exact ⟨hiff, fun hkeeps => hiff.mpr hkeeps.not_switchesFromIdle⟩

/-! ## The first process that is started -/

theorem run_of_exec_map {α : Type} {f : Sim 1 processCount → α} {ts : List (Turn 1)} {a : α}
    (h : (startSimulator.exec fifo (fun _ _ => true) [] ts).map (fun r => f r.1) = some a) :
    ∃ s es, Sim.Run fifo (fun _ _ => true) s es ∧ f s = a := by
  obtain ⟨⟨s, es⟩, hexec, rfl⟩ := Option.map_eq_some_iff.mp h
  exact ⟨s, es, (Sim.Run.initial startSimulator_initial).exec hexec, rfl⟩

/-- The thread of CPU 0 has called `yield`. -/
def yieldingTurns : List (Turn 1) :=
  List.replicate 13 .supervisor ++ List.replicate 10 (.thread 0) ++
    List.replicate 20 .supervisor ++ List.replicate 3 (.thread 0)

theorem writers_counted_yielding :
    ∃ (s : Sim 1 processCount) (es : List (Event 1 processCount)),
      Sim.Run fifo (fun _ _ => true) s es ∧ s.writers = 1 ∧ s.WritersCounted := by
  have hexec : (startSimulator.exec fifo (fun _ _ => true) [] yieldingTurns).map
      (fun r => (r.1.writers, r.1.thread 0)) = some (1, .student .yield) := by decide +kernel
  obtain ⟨s, es, hs, heq⟩ := run_of_exec_map (f := fun s => (s.writers, s.thread 0)) hexec
  obtain ⟨hw, hthread⟩ := Prod.mk.inj heq
  refine ⟨s, es, hs, hw, (writers_counted_iff hs).1.mpr ?_⟩
  intro c hc
  rw [Subsingleton.elim c 0, Sim.SwitchesFromIdle, hthread] at hc
  simp at hc

/-- CPU 0 takes process 0 from the ready list and calls `context_switch`. -/
def firstSwitch : List (Turn 1) :=
  List.replicate 13 .supervisor ++ List.replicate 7 (.thread 0)

/-- `writers` is negative. -/
theorem writers_miscounted :
    ∃ (s : Sim 1 processCount) (es : List (Event 1 processCount)),
      Sim.Run fifo (fun _ _ => true) s es ∧ s.writers = -1 ∧ ¬ s.WritersCounted := by
  have hexec : (startSimulator.exec fifo (fun _ _ => true) [] firstSwitch).map
      (fun r => r.1.writers) = some (-1) := by decide +kernel
  obtain ⟨s, es, hs, hw⟩ := run_of_exec_map (f := Sim.writers) hexec
  refine ⟨s, es, hs, hw, ?_⟩
  intro h
  have := h.nonneg
  omega

end ECE3056.Scheduling
