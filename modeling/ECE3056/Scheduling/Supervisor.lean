import ECE3056.Scheduling.CpuThread

/-!
# The steps of the supervisor

Each step of the supervisor keeps the invariant, as long as it stores an event only
for a CPU whose thread waits for one.
-/

namespace ECE3056.Scheduling

open ECE3056.Custody

variable {ncpu nproc : Nat} {cfg : Config}
variable {s s' : Sim ncpu nproc} {place : Fin nproc → Thread ncpu 1 ⊕ Rest} {c : Fin ncpu}

/-- The supervisor is not concerned with one CPU or one process. -/
def Supervisor.Plain : Supervisor ncpu nproc → Prop
  | lock | gantt | reading | cpus _ | resume _ .tick | io | creat | done | woken .io | exited => True
  | wait .. | resume _ (.force _) | wake .. | waking _ | forceUnlocked .. | forced _ |
    woken .creat => False

/-- The step shows nothing. -/
theorem observed_silent (hphase : ∀ c, s'.phase c = s.phase c) : Observed s s' [] where
  phase := by
    intro c
    rw [hphase c]
    rfl
  simulated := by
    intro p type hmem
    simp at hmem

/-- Nothing happens on a CPU when the supervisor, which does not wait, moves. -/
theorem same_of_eq (hwait : ∀ c k, s.supervisor ≠ .wait c k) (hthread : s'.thread = s.thread)
    (hdata : s'.simulator_cpu_data = s.simulator_cpu_data) (hcpu : s'.sched.cpu = s.sched.cpu)
    (hcurrent : s'.sched.current = s.sched.current) (c : Fin ncpu) : Same s s' c :=
  ⟨by rw [hthread], by rw [hdata], by rw [hdata], .inl (by rw [hcpu]), by rw [hcurrent],
    fun hbusy => absurd hbusy.choose_spec (hwait c _)⟩

/-- The operation of a process that the step does not concern. -/
theorem opFits_of_same (hsame : ∀ c, Same s s' c) {q : Fin nproc} {l : Thread ncpu 1 ⊕ Rest}
    (hop : s'.opType q = s.opType q)
    (hwake : l = .inr .waiting → (s'.supervisor = .wake q .io ↔ s.supervisor = .wake q .io))
    (h : s.OpFits q l) : s'.OpFits q l := by
  match l with
  | .inl (.inl c) =>
    show s'.opType q = some (s'.pendingOp c)
    rw [hop, (hsame c).pendingOp_eq]
    exact h
  | .inr .waiting =>
    show s'.opType q = some (if s'.supervisor = .wake q .io then .cpu else .io)
    rw [hop]
    simp only [hwake rfl]
    exact h
  | .inl (.inr _) | .inr .uncreated | .inr .queued | .inr .terminated => exact hop.trans h

namespace Coherent

/-! ## Steps between the phases of a tick -/

/-- A step after which nothing but the supervisor stands elsewhere. -/
theorem move (h : Coherent s place) (hwait : ∀ c k, s.supervisor ≠ .wait c k)
    {v : Supervisor ncpu nproc} {t : UInt32} {n : Nat} {w : Int}
    (hwake : ∀ p, place p = .inr .waiting → (v = .wake p .io ↔ s.supervisor = .wake p .io))
    (hcaller : (∀ back, v ≠ .waking back) → s.sched.caller 0 = .ret)
    (hsup : Sim.SupervisorOk { s with
      supervisor := v, simulator_time := t, processes_created := n, writers := w } place)
    (hcreated : ∀ p : Fin nproc, Sim.firstNew { s with
      supervisor := v, simulator_time := t, processes_created := n, writers := w } ≤ p →
        place p = .inr .uncreated) :
    Coherent { s with
      supervisor := v, simulator_time := t, processes_created := n, writers := w } place where
  placed := h.placed
  shape := h.shape
  op := by
    intro p
    have hsame : ∀ c, Same s { s with
        supervisor := v, simulator_time := t, processes_created := n, writers := w } c :=
      same_of_eq hwait rfl rfl rfl rfl
    exact opFits_of_same hsame rfl (hwake p) (h.op p)
  io_nodup := h.io_nodup
  io_mem := h.io_mem
  cpu := by
    intro c
    have hsame : ∀ c, Same s { s with
        supervisor := v, simulator_time := t, processes_created := n, writers := w } c :=
      same_of_eq hwait rfl rfl rfl rfl
    exact (hsame c).cpuOk (h.cpu c)
  noForce := h.noForce
  caller := hcaller
  supervisor := hsup
  created := hcreated

theorem plain_ne {v : Supervisor ncpu nproc} (hv : v.Plain) :
    (∀ c k, v ≠ .wait c k) ∧ (∀ p back, v ≠ .wake p back) ∧ ∀ back, v ≠ .waking back := by
  refine ⟨?_, ?_, ?_⟩ <;> intros <;> intro heq <;> rw [heq] at hv <;> exact hv

theorem plain_firstNew (hv : s.supervisor.Plain) : s.firstNew = s.processes_created := by
  rw [Sim.firstNew]
  split
  · rename_i heq
    rw [heq] at hv
    exact hv.elim
  · rename_i heq
    rw [heq] at hv
    exact hv.elim
  · rfl

theorem plain_supervisorOk (hv : s.supervisor.Plain) : s.SupervisorOk place := by
  rw [Sim.SupervisorOk.eq_def]
  cases hsup : s.supervisor <;> rw [hsup] at hv
  case resume c k =>
    cases k with
    | tick => trivial
    | force back => exact hv
  all_goals trivial

/-- A step from one plain place to another. -/
theorem move_plain (h : Coherent s place) (hs : s.supervisor.Plain) {v : Supervisor ncpu nproc}
    (hv : v.Plain) (t : UInt32) (w : Int) :
    Coherent { s with supervisor := v, simulator_time := t, writers := w } place ∧
      Observed s { s with supervisor := v, simulator_time := t, writers := w } [] := by
  obtain ⟨hwait, hwake, hwaking⟩ := plain_ne hs
  obtain ⟨-, hwake', -⟩ := plain_ne hv
  refine ⟨h.move hwait ?_ (fun _ => h.caller hwaking) ?_ ?_, observed_silent fun _ => rfl⟩
  · intro p _
    exact iff_of_false (hwake' p _) (hwake p _)
  · exact plain_supervisorOk hv
  · intro p hp
    rw [plain_firstNew hv] at hp
    apply h.created
    rw [plain_firstNew hs]
    exact hp

/-! ## I/O -/

theorem opType_incPc_of_ne (s : Sim ncpu nproc) {p q : Fin nproc} (hq : q ≠ p) :
    (s.incPc p).opType q = s.opType q := by
  show ((s.ops q).map Op.type)[Function.update s.pc p (s.pc p + 1) q]? = _
  rw [Function.update_of_ne hq]
  rfl

theorem opType_incPc_self (s : Sim ncpu nproc) (p : Fin nproc) :
    (s.incPc p).opType p = ((s.ops p).map Op.type)[s.pc p + 1]? := by
  show ((s.ops p).map Op.type)[Function.update s.pc p (s.pc p + 1) p]? = _
  rw [Function.update_self]

theorem op_eq_some (hp : s.opType p = some type) : ∃ time, s.op p = some ⟨type, time⟩ := by
  rw [Sim.opType, List.getElem?_map] at hp
  obtain ⟨op, hop, rfl⟩ := Option.map_eq_some_iff.mp hp
  exact ⟨op.time, hop⟩

theorem opType_of_op {p : Fin nproc} {op : Op} (hop : s.op p = some op) :
    s.opType p = some op.type := by
  rw [Sim.opType, List.getElem?_map, show (s.ops p)[s.pc p]? = some op from hop]
  rfl

/-- A handler that has yet to put down its process keeps the supervisor waiting. -/
theorem pendingOp_eq_cpu (h : Coherent s place) (hwait : ∀ k, s.supervisor ≠ .wait c k) :
    s.pendingOp c = .cpu := by
  have hnb : ¬ s.Busy c := fun hb => hwait _ hb.choose_spec
  have hok := h.cpu c
  rw [Sim.pendingOp]
  cases ht : s.thread c with
  | top => exact outside_pendingOp (h.cpuOkAt ht) (.inl rfl) _
  | returned => exact outside_pendingOp (h.cpuOkAt ht) (.inr (.inl rfl)) _
  | asleep => exact outside_pendingOp (.inl (h.cpuOkAt ht).1) (.inr (.inr (.inl rfl))) _
  | published st =>
    exact outside_pendingOp (h.cpuOkAt ht) (.inr (.inr (.inr (.inr ⟨st, rfl⟩)))) _
  | signalled => exact absurd (h.cpuOkAt ht).2.2 hnb
  | counted => exact absurd (h.cpuOkAt ht).2 hnb
  | dispatch st =>
    rcases h.cpuOkAt ht with ⟨-, -, hbusy⟩ | ⟨-, hcpu, -⟩
    · exact absurd hbusy hnb
    · rw [hcpu]
      rfl
  | student st =>
    obtain ⟨hinside, ⟨-, hbusy⟩ | ⟨-, hentering, -⟩⟩ := h.cpuOkAt ht
    · exact absurd hbusy hnb
    · exact opDue_of_not_entering hinside hentering _ _
  | unlocked st =>
    obtain ⟨⟨pcb, hpc⟩, -⟩ := h.cpuOkAt ht
    rw [hpc]
    rfl

/-- A process at the head of the I/O queue is waiting. -/
theorem place_of_io (h : Coherent s place) (hsup : s.supervisor = .io) {p : Fin nproc}
    (hp : s.opType p = some .io) : place p = .inr .waiting := by
  have hop := h.op p
  match hplace : place p with
  | .inr .waiting => rfl
  | .inl (.inl c) =>
    rw [hplace] at hop
    change s.opType p = some (s.pendingOp c) at hop
    rw [h.pendingOp_eq_cpu (by simp [hsup]), hp] at hop
    simp at hop
  | .inr .uncreated | .inr .queued | .inl (.inr _) | .inr .terminated =>
    rw [hplace] at hop
    have hop' := hp.symm.trans hop
    simp at hop'

/-- The time that is left for the request at the head of the queue. -/
theorem step_io_wait (h : Coherent s place) (hsup : s.supervisor = .io) {p : Fin nproc}
    {time : UInt32} {rest : List (Fin nproc × UInt32)} (hq : s.io_queue = (p, time) :: rest) :
    Coherent ({ s with io_queue := (p, time - 1) :: rest }.setSupervisor .creat) place := by
  obtain ⟨hcoh, -⟩ := h.move_plain (by rw [hsup]; trivial) (v := .creat) trivial
    s.simulator_time s.writers
  have hmap : ((p, time - 1) :: rest).map Prod.fst = s.io_queue.map Prod.fst := by rw [hq]; rfl
  refine ⟨hcoh.placed, hcoh.shape, hcoh.op, ?_, ?_, ?_, hcoh.noForce, hcoh.caller,
    hcoh.supervisor, hcoh.created⟩
  · show (((p, time - 1) :: rest).map Prod.fst).Nodup
    rw [hmap]
    exact h.io_nodup
  · intro r
    show r ∈ ((p, time - 1) :: rest).map Prod.fst ↔ _
    rw [hmap]
    exact h.io_mem r
  · intro c
    have hsame : ∀ c, Same s
        ({ s with io_queue := (p, time - 1) :: rest }.setSupervisor .creat) c :=
      same_of_eq (by simp [hsup]) rfl rfl rfl rfl
    exact (hsame c).cpuOk (h.cpu c)

/-- The request at the head of the queue is completed. -/
theorem step_io_complete (h : Coherent s place) (hsup : s.supervisor = .io) {p : Fin nproc}
    {time : UInt32} {rest : List (Fin nproc × UInt32)} (hq : s.io_queue = (p, time) :: rest)
    (t : UInt32) :
    (∃ time, (s.incPc p).op p = some ⟨.cpu, time⟩) ∧
      Coherent ({ (s.incPc p).setTime p t with io_queue := rest }.setSupervisor (.wake p .io))
        place := by
  have hio : s.opType p = some .io := (h.io_mem p).mp (by simp [hq])
  have hplace := h.place_of_io hsup hio
  have hcpu : (s.incPc p).opType p = some .cpu := by
    rw [opType_incPc_self]
    exact WellShaped.after_io (h.shape p) hio
  have hcaller := h.caller (by simp [hsup])
  have hnodup := h.io_nodup
  rw [hq, List.map_cons, List.nodup_cons] at hnodup
  let s₁ := { (s.incPc p).setTime p t with io_queue := rest }.setSupervisor (.wake p .io)
  have hop₁ : ∀ q, s₁.opType q = (s.incPc p).opType q := fun _ => rfl
  have hsame : ∀ c, Same s s₁ c := same_of_eq (by simp [hsup]) rfl rfl rfl rfl
  refine ⟨op_eq_some hcpu, ?_⟩
  refine ⟨h.placed.setTime _, h.shape, ?_, hnodup.2, ?_, ?_, h.noForce, fun _ => hcaller,
    hplace, ?_⟩
  · intro q
    have hop := h.op q
    by_cases hqp : q = p
    · rw [hqp, hplace]
      show s₁.opType p = some (if s₁.supervisor = .wake p .io then OpType.cpu else OpType.io)
      rw [hop₁, hcpu]
      exact congrArg some (if_pos rfl).symm
    · refine opFits_of_same hsame ((hop₁ q).trans (opType_incPc_of_ne s hqp)) ?_ hop
      intro _
      simp [s₁, Sim.setSupervisor, hsup, Ne.symm hqp]
  · intro q
    show q ∈ rest.map Prod.fst ↔ s₁.opType q = some .io
    rw [hop₁]
    by_cases hqp : q = p
    · rw [hqp, hcpu]
      exact iff_of_false hnodup.1 (by simp)
    · rw [opType_incPc_of_ne s hqp, ← h.io_mem q, hq]
      simp [hqp]
  · intro c
    exact (hsame c).cpuOk (h.cpu c)
  · intro q hle
    apply h.created
    rw [Sim.firstNew, hsup]
    exact hle

/-- `simulate_io`, up to the call of `wake_up`. -/
theorem step_io (h : Coherent s place) (hsup : s.supervisor = .io) :
    ∃ s', s.simulateIo = some s' ∧ Coherent s' place ∧ Observed s s' [] := by
  cases hq : s.io_queue with
  | nil =>
    refine ⟨_, by rw [Sim.simulateIo, hq], ?_⟩
    exact h.move_plain (by rw [hsup]; trivial) (v := .creat) trivial s.simulator_time s.writers
  | cons r rest =>
    obtain ⟨p, time⟩ := r
    by_cases htime : time ≤ 0
    · have hcomplete := h.step_io_complete hsup hq
      obtain ⟨t, hop⟩ := (hcomplete 0).1
      refine ⟨_, ?_, (hcomplete (t + 1)).2, observed_silent fun _ => rfl⟩
      rw [Sim.simulateIo, hq]
      dsimp only
      rw [if_pos htime, hop]
      rfl
    · refine ⟨_, by rw [Sim.simulateIo, hq]; exact if_neg htime, h.step_io_wait hsup hq, ?_⟩
      exact observed_silent fun _ => rfl

/-! ## `wake_up` -/

/-- The contract of `wake_up`: the process is new, or its `yield` has marked it. -/
theorem wakeable (h : Coherent s place) {p : Fin nproc} {back : Back}
    (hsup : s.supervisor = .wake p back) :
    s.sched.callWakeUp 0 p = some (s.sched.setCaller 0 (.wakeUp p)) ∧ s.opType p = some .cpu ∧
      (place p = .inr .waiting ∨ place p = .inr .uncreated) := by
  have hret := h.caller (by simp [hsup])
  have hok := h.supervisor
  unfold Sim.SupervisorOk at hok
  rw [hsup] at hok
  have hfits := h.placed.fits p
  have hop := h.op p
  have hcall : s.sched.state p = .new ∨ s.sched.state p = .waiting →
      s.sched.callWakeUp 0 p = some (s.sched.setCaller 0 (.wakeUp p)) := by
    intro hstate
    refine if_pos ⟨hret, hstate, ?_⟩
    intro w
    rw [Fin.fin_one_eq_zero w, hret]
    simp
  cases back with
  | io =>
    have hplace : place p = .inr .waiting := hok
    rw [hplace] at hfits hop
    refine ⟨hcall (.inr hfits), Eq.trans hop ?_, .inl hplace⟩
    rw [if_pos hsup]
  | creat =>
    have hplace : place p = .inr .uncreated := hok.1
    rw [hplace] at hfits hop
    exact ⟨hcall (.inl hfits), hop, .inr hplace⟩

theorem step_wake (h : Coherent s place) {p : Fin nproc} {back : Back}
    (hsup : s.supervisor = .wake p back) (n : Int) :
    Coherent ({ s with writers := n, sched := s.sched.setCaller 0 (.wakeUp p) }.setSupervisor
      (.waking back)) (Function.update place p (.inl (.inr 0))) := by
  obtain ⟨hcall, hcpu, hplace⟩ := h.wakeable hsup
  let s₁ := { s with writers := n, sched := s.sched.setCaller 0 (.wakeUp p) }.setSupervisor
    (.waking back)
  have hsame : ∀ c, Same s s₁ c := same_of_eq (by simp [hsup]) rfl rfl rfl rfl
  refine ⟨h.placed.callWakeUp hcall, h.shape, ?_, h.io_nodup, h.io_mem,
    fun c => (hsame c).cpuOk (h.cpu c), ?_, fun hne => absurd rfl (hne back), trivial, ?_⟩
  · intro q
    by_cases hq : q = p
    · rw [hq, Function.update_self]
      exact hcpu
    · rw [Function.update_of_ne hq]
      refine opFits_of_same hsame rfl ?_ (h.op q)
      intro _
      simp [s₁, Sim.setSupervisor, hsup, Ne.symm hq]
  · rw [Sim.NoForce, show s₁.sched.caller 0 = .wakeUp p from caller_setCaller_self ..]
    simp
  · intro q hq
    have hfirst : s.firstNew = s.processes_created := by rw [Sim.firstNew, hsup]
    have hold : s.processes_created ≤ q → place q = .inr .uncreated := by
      intro hle
      apply h.created
      rw [hfirst]
      exact hle
    have hsupOk := h.supervisor
    unfold Sim.SupervisorOk at hsupOk
    rw [hsup] at hsupOk
    cases back with
    | io =>
      have hqp : q ≠ p := by
        intro heq
        have := hold hq
        rw [heq, show place p = .inr .waiting from hsupOk] at this
        simp at this
      rw [Function.update_of_ne hqp]
      exact hold hq
    | creat =>
      change s.processes_created + 1 ≤ q at hq
      have hqp : q ≠ p := by
        intro heq
        rw [heq, hsupOk.2] at hq
        omega
      rw [Function.update_of_ne hqp]
      exact hold (by omega)

/-- LRTF never reaches `force_preempt`: the loop over `current[]` is empty. -/
theorem callerStep_noForce {s s' : State ncpu nproc 1} {alg : Char}
    (hs : s.callerStep alg 0 = some s')
    (hcompare : ∀ p c low, s.caller 0 ≠ .compare p (some c) low) :
    (∀ p c low, s'.caller 0 ≠ .compare p (some c) low) ∧ ∀ c, s'.caller 0 ≠ .forcePreempt c := by
  have hset : ∀ (s₀ : State ncpu nproc 1) {pc : Caller ncpu nproc},
      (∀ p c low, pc ≠ .compare p (some c) low) → (∀ c, pc ≠ .forcePreempt c) →
      (∀ p c low, (s₀.setCaller 0 pc).caller 0 ≠ .compare p (some c) low) ∧
        ∀ c, (s₀.setCaller 0 pc).caller 0 ≠ .forcePreempt c := by
    intro s₀ pc hc hf
    rw [caller_setCaller_self]
    exact ⟨hc, hf⟩
  rw [State.callerStep] at hs
  cases hpc : s.caller 0 <;> rw [hpc] at hs <;> dsimp only at hs
  case ret => simp at hs
  case wakeUp p =>
    rw [← Option.some_inj.mp hs]
    exact hset _ (by simp) (by simp)
  case pushToQueue p =>
    obtain ⟨x, -, rfl⟩ := Option.map_eq_some_iff.mp hs
    split
    · exact hset _ (by simp) (by simp)
    · exact hset _ (by simp) (by simp)
  case scan p =>
    rw [← Option.some_inj.mp hs]
    exact hset _ (by simp [cpuCount, scanCurrent]) (by simp)
  case compare p low_id low =>
    cases low_id with
    | some c => exact absurd hpc (hcompare p c low)
    | none =>
      rw [← Option.some_inj.mp hs]
      exact hset _ (by simp) (by simp)
  case forcePreempt c =>
    rw [← Option.some_inj.mp hs]
    exact hset _ (by simp) (by simp)

/-- A step inside `wake_up`. -/
theorem step_waking_inside (h : Coherent s place) {back : Back}
    (hsup : s.supervisor = .waking back) {sched : State ncpu nproc 1}
    (hs : s.sched.callerStep cfg.scheduling_alg 0 = some sched) :
    ∃ place', Coherent { s with sched } place' := by
  obtain ⟨place', hspec⟩ := h.placed.callerStep_spec hs
  have hframe := hspec.frame
  have hsame : ∀ c, Same s { s with sched } c := fun c =>
    ⟨rfl, rfl, rfl, hframe.cpu c (by simp), hframe.current c (by simp), id⟩
  have hrest : ∀ q, (place' q = place q) ∨
      place q = .inl (.inr 0) ∧ place' q = .inr .queued := by
    intro q
    cases hspec.moves with
    | stay => exact .inl rfl
    | push p hpc =>
      by_cases hq : q = p
      · rw [hq, Function.update_self]
        exact .inr ⟨h.placed.place_eq (hand_inr hpc), rfl⟩
      · exact .inl (Function.update_of_ne hq ..)
  refine ⟨place', hspec.placed, h.shape, ?_, h.io_nodup, h.io_mem,
    fun c => (hsame c).cpuOk (h.cpu c), callerStep_noForce hs h.noForce.1,
    fun hne => absurd hsup (hne back), ?_, ?_⟩
  · intro q
    have hop := h.op q
    rcases hrest q with heq | ⟨hplace, heq⟩
    · rw [heq]
      exact opFits_of_same hsame rfl (fun _ => Iff.rfl) hop
    · rw [heq]
      rw [hplace] at hop
      exact hop
  · show Sim.SupervisorOk { s with sched } place'
    unfold Sim.SupervisorOk
    rw [hsup]
    trivial
  · intro q hq
    have hplace := h.created q hq
    rcases hrest q with heq | ⟨hheld, -⟩
    · exact heq.trans hplace
    · simp [hplace] at hheld

theorem step_waking (h : Coherent s place) {back : Back} (hsup : s.supervisor = .waking back)
    (hs : s.wakeUpStep cfg back = some s') :
    (∃ place', Coherent s' place') ∧ Observed s s' [] := by
  rw [Sim.wakeUpStep] at hs
  split at hs
  · rename_i hret
    rw [← Option.some_inj.mp hs]
    refine ⟨⟨place, ?_⟩, observed_silent fun _ => rfl⟩
    refine h.move (v := .woken back) (n := s.processes_created) (by simp [hsup]) ?_ (fun _ => hret)
      trivial ?_
    · simp [hsup]
    · intro q hq
      apply h.created
      rw [Sim.firstNew, hsup]
      cases back <;> exact hq
  · rename_i c hforce
    exact absurd hforce (h.noForce.2 c)
  · obtain ⟨sched, hstep, rfl⟩ := Option.map_eq_some_iff.mp hs
    exact ⟨h.step_waking_inside hsup hstep, observed_silent fun _ => rfl⟩

end Coherent

/-! ## A tick on one CPU -/

/-- A tick has run a process; no event is stored yet. -/
structure Ticked (s s₁ : Sim ncpu nproc) (place : Fin nproc → Thread ncpu 1 ⊕ Rest)
    (p : Fin nproc) (type : OpType) : Prop where
  thread : s₁.thread = s.thread
  known : ∀ d, (s₁.simulator_cpu_data d).current = (s.simulator_cpu_data d).current
  state : ∀ d, (s₁.simulator_cpu_data d).state = (s.simulator_cpu_data d).state
  cpu : s₁.sched.cpu = s.sched.cpu
  current : s₁.sched.current = s.sched.current
  caller : s₁.sched.caller = s.sched.caller
  supervisor : s₁.supervisor = s.supervisor
  created : s₁.processes_created = s.processes_created
  placed : Placed s₁.sched place
  shape : ∀ q, WellShaped ((s₁.ops q).map Op.type) = true
  other : ∀ q, q ≠ p → s₁.opType q = s.opType q
  op : s₁.opType p = some type
  io_nodup : (s₁.io_queue.map Prod.fst).Nodup
  io_mem : ∀ q, q ∈ s₁.io_queue.map Prod.fst ↔ s₁.opType q = some .io

namespace Ticked

variable {s₁ : Sim ncpu nproc} {p : Fin nproc} {type : OpType} {n : Nat}

/-- `simulate_cpus` goes on to the next CPU. -/
theorem next (ht : Ticked s s₁ place p .cpu) (h : Coherent s place)
    (hsup : s.supervisor = .cpus n) (hp : s.opType p = some .cpu) (m : Nat) :
    Coherent (s₁.setSupervisor (.cpus m)) place ∧
      Observed s (s₁.setSupervisor (.cpus m)) [.simulated p .cpu] := by
  have hsame : ∀ c, Same s (s₁.setSupervisor (.cpus m)) c := fun c =>
    ⟨congrFun ht.thread c, ht.known c, ht.state c, .inl (congrFun ht.cpu c),
      congrFun ht.current c, fun hbusy => absurd hbusy.choose_spec (by simp [hsup])⟩
  have hop : ∀ q, s₁.opType q = s.opType q := by
    intro q
    by_cases hq : q = p
    · rw [hq, ht.op, hp]
    · exact ht.other q hq
  constructor
  · refine ⟨ht.placed, ht.shape, ?_, ht.io_nodup, ht.io_mem, fun c => (hsame c).cpuOk (h.cpu c),
      ?_, ?_, trivial, ?_⟩
    · intro q
      exact opFits_of_same hsame (hop q) (fun _ => by simp [Sim.setSupervisor, hsup]) (h.op q)
    · rw [Sim.NoForce, show (s₁.setSupervisor (.cpus m)).sched.caller = _ from ht.caller]
      exact h.noForce
    · intro _
      rw [show (s₁.setSupervisor (.cpus m)).sched.caller = _ from ht.caller]
      exact h.caller (by simp [hsup])
    · intro q hq
      apply h.created
      rw [Sim.firstNew, hsup]
      rw [← ht.created]
      exact hq
  · constructor
    · intro c
      show some (Sim.phase s c) =
        some (CpuThread.phase (s₁.simulator_cpu_data c).state (s₁.thread c))
      rw [ht.thread, ht.state]
      rfl
    · intro q ty hmem
      have heq := List.mem_singleton.mp hmem
      simp at heq
      exact heq.2

theorem raise_eq {state : CpuState} {k : Cont} (hsup : s.supervisor = .cpus n)
    (hasleep : s.thread c = .asleep) : s.raise c state k =
      ((s.setCpuState c state).setThread c .signalled).setSupervisor (.wait c k) := by
  rw [Sim.raise, Sim.signal, show (s.setCpuState c state).supervisor = .cpus n from hsup]
  rw [if_pos (show (s.setCpuState c state).thread c = .asleep from hasleep)]

/-- An event is stored for a CPU whose thread waits for one. -/
theorem raise (state : CpuState) (ht : Ticked s s₁ place p state.op) (h : Coherent s place)
    (hsup : s.supervisor = .cpus n) (hasleep : s.thread c = .asleep)
    (hplace : place p = .inl (.inl c)) (hevent : state.IsEvent) :
    Coherent (s₁.raise c state .tick) place ∧
      Observed s (s₁.raise c state .tick) [.simulated p .cpu, .stored c state] := by
  rw [raise_eq (ht.supervisor.trans hsup) ((congrFun ht.thread c).trans hasleep)]
  let s₂ := ((s₁.setCpuState c state).setThread c .signalled).setSupervisor (.wait c .tick)
  have hthread : s₂.thread c = .signalled := thread_setThread ..
  have hdata : s₂.simulator_cpu_data c = { s₁.simulator_cpu_data c with state := state } :=
    data_setData ..
  have hthread_ne : ∀ d, d ≠ c → s₂.thread d = s.thread d := fun d hd =>
    (Function.update_of_ne hd ..).trans (congrFun ht.thread d)
  have hdata_ne : ∀ d, d ≠ c → s₂.simulator_cpu_data d = s₁.simulator_cpu_data d := fun d hd =>
    Function.update_of_ne hd ..
  have hsame : ∀ d, d ≠ c → Same s s₂ d := by
    intro d hd
    refine ⟨hthread_ne d hd, ?_, ?_, .inl (congrFun ht.cpu d), congrFun ht.current d, ?_⟩
    · rw [hdata_ne d hd, ht.known]
    · rw [hdata_ne d hd, ht.state]
    · intro hbusy
      exact absurd hbusy.choose_spec (by simp [hsup])
  have howns : s.OwnsKnown c := (h.cpuOkAt hasleep).1
  have hcpu : s₂.sched.cpu c = .running := (congrFun ht.cpu c).trans howns.1
  constructor
  · refine ⟨ht.placed, ht.shape, ?_, ht.io_nodup, ht.io_mem, ?_, ?_, ?_, trivial, ?_⟩
    · intro q
      by_cases hq : q = p
      · rw [hq, hplace]
        show s₂.opType p =
          some ((s₂.sched.cpu c).opDue (s₂.thread c) (s₂.simulator_cpu_data c).state)
        rw [hcpu, hthread, hdata]
        exact ht.op
      · have hop := h.op q
        match hl : place q with
        | .inl (.inl d) =>
          rw [hl] at hop
          have hd : d ≠ c := by
            intro heq
            rw [heq] at hl
            exact hq (h.place_inj hl hplace)
          show s₂.opType q = some (s₂.pendingOp d)
          rw [(hsame d hd).pendingOp_eq]
          exact (ht.other q hq).trans hop
        | .inr .waiting =>
          rw [hl] at hop
          show s₂.opType q = some (if s₂.supervisor = .wake q .io then OpType.cpu else OpType.io)
          refine (ht.other q hq).trans (Eq.trans hop ?_)
          simp [s₂, Sim.setSupervisor, hsup]
        | .inl (.inr _) | .inr .uncreated | .inr .queued | .inr .terminated =>
          rw [hl] at hop
          exact (ht.other q hq).trans hop
    · intro d
      by_cases hd : d = c
      · rw [hd]
        show s₂.CpuOkAt c (s₂.thread c)
        rw [hthread]
        refine ⟨⟨hcpu, ?_⟩, ?_, ⟨.tick, rfl⟩⟩
        · rw [hdata]
          exact (ht.known c).trans (howns.2.trans (congrFun ht.current c).symm)
        · rw [hdata]
          exact hevent
      · exact (hsame d hd).cpuOk (h.cpu d)
    · rw [Sim.NoForce, show s₂.sched.caller = _ from ht.caller]
      exact h.noForce
    · intro _
      rw [show s₂.sched.caller = _ from ht.caller]
      exact h.caller (by simp [hsup])
    · intro q hq
      apply h.created
      rw [Sim.firstNew, hsup, ← ht.created]
      exact hq
  · constructor
    · intro d
      show Phase.after d (s.phase d) _ = some (s₂.phase d)
      by_cases hd : d = c
      · rw [hd, Sim.phase, Sim.phase, hasleep, hthread, hdata]
        simp [Phase.after, Phase.advance, CpuThread.phase]
      · have hphase : s₂.phase d = s.phase d := by
          rw [Sim.phase, Sim.phase, hthread_ne d hd, hdata_ne d hd, ht.state]
        rw [hphase]
        simp [Phase.after, Phase.advance, Ne.symm hd]
    · intro q ty hmem
      simp at hmem
      exact hmem.2

end Ticked

namespace Sim

/-- The CPU thread has published a process in `context_switch` and has yet to set the CPU to
`CPU_RUNNING`. -/
def inGap (s : Sim ncpu nproc) (c : Fin ncpu) : Bool :=
  (s.simulator_cpu_data c).current.isSome &&
    match s.thread c with
    | .top | .returned | .published _ => true
    | _ => false

/-- The next `simulate_process` for the CPU stores an event: a time slice or a burst ends. -/
def raises (s : Sim ncpu nproc) (c : Fin ncpu) : Bool :=
  match (s.simulator_cpu_data c).current with
  | none => false
  | some pcb =>
    match s.op pcb with
    | some ⟨.cpu, time⟩ =>
      if time > 0 then (s.simulator_cpu_data c).preemption_timer == 1
      else ((s.incPc pcb).op pcb).any fun op => op.type != .cpu
    | _ => false

/-- The turn does not store an event for a CPU in the gap. -/
def calm (s : Sim ncpu nproc) : Turn ncpu → Bool
  | .supervisor =>
    match s.supervisor with
    | .cpus n => if h : n < ncpu then !(s.raises ⟨n, h⟩ && s.inGap ⟨n, h⟩) else true
    | _ => true
  | .thread _ | .spurious _ => true

end Sim

theorem types_setOp (s : Sim ncpu nproc) {p : Fin nproc} {op op' : Op} (hop : s.op p = some op)
    (htype : op'.type = op.type) (q : Fin nproc) :
    ((s.setOp p op').ops q).map Op.type = (s.ops q).map Op.type := by
  show (Function.update s.ops p ((s.ops p).set (s.pc p) op') q).map Op.type = _
  by_cases hq : q = p
  · rw [hq, Function.update_self]
    exact map_type_set hop htype
  · rw [Function.update_of_ne hq]

namespace Coherent

/-- A process that `simulate_cpus` finds on a CPU is owned by it. -/
theorem tick_owns (h : Coherent s place) {n : Nat} (hsup : s.supervisor = .cpus n) {p : Fin nproc}
    (hcur : (s.simulator_cpu_data c).current = some p) :
    (s.thread c = .asleep ∨ s.inGap c = true) ∧ place p = .inl (.inl c) ∧
      s.opType p = some .cpu := by
  have hnb : ¬ s.Busy c := fun hb => absurd hb.choose_spec (by simp [hsup])
  have hkey : (s.thread c = .asleep ∨ s.inGap c = true) ∧ s.Outside c := by
    cases ht : s.thread c with
    | asleep => exact ⟨.inl rfl, .inl (h.cpuOkAt ht).1⟩
    | top => exact ⟨.inr (by simp [Sim.inGap, hcur, ht]), h.cpuOkAt ht⟩
    | returned => exact ⟨.inr (by simp [Sim.inGap, hcur, ht]), h.cpuOkAt ht⟩
    | published st => exact ⟨.inr (by simp [Sim.inGap, hcur, ht]), h.cpuOkAt ht⟩
    | signalled => exact absurd (h.cpuOkAt ht).2.2 hnb
    | counted => exact absurd (h.cpuOkAt ht).2 hnb
    | dispatch st =>
      rcases h.cpuOkAt ht with ⟨-, -, hbusy⟩ | ⟨-, -, hnone⟩
      · exact absurd hbusy hnb
      · simp [hcur] at hnone
    | student st =>
      obtain ⟨-, ⟨-, hbusy⟩ | ⟨-, -, hnone⟩⟩ := h.cpuOkAt ht
      · exact absurd hbusy hnb
      · simp [hcur] at hnone
    | unlocked st =>
      obtain ⟨-, ⟨-, hbusy⟩ | ⟨-, -, hnone⟩⟩ := h.cpuOkAt ht
      · exact absurd hbusy hnb
      · simp [hcur] at hnone
  obtain ⟨howns, hknown⟩ : s.OwnsKnown c := hkey.2.resolve_right (by simp [hcur])
  have hplace : place p = .inl (.inl c) := by
    apply h.placed.place_eq
    rw [hand_inl howns]
    exact hknown.symm.trans hcur
  refine ⟨hkey.1, hplace, ?_⟩
  have hop := h.op p
  rw [hplace] at hop
  rw [← h.pendingOp_eq_cpu (c := c) (by simp [hsup])]
  exact hop

/-- A tick within a burst. -/
theorem ticked_time (h : Coherent s place) {p : Fin nproc} {time : UInt32}
    (hop : s.op p = some ⟨.cpu, time⟩) (op' : Op) (hop' : op'.type = .cpu) (t : UInt32)
    (timer : Int) :
    Ticked s (((s.setOp p op').setTime p t).setData c
      { s.simulator_cpu_data c with preemption_timer := timer }) place p .cpu := by
  let s₁ := ((s.setOp p op').setTime p t).setData c
    { s.simulator_cpu_data c with preemption_timer := timer }
  have htypes : ∀ q, (s₁.ops q).map Op.type = (s.ops q).map Op.type :=
    fun q => types_setOp s hop hop' q
  have hoptype : ∀ q, s₁.opType q = s.opType q := by
    intro q
    rw [Sim.opType, htypes]
    rfl
  have hdata : ∀ d, (s₁.simulator_cpu_data d).current = (s.simulator_cpu_data d).current ∧
      (s₁.simulator_cpu_data d).state = (s.simulator_cpu_data d).state := by
    intro d
    by_cases hd : d = c
    · rw [hd, show s₁.simulator_cpu_data c = _ from data_setData ..]
      exact ⟨rfl, rfl⟩
    · rw [show s₁.simulator_cpu_data d = _ from Function.update_of_ne hd ..]
      exact ⟨rfl, rfl⟩
  refine ⟨rfl, fun d => (hdata d).1, fun d => (hdata d).2, rfl, rfl, rfl, rfl, rfl,
    h.placed.setTime _, ?_, fun q _ => hoptype q, ?_, h.io_nodup, ?_⟩
  · intro q
    rw [htypes]
    exact h.shape q
  · exact (hoptype p).trans (opType_of_op hop)
  · intro q
    exact (h.io_mem q).trans (by rw [hoptype])

/-- A tick that ends a burst. -/
theorem ticked_next (h : Coherent s place) {p : Fin nproc} {op : Op} (hcpu : s.opType p = some .cpu)
    (hop : (s.incPc p).op p = some op) (t : UInt32) :
    op.type = .io ∧ Ticked s { (s.incPc p).setTime p t with
        io_queue := s.io_queue ++ [(p, op.time)] } place p .io ∨
      op.type = .terminate ∧ Ticked s ((s.incPc p).setTime p t) place p .terminate := by
  have hself : ((s.ops p).map Op.type)[s.pc p + 1]? = some op.type := by
    rw [← opType_incPc_self, opType_of_op hop]
  have hother : ∀ q, q ≠ p → (s.incPc p).opType q = s.opType q :=
    fun q hq => opType_incPc_of_ne s hq
  have hnotin : p ∉ s.io_queue.map Prod.fst := by
    rw [h.io_mem, hcpu]
    simp
  rcases WellShaped.after_cpu (h.shape p) hcpu with hio | hterm
  · left
    have htype : op.type = .io := Option.some_inj.mp (hself.symm.trans hio)
    refine ⟨htype, rfl, fun _ => rfl, fun _ => rfl, rfl, rfl, rfl, rfl, rfl, h.placed.setTime _,
      h.shape, hother, ?_, ?_, ?_⟩
    · exact (opType_of_op hop).trans (by rw [htype])
    · rw [List.map_append, List.nodup_append]
      refine ⟨h.io_nodup, List.nodup_singleton _, ?_⟩
      intro a ha b hb hab
      rw [List.map_singleton, List.mem_singleton] at hb
      rw [hab, hb] at ha
      exact hnotin ha
    · intro q
      show q ∈ (s.io_queue ++ [(p, op.time)]).map Prod.fst ↔ (s.incPc p).opType q = _
      rw [List.map_append, List.mem_append, List.map_singleton, List.mem_singleton]
      by_cases hq : q = p
      · rw [hq, opType_of_op hop, htype]
        simp
      · rw [hother q hq, h.io_mem q]
        simp [hq]
  · right
    have htype : op.type = .terminate := Option.some_inj.mp (hself.symm.trans hterm)
    refine ⟨htype, rfl, fun _ => rfl, fun _ => rfl, rfl, rfl, rfl, rfl, rfl, h.placed.setTime _,
      h.shape, hother, ?_, h.io_nodup, ?_⟩
    · exact (opType_of_op hop).trans (by rw [htype])
    · intro q
      show q ∈ s.io_queue.map Prod.fst ↔ (s.incPc p).opType q = _
      by_cases hq : q = p
      · rw [hq, opType_of_op hop, htype]
        exact iff_of_false hnotin (by simp)
      · rw [hother q hq, h.io_mem q]

/-- `simulate_process` keeps the invariant unless it stores an event in the gap. -/
theorem step_tick (h : Coherent s place) {n : Nat} (hsup : s.supervisor = .cpus n) {p : Fin nproc}
    (hcur : (s.simulator_cpu_data c).current = some p)
    (hcalm : s.raises c = true → ¬ s.inGap c = true) {es : List (Event ncpu nproc)}
    (hs : s.simulateProcess c p = some (s', es)) : Coherent s' place ∧ Observed s s' es := by
  obtain ⟨hthread, hplace, hcpu⟩ := h.tick_owns hsup hcur
  obtain ⟨time, hop⟩ := op_eq_some hcpu
  have hasleep : s.raises c = true → s.thread c = .asleep :=
    fun hr => hthread.resolve_right (hcalm hr)
  rw [Sim.simulateProcess, hop, Option.bind_eq_bind, Option.bind_some] at hs
  dsimp only at hs
  by_cases htime : time > 0
  · rw [if_pos htime] at hs
    have ht := h.ticked_time (c := c) hop ⟨.cpu, time - 1⟩ rfl (time - 1 + 1)
      ((s.simulator_cpu_data c).preemption_timer - 1)
    split at hs
    · rename_i htimer
      have hr : s.raises c = true := by
        rw [Sim.raises, hcur]
        dsimp only
        rw [hop]
        dsimp only
        rw [if_pos htime, beq_iff_eq]
        omega
      obtain ⟨rfl, rfl⟩ := Prod.mk.inj (Option.some_inj.mp hs)
      exact Ticked.raise .preempt ht h hsup (hasleep hr) hplace trivial
    · obtain ⟨rfl, rfl⟩ := Prod.mk.inj (Option.some_inj.mp hs)
      exact ht.next h hsup hcpu _
  · rw [if_neg htime] at hs
    obtain ⟨op, hop', hs⟩ := Option.bind_eq_some_iff.mp hs
    have hr : op.type ≠ .cpu → s.raises c = true := by
      intro hne
      rw [Sim.raises, hcur]
      dsimp only
      rw [hop]
      dsimp only
      rw [if_neg htime, hop']
      simpa using hne
    rcases h.ticked_next hcpu hop' (op.time + 1) with ⟨htype, ht⟩ | ⟨htype, ht⟩
    · rw [htype] at hs
      obtain ⟨rfl, rfl⟩ := Prod.mk.inj (Option.some_inj.mp hs)
      exact Ticked.raise .yield ht h hsup (hasleep (hr (by simp [htype]))) hplace trivial
    · rw [htype] at hs
      obtain ⟨rfl, rfl⟩ := Prod.mk.inj (Option.some_inj.mp hs)
      exact Ticked.raise .terminate ht h hsup (hasleep (hr (by simp [htype]))) hplace
        trivial

/-! ## The loop of the supervisor -/

/-- `simulate_creat`, up to the call of `wake_up`. -/
theorem step_creat (h : Coherent s place) (hsup : s.supervisor = .creat) :
    Coherent s.simulateCreat place ∧ Observed s s.simulateCreat [] := by
  have hplain : s.supervisor.Plain := by rw [hsup]; trivial
  have hcreated : ∀ p : Fin nproc, s.processes_created ≤ p → place p = .inr .uncreated := by
    intro p hp
    apply h.created
    rw [plain_firstNew hplain]
    exact hp
  rw [Sim.simulateCreat]
  split
  · rename_i hnew
    refine ⟨h.move (v := .wake ⟨s.processes_created, hnew.2⟩ .creat) (n := s.processes_created)
      (by simp [hsup]) ?_ (fun _ => h.caller (by simp [hsup])) ⟨hcreated _ (Nat.le_refl _), rfl⟩
      hcreated, observed_silent fun _ => rfl⟩
    simp [hsup]
  · exact h.move_plain hplain (v := .done) trivial s.simulator_time s.writers

theorem step_created (h : Coherent s place) (hsup : s.supervisor = .woken .creat) :
    Coherent ({ s with processes_created := s.processes_created + 1 }.setSupervisor .done)
      place := by
  refine h.move (v := .done) (n := s.processes_created + 1) (by simp [hsup]) (by simp [hsup])
    (fun _ => h.caller (by simp [hsup])) trivial ?_
  intro p hp
  apply h.created
  rw [Sim.firstNew, hsup]
  exact hp

/-- Every calm step of the supervisor keeps the invariant and shows the next event of a CPU. -/
theorem supervisorStep (h : Coherent s place) (hcalm : s.calm .supervisor = true)
    {es : List (Event ncpu nproc)} (hs : s.supervisorStep cfg = some (s', es)) :
    (∃ place', Coherent s' place') ∧ Observed s s' es := by
  have hplain : ∀ v : Supervisor ncpu nproc, s.supervisor.Plain → v.Plain →
      Coherent (s.setSupervisor v) place ∧ Observed s (s.setSupervisor v) [] :=
    fun v hs hv => h.move_plain hs hv s.simulator_time s.writers
  have hok := h.supervisor
  unfold Sim.SupervisorOk at hok
  rw [Sim.supervisorStep] at hs
  cases hsup : s.supervisor <;> rw [hsup] at hs hok hplain
  case wait | exited => simp at hs
  all_goals try dsimp only at hs
  case lock =>
    refine kept hs (hplain _ trivial ?_)
    split <;> trivial
  case gantt =>
    split at hs
    · simp at hs
    · exact kept hs (hplain .reading trivial trivial)
  case reading => exact kept hs (hplain (.cpus 0) trivial trivial)
  case cpus n =>
    split at hs
    · rename_i hn
      split at hs
      · rename_i p hcur
        have hquiet : s.raises ⟨n, hn⟩ = true → ¬ s.inGap ⟨n, hn⟩ = true := by
          intro hr hgap
          simp [Sim.calm, hsup, hn, hr, hgap] at hcalm
        obtain ⟨hcoh, hobs⟩ := h.step_tick hsup hcur hquiet hs
        exact ⟨⟨place, hcoh⟩, hobs⟩
      · exact kept hs (hplain (.cpus (n + 1)) trivial trivial)
    · exact kept hs (hplain .io trivial trivial)
  case resume c k =>
    cases k with
    | tick => exact kept hs (hplain (.cpus (c + 1)) trivial trivial)
    | force back => exact hok.elim
  case io =>
    obtain ⟨s₁, hstep, hcoh, hobs⟩ := h.step_io hsup
    rw [hstep] at hs
    exact kept hs ⟨hcoh, hobs⟩
  case creat => exact kept hs (h.step_creat hsup)
  case done =>
    have hlock := h.move_plain (v := .lock) (by rw [hsup]; trivial) trivial (s.simulator_time + 1)
      s.writers
    exact kept hs hlock
  case wake p back =>
    obtain ⟨rfl, rfl⟩ := Prod.mk.inj (Option.some_inj.mp hs)
    exact ⟨⟨_, h.step_wake hsup _⟩, observed_silent fun _ => rfl⟩
  case waking back =>
    obtain ⟨s₁, hstep, heq⟩ := Option.map_eq_some_iff.mp hs
    obtain ⟨rfl, rfl⟩ := Prod.mk.inj heq
    exact h.step_waking hsup hstep
  case forceUnlocked | forced => exact hok.elim
  case woken back =>
    cases back with
    | io => exact kept hs (hplain .creat trivial trivial)
    | creat => exact kept hs ⟨h.step_created hsup, observed_silent fun _ => rfl⟩

/-- A blocked thread that wakes up by itself. -/
theorem step_spurious (h : Coherent s place) (hs : s.spurious c = some s') :
    Coherent s' place ∧ Observed s s' [] := by
  obtain ⟨sched, hstep, rfl⟩ := Option.map_eq_some_iff.mp hs
  have hplaced := h.placed.spurious hstep
  rw [State.spurious] at hstep
  split at hstep
  · rename_i hwait
    obtain rfl := Option.some_inj.mp hstep
    have hcpu : ∀ d, (s.sched.setCpu c .idle).cpu d = s.sched.cpu d ∨
        s.sched.cpu d = .condWait ∧ (s.sched.setCpu c .idle).cpu d = .idle := by
      intro d
      by_cases hd : d = c
      · rw [hd]
        exact .inr ⟨hwait, cpu_setCpu_self ..⟩
      · exact .inl (Function.update_of_ne hd ..)
    have hsame : ∀ d, Same s { s with sched := s.sched.setCpu c .idle } d :=
      fun d => ⟨rfl, rfl, rfl, hcpu d, rfl, id⟩
    refine ⟨⟨hplaced, h.shape, ?_, h.io_nodup, h.io_mem, fun d => (hsame d).cpuOk (h.cpu d),
      h.noForce, h.caller, h.supervisor, h.created⟩, observed_silent fun _ => rfl⟩
    intro q
    exact opFits_of_same hsame rfl (fun _ => Iff.rfl) (h.op q)
  · simp at hstep

/-- Every calm step keeps the invariant. -/
theorem next (h : Coherent s place) {t : Turn ncpu} (hcalm : s.calm t = true)
    {es : List (Event ncpu nproc)} (hs : s.next cfg t = some (s', es)) :
    (∃ place', Coherent s' place') ∧ Observed s s' es := by
  rw [Sim.next.eq_def] at hs
  cases t with
  | supervisor => exact h.supervisorStep hcalm hs
  | thread c =>
    dsimp only at hs
    split at hs
    · simp at hs
    · exact h.threadStep hs
  | spurious c =>
    dsimp only at hs
    split at hs
    · simp at hs
    · obtain ⟨s₁, hstep, heq⟩ := Option.map_eq_some_iff.mp hs
      obtain ⟨rfl, rfl⟩ := Prod.mk.inj heq
      obtain ⟨hcoh, hobs⟩ := h.step_spurious hstep
      exact ⟨⟨place, hcoh⟩, hobs⟩

end Coherent

theorem coherent_initial (hs : s.Initial) : Coherent s fun _ => .inr .uncreated := by
  have hop : ∀ p, s.opType p = some .cpu := by
    intro p
    rw [Sim.opType, hs.pc]
    exact WellShaped.head (hs.shape p)
  refine ⟨placed_initial hs.sched, hs.shape, hop, ?_, ?_, ?_, ?_, fun _ => hs.sched.caller 0, ?_,
    fun _ _ => rfl⟩
  · simp [hs.io_queue]
  · intro p
    simp [hs.io_queue, hop p]
  · intro c
    show s.CpuOkAt c (s.thread c)
    rw [hs.thread]
    refine .inr ⟨hs.sched.cpu c, ?_⟩
    rw [hs.data]
  · rw [Sim.NoForce, hs.sched.caller 0]
    simp
  · unfold Sim.SupervisorOk
    rw [hs.supervisor]
    trivial

end ECE3056.Scheduling
