import ECE3056.Library.History
import ECE3056.Scheduling.Events
import ECE3056.Scheduling.Service

/-!
# Every process receives exactly the service its program asks for

The processes share the CPUs in any order: a process may be dispatched, preempted and
dispatched again at any point. A tick counts its burst down or leaves it, and either
way what is left of its program drops by one tick. A request is submitted when its
burst is left, and the process goes on when the request has been completed.
-/

namespace ECE3056.Scheduling

variable {ncpu nproc : Nat}

/-! ## Programs -/

/-- The ticks that the bursts of a program take. -/
def burstTicks (ops : List Op) : Nat :=
  ((ops.filter fun op => op.type = .cpu).map fun op => op.time.toNat + 1).sum

/-- The times of a program's I/O requests, in order. -/
def ioTimes (ops : List Op) : List UInt32 := (ops.filter fun op => op.type = .io).map Op.time

theorem burstTicks_cons (op : Op) (ops : List Op) :
    burstTicks (op :: ops) =
      (if op.type = .cpu then op.time.toNat + 1 else 0) + burstTicks ops := by
  unfold burstTicks
  by_cases h : op.type = .cpu <;> simp [h]

theorem ioTimes_cons (op : Op) (ops : List Op) :
    ioTimes (op :: ops) = (if op.type = .io then [op.time] else []) ++ ioTimes ops := by
  unfold ioTimes
  by_cases h : op.type = .io <;> simp [h]

namespace Account

variable {a a' : Account nproc} {p q : Fin nproc} {op op' : Op} {event : Option CpuState}

/-- The ticks a process has still to run. -/
def ticksLeft (a : Account nproc) (p : Fin nproc) : Nat := burstTicks ((a.ops p).drop (a.pc p))

/-- The requests a process has still to submit. -/
def requestsLeft (a : Account nproc) (p : Fin nproc) : List UInt32 :=
  ioTimes ((a.ops p).drop (a.pc p + 1))

theorem drop_eq {l : List Op} {i : Nat} (h : l[i]? = some op) :
    l.drop i = op :: l.drop (i + 1) := by
  obtain ⟨hlt, rfl⟩ := List.getElem?_eq_some_iff.mp h
  exact List.drop_eq_getElem_cons hlt

theorem ticksLeft_eq (h : a.op p = some op) :
    a.ticksLeft p = (if op.type = .cpu then op.time.toNat + 1 else 0) +
      burstTicks ((a.ops p).drop (a.pc p + 1)) := by
  rw [ticksLeft, drop_eq h, burstTicks_cons]

theorem requestsLeft_eq (h : (a.ops p)[a.pc p + 1]? = some op) : a.requestsLeft p =
    (if op.type = .io then [op.time] else []) ++ ioTimes ((a.ops p).drop (a.pc p + 1 + 1)) := by
  rw [requestsLeft, drop_eq h, ioTimes_cons]

/-- The type of the operation that `pc` points to. -/
def opType (a : Account nproc) (p : Fin nproc) : Option OpType :=
  ((a.ops p).map Op.type)[a.pc p]?

theorem opType_eq (h : a.op p = some op) : a.opType p = some op.type := by
  rw [opType, List.getElem?_map, show (a.ops p)[a.pc p]? = some op from h, Option.map_some]

theorem op_of_opType {type : OpType} (h : a.opType p = some type) :
    ∃ op, a.op p = some op ∧ op.type = type := by
  rw [opType, List.getElem?_map] at h
  exact Option.map_eq_some_iff.mp h

/-- Nothing of a process has changed. -/
def Keeps (a a' : Account nproc) (q : Fin nproc) : Prop := a'.ops q = a.ops q ∧ a'.pc q = a.pc q

theorem Keeps.ticksLeft (h : Keeps a a' q) : a'.ticksLeft q = a.ticksLeft q := by
  rw [Account.ticksLeft, h.1, h.2, Account.ticksLeft]

theorem Keeps.requestsLeft (h : Keeps a a' q) : a'.requestsLeft q = a.requestsLeft q := by
  rw [Account.requestsLeft, h.1, h.2, Account.requestsLeft]

theorem Keeps.opType (h : Keeps a a' q) : a'.opType q = a.opType q := by
  rw [Account.opType, h.1, h.2, Account.opType]

theorem Tick.keeps (h : a.Tick p a' event) (hq : q ≠ p) : Keeps a a' q := by
  cases h with
  | burst => exact ⟨Function.update_of_ne hq .., rfl⟩
  | request | exit | nextBurst => exact ⟨rfl, Function.update_of_ne hq ..⟩
  | blocked => exact ⟨rfl, rfl⟩

theorem Tick.types (h : a.Tick p a' event) (q : Fin nproc) :
    (a'.ops q).map Op.type = (a.ops q).map Op.type := by
  cases h with
  | @burst op event hop =>
    show (Function.update a.ops p _ q).map Op.type = _
    by_cases hq : q = p
    · rw [hq, Function.update_self]
      exact map_type_set hop rfl
    · rw [Function.update_of_ne hq]
  | request | exit | nextBurst | blocked => rfl

/-- What a process receives in a tick of one of its bursts. -/
structure Received (a a' : Account nproc) (p : Fin nproc) (event : Option CpuState)
    (request : Option UInt32) : Prop where
  ticks : a'.ticksLeft p + 1 = a.ticksLeft p
  queue : a'.io_queue = a.io_queue ++ (request.map fun time => (p, time)).toList
  requests : request.toList ++ a'.requestsLeft p = a.requestsLeft p
  next : request = none ∧ (event = none ∨ event = some .preempt) ∧ a'.opType p = some .cpu ∨
    request.isSome ∧ event = some .yield ∧ a'.opType p = some .io ∨
    request = none ∧ event = some .terminate ∧ a'.opType p = some .terminate

theorem op_countDown (hop : a.op p = some op) :
    (a.countDown p op).op p = some { op with time := op.time - 1 } := by
  obtain ⟨hlt, -⟩ := List.getElem?_eq_some_iff.mp hop
  simp [Account.op, countDown, hlt]

theorem ops_countDown (a : Account nproc) (p : Fin nproc) (op : Op) :
    (a.countDown p op).ops p = (a.ops p).set (a.pc p) { op with time := op.time - 1 } :=
  Function.update_self ..

theorem drop_countDown :
    ((a.countDown p op).ops p).drop ((a.countDown p op).pc p + 1) =
      (a.ops p).drop (a.pc p + 1) := by
  simp [countDown, List.drop_set]

theorem requestsLeft_advance (a : Account nproc) (p : Fin nproc) (op : Op) :
    (a.advance p op).requestsLeft p = ioTimes ((a.ops p).drop (a.pc p + 1 + 1)) := by
  rw [requestsLeft, advance]
  simp only [Function.update_self]

theorem opType_advance (h : (a.ops p)[a.pc p + 1]? = some op') :
    (a.advance p op').opType p = some op'.type := by
  rw [opType, advance]
  simp [h]

theorem ticksLeft_advance (op' : Op) (hop : a.op p = some op) (hcpu : op.type = .cpu)
    (hzero : op.time = 0) :
    (a.advance p op').ticksLeft p + 1 = a.ticksLeft p := by
  rw [ticksLeft_eq hop, if_pos hcpu, hzero, ticksLeft, advance]
  simp only [Function.update_self]
  exact Nat.add_comm ..

/-- A process on a CPU is in a burst, which counts down or is left for what comes next. -/
theorem Tick.received (h : a.Tick p a' event)
    (hshape : WellShaped ((a.ops p).map Op.type) = true) (hcpu : a.opType p = some .cpu) :
    ∃ request, Received a a' p event request := by
  have hnext := WellShaped.after_cpu hshape hcpu
  rw [List.getElem?_map] at hnext
  cases h with
  | @burst op event hop htype htime hevent =>
    have hop' := op_countDown hop
    refine ⟨none, ⟨?_, (List.append_nil _).symm, ?_, .inl ⟨rfl, hevent, ?_⟩⟩⟩
    · rw [ticksLeft_eq hop, ticksLeft_eq hop', drop_countDown]
      have hpos : 0 < op.time.toNat := UInt32.lt_iff_toNat_lt.mp htime
      have htoNat : (op.time - 1).toNat = op.time.toNat - 1 :=
        UInt32.toNat_sub_of_le _ _ (UInt32.le_iff_toNat_le.mpr hpos)
      simp only [htype, ↓reduceIte, htoNat]
      omega
    · rw [requestsLeft, requestsLeft, drop_countDown]
      rfl
    · rw [opType_eq hop', htype]
  | @request op op' hop htype hzero hop' htype' =>
    refine ⟨some op'.time, ⟨ticksLeft_advance op' hop htype hzero, rfl, ?_,
      .inr (.inl ⟨rfl, rfl, ?_⟩)⟩⟩
    · rw [requestsLeft_eq hop', if_pos htype']
      exact congrArg _ (requestsLeft_advance a p op')
    · rw [← htype']
      exact opType_advance hop'
  | @exit op op' hop htype hzero hop' htype' =>
    refine ⟨none, ⟨ticksLeft_advance op' hop htype hzero, (List.append_nil _).symm, ?_,
      .inr (.inr ⟨rfl, rfl, ?_⟩)⟩⟩
    · rw [requestsLeft_eq hop', if_neg (by simp [htype'])]
      exact congrArg _ (requestsLeft_advance a p op')
    · rw [← htype']
      exact opType_advance hop'
  | @nextBurst op op' hop htype hzero hop' htype' =>
    rw [hop', Option.map_some, htype'] at hnext
    simp at hnext
  | blocked hop htype =>
    rw [opType_eq hop] at hcpu
    exact absurd (Option.some_inj.mp hcpu) htype

/-- What the completion of a request does to the process that waited for it. -/
theorem complete_received (rest : List (Fin nproc × UInt32))
    (hshape : WellShaped ((a.ops p).map Op.type) = true) (hio : a.opType p = some .io)
    (hop : (a.ops p)[a.pc p + 1]? = some op) :
    let a' := { a.advance p op with io_queue := rest }
    a'.ticksLeft p = a.ticksLeft p ∧ a'.requestsLeft p = a.requestsLeft p ∧
      a'.opType p = some .cpu := by
  have hcpu : op.type = .cpu := by
    have hnext := WellShaped.after_io hshape hio
    rw [List.getElem?_map, hop] at hnext
    exact Option.some_inj.mp hnext
  obtain ⟨op₀, hop₀, htype₀⟩ := op_of_opType hio
  refine ⟨?_, ?_, ?_⟩
  · rw [ticksLeft_eq hop₀, if_neg (by simp [htype₀]), Nat.zero_add]
    simp [ticksLeft, advance]
  · rw [requestsLeft_eq hop, if_neg (by simp [hcpu])]
    exact requestsLeft_advance a p op
  · rw [← hcpu]
    exact opType_advance hop

end Account

/-! ## Interleavings -/

/-- Where a process is. -/
inductive Spot (ncpu : Nat)
  | ready
  | onCpu (c : Fin ncpu)
  | waiting
  | finished
  deriving DecidableEq, Repr

/-- The operation that a process stands at. -/
def Spot.opType : Spot ncpu → OpType
  | ready | onCpu _ => .cpu
  | waiting => .io
  | finished => .terminate

/-- An event takes the process off its CPU. -/
def Spot.after (c : Fin ncpu) : Option CpuState → Spot ncpu
  | some .preempt => ready
  | some .yield => waiting
  | some .terminate => finished
  | _ => onCpu c

/-- What one step shows: a tick with its event and the time of the request it submitted, or a
call of `simulate_io` with the process whose request it completed. -/
inductive Shown (nproc : Nat)
  | tick (p : Fin nproc) (event : Option CpuState) (request : Option UInt32)
  | io (completed : Option (Fin nproc))
  | other
  deriving DecidableEq, Repr

/-- The simulator, and where its processes are. -/
structure Service (ncpu nproc : Nat) where
  sim : Sim ncpu nproc
  spot : Fin nproc → Spot ncpu

/-- Ticks only for a process on a CPU, which an event takes off it; preemptions and dispatches at
any point; calls of `simulate_io`; and whatever leaves the programs and the I/O queue alone. -/
inductive Service.Step (s : Service ncpu nproc) : Shown nproc → Service ncpu nproc → Prop
  | tick {c p sim' es request} : s.spot p = .onCpu c →
      s.sim.simulateProcess c p = some (sim', es) →
      sim'.io_queue = s.sim.io_queue ++ (request.map fun time => (p, time)).toList →
      Step s (.tick p (storedEvent es) request)
        ⟨sim', Function.update s.spot p (.after c (storedEvent es))⟩
  | io {sim'} : s.sim.simulateIo = some sim' →
      Step s (.io (woken sim'))
        ⟨sim', fun p => if woken sim' = some p then .ready else s.spot p⟩
  | preempt {c p} : s.spot p = .onCpu c →
      Step s .other { s with spot := Function.update s.spot p .ready }
  | dispatch {c p} : s.spot p = .ready →
      Step s .other { s with spot := Function.update s.spot p (.onCpu c) }
  | rest {sim'} : sim'.ops = s.sim.ops → sim'.pc = s.sim.pc → sim'.io_queue = s.sim.io_queue →
      Step s .other { s with sim := sim' }

/-- A run with these programs, and what it shows. -/
inductive Service.Run (program : Fin nproc → List Op) :
    List (Shown nproc) → Service ncpu nproc → Prop
  | start {sim} : sim.ops = program → (∀ p, sim.pc p = 0) → sim.io_queue = [] →
      Run program [] ⟨sim, fun _ => .ready⟩
  | step {s s' shown l} : Run program shown s → s.Step l s' → Run program (shown ++ [l]) s'

/-- The number of ticks of a process. -/
def ticks (p : Fin nproc) (shown : List (Shown nproc)) : Nat :=
  shown.countP fun
    | .tick q _ _ => q = p
    | .io _ | .other => false

/-- The requests submitted, in order. -/
def submissions (shown : List (Shown nproc)) : List (Fin nproc × UInt32) :=
  shown.flatMap fun
    | .tick p _ request => (request.map fun time => (p, time)).toList
    | .io _ | .other => []

/-- The processes whose requests were completed, in order. -/
def completions (shown : List (Shown nproc)) : List (Fin nproc) :=
  shown.flatMap fun
    | .io completed => completed.toList
    | .tick .. | .other => []

/-- The times of the requests that a process submitted. -/
def submittedBy (p : Fin nproc) (shown : List (Shown nproc)) : List UInt32 :=
  ((submissions shown).filter fun r => r.1 = p).map Prod.snd

/-! ## The account is kept -/

/-- What was shown and what is left make up the program. -/
structure Accounted (program : Fin nproc → List Op) (shown : List (Shown nproc))
    (s : Service ncpu nproc) : Prop where
  types : ∀ p, (s.sim.ops p).map Op.type = (program p).map Op.type
  spot : ∀ p, s.sim.account.opType p = some (s.spot p).opType
  run : ∀ p, ticks p shown + s.sim.account.ticksLeft p = burstTicks (program p)
  requests : ∀ p, submittedBy p shown ++ s.sim.account.requestsLeft p = ioTimes (program p)
  queued : ∀ p, p ∈ s.sim.io_queue.map Prod.fst ↔ s.spot p = .waiting
  nodup : (s.sim.io_queue.map Prod.fst).Nodup
  order : completions shown ++ s.sim.io_queue.map Prod.fst = (submissions shown).map Prod.fst

theorem Spot.eq_waiting_iff (v : Spot ncpu) : v = .waiting ↔ v.opType = .io := by
  cases v <;> simp [Spot.opType]

section Shows
variable (shown : List (Shown nproc)) (p q : Fin nproc) (event : Option CpuState)
variable (request : Option UInt32) (completed : Option (Fin nproc))

@[simp] theorem ticks_tick : ticks q (shown ++ [.tick p event request]) =
    ticks q shown + if p = q then 1 else 0 := by
  simp [ticks, List.countP_append, List.countP_singleton]

@[simp] theorem submissions_tick : submissions (shown ++ [.tick p event request]) =
    submissions shown ++ (request.map fun time => (p, time)).toList := by
  simp [submissions]

@[simp] theorem completions_tick :
    completions (shown ++ [.tick p event request]) = completions shown := by
  simp [completions]

@[simp] theorem ticks_io : ticks q (shown ++ [.io completed]) = ticks q shown := by
  simp [ticks, List.countP_append]

@[simp] theorem submissions_io :
    submissions (shown ++ [.io completed]) = submissions shown := by
  simp [submissions]

@[simp] theorem completions_io :
    completions (shown ++ [.io completed]) = completions shown ++ completed.toList := by
  simp [completions]

@[simp] theorem ticks_other : ticks q (shown ++ [.other]) = ticks q shown := by
  simp [ticks, List.countP_append]

@[simp] theorem submissions_other : submissions (shown ++ [.other]) = submissions shown := by
  simp [submissions]

@[simp] theorem completions_other : completions (shown ++ [.other]) = completions shown := by
  simp [completions]

theorem submittedBy_tick : submittedBy q (shown ++ [.tick p event request]) =
    submittedBy q shown ++ if p = q then request.toList else [] := by
  rw [submittedBy, submissions_tick, List.filter_append, List.map_append, ← submittedBy]
  by_cases hpq : p = q <;> cases request <;> simp [hpq]

end Shows

section Account
variable {program : Fin nproc → List Op} {shown : List (Shown nproc)} {s s' : Service ncpu nproc}
variable {l : Shown nproc}

namespace Accounted

theorem shape (h : Accounted program shown s)
    (hshape : ∀ p, WellShaped ((program p).map Op.type) = true) (p : Fin nproc) :
    WellShaped ((s.sim.account.ops p).map Op.type) = true := by
  show WellShaped ((s.sim.ops p).map Op.type) = true
  rw [h.types]
  exact hshape p

/-- Steps that run no tick and touch no request. -/
theorem quiet (h : Accounted program shown s) (hticks : ∀ q, ticks q (shown ++ [l]) = ticks q shown)
    (hsubmissions : submissions (shown ++ [l]) = submissions shown)
    (hcompletions : completions (shown ++ [l]) = completions shown)
    (hops : s'.sim.ops = s.sim.ops) (hpc : s'.sim.pc = s.sim.pc)
    (hio : s'.sim.io_queue.map Prod.fst = s.sim.io_queue.map Prod.fst)
    (hspot : ∀ q, (s'.spot q).opType = (s.spot q).opType) : Accounted program (shown ++ [l]) s' := by
  have hkeeps : ∀ q, Account.Keeps s.sim.account s'.sim.account q := fun q =>
    ⟨congrFun hops q, congrFun hpc q⟩
  constructor
  case types => intro q; rw [hops]; exact h.types q
  case spot => intro q; rw [(hkeeps q).opType, hspot]; exact h.spot q
  case run => intro q; rw [hticks, (hkeeps q).ticksLeft]; exact h.run q
  case requests =>
    intro q
    rw [submittedBy, hsubmissions, (hkeeps q).requestsLeft]
    exact h.requests q
  case queued =>
    intro q
    rw [hio, h.queued, Spot.eq_waiting_iff, Spot.eq_waiting_iff, hspot]
  case nodup => rw [hio]; exact h.nodup
  case order => rw [hio, hcompletions, hsubmissions]; exact h.order

/-- Steps that show nothing. -/
theorem move (h : Accounted program shown s) (hops : s'.sim.ops = s.sim.ops)
    (hpc : s'.sim.pc = s.sim.pc) (hio : s'.sim.io_queue = s.sim.io_queue)
    (hspot : ∀ q, (s'.spot q).opType = (s.spot q).opType) :
    Accounted program (shown ++ [.other]) s' :=
  h.quiet (ticks_other shown) (submissions_other shown) (completions_other shown) hops hpc
    (congrArg (List.map Prod.fst) hio) hspot

/-- A preemption or a dispatch leaves the process at its operation. -/
theorem relocate (h : Accounted program shown s) {p : Fin nproc} {v : Spot ncpu}
    (hv : v.opType = (s.spot p).opType) :
    Accounted program (shown ++ [.other]) { s with spot := Function.update s.spot p v } := by
  refine h.move rfl rfl rfl fun q => ?_
  dsimp only
  by_cases hq : q = p
  · rw [hq, Function.update_self]
    exact hv
  · rw [Function.update_of_ne hq]

/-- A tick runs one tick of what is left, and submits a request if it yields. -/
theorem tick (h : Accounted program shown s) {c : Fin ncpu} {p : Fin nproc}
    {sim' : Sim ncpu nproc} {event : Option CpuState} {request : Option UInt32}
    (hspot : s.spot p = .onCpu c) (htick : s.sim.account.Tick p sim'.account event)
    (hreceived : Account.Received s.sim.account sim'.account p event request) :
    Accounted program (shown ++ [.tick p event request])
      ⟨sim', Function.update s.spot p (.after c event)⟩ := by
  have hspot_ne : ∀ q, q ≠ p → Function.update s.spot p (.after c event) q = s.spot q :=
    fun q hq => Function.update_of_ne hq ..
  have hop : sim'.account.opType p = some (Spot.after c event).opType := by
    rcases hreceived.next with ⟨-, rfl | rfl, hop⟩ | ⟨-, rfl, hop⟩ | ⟨-, rfl, hop⟩ <;> exact hop
  have hqueue : sim'.io_queue.map Prod.fst =
      s.sim.io_queue.map Prod.fst ++ (request.map fun _ => p).toList := by
    rw [show sim'.io_queue = _ from hreceived.queue, List.map_append]
    cases request <;> rfl
  have hnotin : p ∉ s.sim.io_queue.map Prod.fst := by
    rw [h.queued, hspot]
    simp
  constructor
  case types => intro q; rw [← h.types q]; exact htick.types q
  case spot =>
    intro q
    dsimp only
    by_cases hq : q = p
    · rw [hq, Function.update_self]
      exact hop
    · rw [hspot_ne q hq, (htick.keeps hq).opType]
      exact h.spot q
  case run =>
    intro q
    dsimp only
    rw [ticks_tick]
    have hold := h.run q
    by_cases hq : q = p
    · have hleft := hreceived.ticks
      rw [if_pos hq.symm]
      rw [hq] at hold ⊢
      omega
    · rw [if_neg (Ne.symm hq), (htick.keeps hq).ticksLeft]
      exact hold
  case requests =>
    intro q
    dsimp only
    rw [submittedBy_tick]
    by_cases hq : q = p
    · rw [if_pos hq.symm, hq, List.append_assoc, hreceived.requests]
      exact h.requests p
    · rw [if_neg (Ne.symm hq), List.append_nil, (htick.keeps hq).requestsLeft]
      exact h.requests q
  case queued =>
    intro q
    dsimp only
    rw [hqueue, List.mem_append, h.queued]
    by_cases hq : q = p
    · rw [hq, Function.update_self, hspot]
      rcases hreceived.next with ⟨rfl, rfl | rfl, -⟩ | ⟨hreq, rfl, -⟩ | ⟨rfl, rfl, -⟩
      · simp [Spot.after]
      · simp [Spot.after]
      · obtain ⟨time, rfl⟩ := Option.isSome_iff_exists.mp hreq
        simp [Spot.after]
      · simp [Spot.after]
    · rw [hspot_ne q hq]
      cases request <;> simp [hq]
  case nodup =>
    rw [hqueue]
    cases request with
    | none => simpa using h.nodup
    | some time =>
      refine List.nodup_append.mpr ⟨h.nodup, List.nodup_singleton p, fun x hx y hy hxy => ?_⟩
      have hy' : y = p := List.mem_singleton.mp hy
      rw [hxy, hy'] at hx
      exact hnotin hx
  case order =>
    dsimp only
    rw [completions_tick, submissions_tick, hqueue, ← List.append_assoc, h.order, List.map_append]
    cases request <;> rfl

/-- A call of `simulate_io` that completes nothing. -/
theorem io_none (h : Accounted program shown s) {sim' : Sim ncpu nproc}
    (hops : sim'.ops = s.sim.ops) (hpc : sim'.pc = s.sim.pc)
    (hio : sim'.io_queue.map Prod.fst = s.sim.io_queue.map Prod.fst) :
    Accounted program (shown ++ [.io none]) ⟨sim', s.spot⟩ := by
  have hcompletions : completions (shown ++ [.io none]) = completions shown :=
    (completions_io shown none).trans (List.append_nil _)
  exact h.quiet (fun q => ticks_io shown q none) (submissions_io shown none) hcompletions hops hpc
    hio fun _ => rfl

/-- The request at the head of the queue is completed, and its process can be dispatched again. -/
theorem io_some (h : Accounted program shown s)
    (hshape : ∀ p, WellShaped ((program p).map Op.type) = true) {sim' : Sim ncpu nproc}
    {p : Fin nproc} {time : UInt32} {rest : List (Fin nproc × UInt32)} {op : Op}
    (hqueue : s.sim.io_queue = (p, time) :: rest)
    (hop : (s.sim.ops p)[s.sim.pc p + 1]? = some op)
    (hsim : sim'.account = { s.sim.account.advance p op with io_queue := rest }) :
    Accounted program (shown ++ [.io (some p)])
      ⟨sim', Function.update s.spot p .ready⟩ := by
  have hmap : s.sim.io_queue.map Prod.fst = p :: rest.map Prod.fst := by rw [hqueue]; rfl
  have hwaiting : s.spot p = .waiting := by
    rw [← h.queued, hmap]
    exact List.mem_cons_self ..
  have hio : s.sim.account.opType p = some .io := by rw [h.spot, hwaiting]; rfl
  obtain ⟨hticks, hrequests, hcpu⟩ := Account.complete_received rest (h.shape hshape p) hio hop
  rw [← hsim] at hticks hrequests hcpu
  have hkeeps : ∀ q, q ≠ p → Account.Keeps s.sim.account sim'.account q := by
    intro q hq
    rw [hsim]
    exact ⟨rfl, Function.update_of_ne hq ..⟩
  have hrest : sim'.io_queue = rest := congrArg Account.io_queue hsim
  have hnodup := h.nodup
  rw [hmap, List.nodup_cons] at hnodup
  constructor
  case types =>
    intro q
    rw [show sim'.ops = s.sim.ops from congrArg Account.ops hsim]
    exact h.types q
  case spot =>
    intro q
    dsimp only
    by_cases hq : q = p
    · rw [hq, Function.update_self]
      exact hcpu
    · rw [Function.update_of_ne hq, (hkeeps q hq).opType]
      exact h.spot q
  case run =>
    intro q
    dsimp only
    rw [ticks_io]
    by_cases hq : q = p
    · rw [hq, hticks]
      exact h.run p
    · rw [(hkeeps q hq).ticksLeft]
      exact h.run q
  case requests =>
    intro q
    dsimp only
    rw [submittedBy, submissions_io]
    by_cases hq : q = p
    · rw [hq, hrequests]
      exact h.requests p
    · rw [(hkeeps q hq).requestsLeft]
      exact h.requests q
  case queued =>
    intro q
    dsimp only
    rw [hrest]
    by_cases hq : q = p
    · rw [hq, Function.update_self]
      simpa using hnodup.1
    · rw [Function.update_of_ne hq, ← h.queued, hmap, List.mem_cons, or_iff_right hq]
  case nodup => dsimp only; rw [hrest]; exact hnodup.2
  case order =>
    dsimp only
    rw [hrest, completions_io, submissions_io, ← h.order, hmap, List.append_assoc]
    rfl

theorem io (h : Accounted program shown s)
    (hshape : ∀ p, WellShaped ((program p).map Op.type) = true) {sim' : Sim ncpu nproc}
    {completed : Option (Fin nproc)} (hio : s.sim.account.Io sim'.account completed) :
    Accounted program (shown ++ [.io completed])
      ⟨sim', fun p => if completed = some p then .ready else s.spot p⟩ := by
  generalize ha : sim'.account = a' at hio
  cases hio with
  | none hnil =>
    simp only [reduceCtorEq, ↓reduceIte]
    exact h.io_none (congrArg Account.ops ha) (congrArg Account.pc ha)
      (congrArg (fun a => a.io_queue.map Prod.fst) ha)
  | @wait p time rest hcons =>
    simp only [reduceCtorEq, ↓reduceIte]
    refine h.io_none (congrArg Account.ops ha) (congrArg Account.pc ha) ?_
    rw [show sim'.io_queue = _ from congrArg Account.io_queue ha,
      show s.sim.io_queue = _ from hcons]
    rfl
  | @complete p rest op hcons hop =>
    have hspot : (fun q => if some p = some q then .ready else s.spot q) =
        Function.update s.spot p .ready := by
      funext q
      by_cases hq : q = p
      · rw [hq, Function.update_self, if_pos rfl]
      · rw [Function.update_of_ne hq, if_neg fun h => hq (Option.some_inj.mp h).symm]
    rw [hspot]
    exact h.io_some hshape hcons hop ha

theorem step (h : Accounted program shown s)
    (hshape : ∀ p, WellShaped ((program p).map Op.type) = true) (hs : s.Step l s') :
    Accounted program (shown ++ [l]) s' := by
  cases hs with
  | @tick c p sim' es request hspot htick hqueue =>
    obtain ⟨hacc, -⟩ := simulateProcess_tick htick
    have hcpu := h.spot p
    rw [hspot] at hcpu
    obtain ⟨request', hreceived⟩ := hacc.received (h.shape hshape p) hcpu
    obtain rfl : request = request' := by
      have happend := List.append_cancel_left (hqueue.symm.trans hreceived.queue)
      cases request <;> cases request' <;> simp_all
    exact h.tick hspot hacc hreceived
  | io hio => exact h.io hshape (simulateIo_io hio)
  | preempt hspot => exact h.relocate (by rw [hspot]; rfl)
  | dispatch hspot => exact h.relocate (by rw [hspot]; rfl)
  | rest hops hpc hio => exact h.move hops hpc hio fun q => rfl

end Accounted

theorem Service.Run.accounted (hs : Service.Run program shown s)
    (hshape : ∀ p, WellShaped ((program p).map Op.type) = true) : Accounted program shown s := by
  induction hs with
  | @start sim hops hpc hio =>
    constructor
    case types => intro p; rw [hops]
    case spot =>
      intro p
      rw [Account.opType, show sim.account.ops p = program p by rw [← hops]; rfl,
        show sim.account.pc p = 0 from hpc p]
      exact WellShaped.head (hshape p)
    case run =>
      intro p
      rw [Account.ticksLeft, show sim.account.ops p = program p by rw [← hops]; rfl,
        show sim.account.pc p = 0 from hpc p]
      exact Nat.zero_add _
    case requests =>
      intro p
      rw [Account.requestsLeft, show sim.account.ops p = program p by rw [← hops]; rfl,
        show sim.account.pc p = 0 from hpc p]
      have hhead := WellShaped.head (hshape p)
      rw [List.getElem?_map, Option.map_eq_some_iff] at hhead
      obtain ⟨op, hop, hcpu⟩ := hhead
      have hcons := ioTimes_cons op ((program p).drop 1)
      rw [if_neg (by simp [hcpu]), ← Account.drop_eq hop, List.drop_zero] at hcons
      exact hcons.symm
    case queued => intro p; dsimp only; rw [hio]; simp
    case nodup => dsimp only; rw [hio]; exact List.nodup_nil
    case order => dsimp only; rw [hio]; rfl
  | step _ hstep ih => exact ih.step hshape hstep

/-! ## The law -/

namespace Accounted

variable {p : Fin nproc}

/-- A process that has finished stands at the last operation. -/
theorem left_of_finished (h : Accounted program shown s)
    (hshape : ∀ p, WellShaped ((program p).map Op.type) = true) (hp : s.spot p = .finished) :
    s.sim.account.ticksLeft p = 0 ∧ s.sim.account.requestsLeft p = [] := by
  have htype := h.spot p
  rw [hp] at htype
  obtain ⟨op, hop, hterm⟩ := Account.op_of_opType htype
  have hend : (s.sim.account.ops p).drop (s.sim.account.pc p + 1) = [] := by
    have hmap := WellShaped.after_terminate (h.shape hshape p) htype
    rw [← List.map_drop, List.map_eq_nil_iff] at hmap
    exact hmap
  constructor
  · rw [Account.ticksLeft_eq hop, if_neg (by simp [hterm, Spot.opType]), hend]
    rfl
  · rw [Account.requestsLeft, hend]
    rfl

/-- Anywhere else a burst is still to come. -/
theorem ticksLeft_pos (h : Accounted program shown s)
    (hshape : ∀ p, WellShaped ((program p).map Op.type) = true) (hp : s.spot p ≠ .finished) :
    0 < s.sim.account.ticksLeft p := by
  have htype := h.spot p
  obtain ⟨op, hop, heq⟩ := Account.op_of_opType htype
  by_cases hcpu : op.type = .cpu
  · rw [Account.ticksLeft_eq hop, if_pos hcpu]
    omega
  · have hio : s.sim.account.opType p = some .io := by
      cases hspot : s.spot p <;> rw [hspot] at hp htype heq
      · exact absurd heq hcpu
      · exact absurd heq hcpu
      · exact htype
      · exact absurd rfl hp
    have hnext := WellShaped.after_io (h.shape hshape p) hio
    rw [List.getElem?_map, Option.map_eq_some_iff] at hnext
    obtain ⟨op', hop', hcpu'⟩ := hnext
    rw [Account.ticksLeft_eq hop, if_neg hcpu, Account.drop_eq hop', burstTicks_cons, if_pos hcpu']
    omega

/-- A tick raises `CPU_TERMINATE` exactly when it is the last one that the program asks for. -/
theorem terminates_iff (h : Accounted program shown s)
    (hshape : ∀ p, WellShaped ((program p).map Op.type) = true) {event : Option CpuState}
    {request : Option UInt32} (hs : s.Step (.tick p event request) s') :
    event = some .terminate ↔ ticks p shown + 1 = burstTicks (program p) := by
  have h' := h.step hshape hs
  have htotal := h'.run p
  rw [ticks_tick, if_pos rfl] at htotal
  obtain ⟨c, hc⟩ : ∃ c, s'.spot p = .after c event := by
    cases hs with
    | @tick c _ _ _ _ _ _ _ => exact ⟨c, Function.update_self ..⟩
  have hfinished : s'.spot p = .finished ↔ event = some .terminate := by
    rw [hc]
    rcases event with - | ⟨- | - | - | - | -⟩ <;> simp [Spot.after]
  rw [← hfinished]
  constructor
  · intro hp
    have hleft := (h'.left_of_finished hshape hp).1
    omega
  · intro hlast
    by_contra hp
    have hleft := h'.ticksLeft_pos hshape hp
    omega

theorem pc_lt (h : Accounted program shown s) (p : Fin nproc) :
    s.sim.pc p < (s.sim.ops p).length := by
  obtain ⟨op, hop, -⟩ := Account.op_of_opType (h.spot p)
  exact (List.getElem?_eq_some_iff.mp hop).1

/-- A process on a CPU can be given its next tick. -/
theorem tick_returns (h : Accounted program shown s)
    (hshape : ∀ p, WellShaped ((program p).map Op.type) = true) {c : Fin ncpu}
    (hp : s.spot p = .onCpu c) : ∃ event request s', s.Step (.tick p event request) s' := by
  have hcpu := h.spot p
  rw [hp] at hcpu
  obtain ⟨op, hop, -⟩ := Account.op_of_opType hcpu
  obtain ⟨op', hop'⟩ := exists_after_cpu (h.shape hshape p) hcpu
  obtain ⟨sim', es, hsim⟩ := simulateProcess_returns c hop hop'
  obtain ⟨request, hreceived⟩ := (simulateProcess_tick hsim).1.received (h.shape hshape p) hcpu
  exact ⟨_, request, _, .tick hp hsim hreceived.queue⟩

/-- `simulate_io` returns whatever it finds in the I/O queue. -/
theorem io_returns (h : Accounted program shown s)
    (hshape : ∀ p, WellShaped ((program p).map Op.type) = true) :
    ∃ completed s', s.Step (.io completed) s' := by
  have hsome : s.sim.simulateIo.isSome = true := by
    cases hqueue : s.sim.io_queue with
    | nil =>
      simp only [Sim.simulateIo, hqueue]
      rfl
    | cons request rest =>
      obtain ⟨p, time⟩ := request
      by_cases hzero : time ≤ 0
      · -- the process waits at its `OP_IO`, and a burst follows it
        have hwaiting : s.spot p = .waiting := by
          rw [← h.queued, hqueue]
          exact List.mem_cons_self ..
        have hio : s.sim.account.opType p = some .io := by rw [h.spot, hwaiting]; rfl
        have hnext := WellShaped.after_io (h.shape hshape p) hio
        rw [List.getElem?_map, Option.map_eq_some_iff] at hnext
        obtain ⟨op, hop, -⟩ := hnext
        have hop' : (s.sim.incPc p).op p = some op := by
          rw [Sim.op, Sim.incPc]
          dsimp only
          rw [Function.update_self]
          exact hop
        simp only [Sim.simulateIo, hqueue, if_pos hzero, hop']
        rfl
      · simp only [Sim.simulateIo, hqueue, if_neg hzero]
        rfl
  obtain ⟨sim', hsim⟩ := Option.isSome_iff_exists.mp hsome
  exact ⟨_, _, .io hsim⟩

end Accounted

/-- Each tick of the run that raises `CPU_TERMINATE` is the last its program asks for. -/
theorem Service.Run.terminates (hs : Service.Run program shown s)
    (hshape : ∀ p, WellShaped ((program p).map Op.type) = true)
    {before after : List (Shown nproc)} {p : Fin nproc} {event : Option CpuState}
    {request : Option UInt32} (hsplit : shown = before ++ .tick p event request :: after) :
    event = some .terminate ↔ ticks p before + 1 = burstTicks (program p) := by
  induction hs generalizing after with
  | start => simp at hsplit
  | @step s s' shown l hrun hstep ih =>
    rcases History.concat_eq_append_cons hsplit with ⟨-, rfl, rfl⟩ | ⟨after', -, hold⟩
    · exact (hrun.accounted hshape).terminates_iff hshape hstep
    · exact ih hold

/-- In every interleaving of programs of the documented shape a process raises `CPU_TERMINATE` on
exactly the tick that completes its bursts, submits its I/O operations in order, and never leaves
its array; requests are completed in the order of their submission. A process on a CPU can always
be given a tick, and `simulate_io` always returns. -/
theorem exact_service (hshape : ∀ p, WellShaped ((program p).map Op.type) = true)
    (hs : Service.Run program shown s) :
    (∀ before p event request after, shown = before ++ .tick p event request :: after →
        (event = some .terminate ↔ ticks p before + 1 = burstTicks (program p))) ∧
      (∀ p, submittedBy p shown <+: ioTimes (program p) ∧
        (s.spot p = .finished →
          ticks p shown = burstTicks (program p) ∧ submittedBy p shown = ioTimes (program p))) ∧
      (∀ p, s.sim.pc p < (s.sim.ops p).length) ∧
      completions shown <+: (submissions shown).map Prod.fst ∧
      (∀ p c, s.spot p = .onCpu c → ∃ event request s', s.Step (.tick p event request) s') ∧
      ∃ completed s', s.Step (.io completed) s' := by
  have h := hs.accounted hshape
  refine ⟨fun before p event request after hsplit => hs.terminates hshape hsplit, fun p => ?_,
    h.pc_lt, ⟨_, h.order⟩, fun p c hp => h.tick_returns hshape hp, h.io_returns hshape⟩
  refine ⟨⟨_, h.requests p⟩, fun hp => ?_⟩
  obtain ⟨hticks, hrequests⟩ := h.left_of_finished hshape hp
  have hrun := h.run p
  have hreq := h.requests p
  rw [hticks, Nat.add_zero] at hrun
  rw [hrequests, List.append_nil] at hreq
  exact ⟨hrun, hreq⟩

/-- Process 0 of `process.c` runs its first burst, waits for its first request and is dispatched
again. -/
theorem exact_service_handled :
    ∃ (shown : List (Shown processCount)) (s : Service 1 processCount),
      shown = [.other, .tick 0 none none, .tick 0 none none, .tick 0 (some .yield) (some 2),
        .io none, .io none, .io (some 0), .other] ∧
      submittedBy 0 shown <+: ioTimes pid0_ops ∧
      completions shown <+: (submissions shown).map Prod.fst ∧
      ∃ event request s', s.Step (.tick 0 event request) s' := by
  have h₀ : @Service.Run 1 processCount (fun p => (processes p).1) []
      ⟨startSimulator, fun _ => .ready⟩ := .start rfl (fun _ => rfl) rfl
  have h₁ := h₀.step (@Service.Step.dispatch 1 processCount _ 0 0 rfl)
  have h₂ := h₁.step (@Service.Step.tick 1 processCount _ 0 0 _ _ none rfl rfl rfl)
  have h₃ := h₂.step (@Service.Step.tick 1 processCount _ 0 0 _ _ none rfl rfl rfl)
  have h₄ := h₃.step (@Service.Step.tick 1 processCount _ 0 0 _ _ (some 2) rfl rfl rfl)
  have h₅ := h₄.step (@Service.Step.io 1 processCount _ _ rfl)
  have h₆ := h₅.step (@Service.Step.io 1 processCount _ _ rfl)
  have h₇ := h₆.step (@Service.Step.io 1 processCount _ _ rfl)
  have h₈ := h₇.step (@Service.Step.dispatch 1 processCount _ 0 0 rfl)
  obtain ⟨-, hsubmitted, -, hcompleted, htick, -⟩ := exact_service processes_wellShaped h₈
  exact ⟨_, _, rfl, (hsubmitted 0).1, hcompleted, htick 0 0 rfl⟩

end Account

end ECE3056.Scheduling
