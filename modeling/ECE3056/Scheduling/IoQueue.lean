import ECE3056.Library.LinkedList
import ECE3056.Scheduling.Gantt
import ECE3056.Scheduling.WriterLock

/-!
# The I/O queue in memory

`submit_io_request`, the queue's part of `simulate_io` and the walk over the queue in
`print_gantt_line`, on the requests themselves. To follow a pointer to where no request is,
as one that has been freed, has no result. The simulator's `io_queue` is the abstract
queue: along any run the linked one stays defined and behaves as it does.
-/

namespace ECE3056.Scheduling

open ECE3056.LinkedList

variable {ncpu nproc : Nat}

/-- `io_request`. -/
structure IoRequest (nproc : Nat) where
  pcb : Fin nproc
  execution_time : UInt32
  next : Option Nat

structure IoQueue (nproc : Nat) where
  io_queue_head : Option Nat
  io_queue_tail : Option Nat
  /-- what `malloc` has returned and nobody has freed -/
  heap : Nat → Option (IoRequest nproc)

namespace IoQueue

def empty : IoQueue nproc := ⟨none, none, fun _ => none⟩

def store (q : IoQueue nproc) (r : Nat) (request : IoRequest nproc) : IoQueue nproc :=
  { q with heap := Function.update q.heap r (some request) }

def free (q : IoQueue nproc) (r : Nat) : IoQueue nproc :=
  { q with heap := Function.update q.heap r none }

/-- `submit_io_request`, when `malloc` returns `r`. -/
def submitIoRequest (q : IoQueue nproc) (r : Nat) (pcb : Fin nproc) (execution_time : UInt32) :
    Option (IoQueue nproc) :=
  let q := q.store r { pcb, execution_time, next := none }
  match q.io_queue_tail with
  | some tail => do
    let request ← q.heap tail
    some { q.store tail { request with next := some r } with io_queue_tail := some r }
  | none => some { q with io_queue_head := some r, io_queue_tail := some r }

/-- The section of `simulate_io` up to the call of `wake_up`, and the process to call it for. -/
def simulateIo (q : IoQueue nproc) : Option (Option (Fin nproc) × IoQueue nproc) :=
  match q.io_queue_head with
  | none => some (none, q)
  | some head => do
    let request ← q.heap head
    let q := q.store head { request with execution_time := request.execution_time - 1 }
    if request.execution_time ≤ 0 then
      let q := { q with io_queue_head := request.next }
      let q := { q with
        io_queue_tail := if q.io_queue_head.isNone then none else q.io_queue_tail }
      some (some request.pcb, q.free head)
    else some (none, q)

/-- The loop of `print_gantt_line` over the requests, from `r` on. -/
def requestsFrom (q : IoQueue nproc) : Nat → Option Nat → Option (List (Fin nproc))
  | _, none => some []
  | 0, some _ => none
  | fuel + 1, some r => do
    let request ← q.heap r
    let rest ← q.requestsFrom fuel request.next
    some (request.pcb :: rest)

/-! ## What the queue holds -/

def next (q : IoQueue nproc) (r : Nat) : Option Nat := (q.heap r).bind IoRequest.next

def content (q : IoQueue nproc) (r : Nat) : Option (Fin nproc × UInt32) :=
  (q.heap r).map fun request => (request.pcb, request.execution_time)

/-- The requests at the addresses `rs` are queued in this order, and there are no others. -/
structure Holds (q : IoQueue nproc) (rs : List Nat) (xs : List (Fin nproc × UInt32)) : Prop where
  fifo : IsFifo q.next q.io_queue_head q.io_queue_tail rs
  content : rs.map q.content = xs.map some
  allocated : ∀ r, r ∈ rs ↔ q.heap r ≠ none

section
variable {q : IoQueue nproc} {r : Nat} {rs : List Nat} {xs : List (Fin nproc × UInt32)}

theorem heap_store (q : IoQueue nproc) (r : Nat) (request : IoRequest nproc) (a : Nat) :
    (q.store r request).heap a = if a = r then some request else q.heap a :=
  Function.update_apply ..

theorem next_store (q : IoQueue nproc) (r : Nat) (request : IoRequest nproc) :
    (q.store r request).next = Function.update q.next r request.next := by
  funext a
  rw [next, heap_store, Function.update_apply]
  split <;> rfl

theorem content_store (q : IoQueue nproc) (r : Nat) (request : IoRequest nproc) :
    (q.store r request).content =
      Function.update q.content r (some (request.pcb, request.execution_time)) := by
  funext a
  rw [content, heap_store, Function.update_apply]
  split <;> rfl

theorem empty_holds : (empty : IoQueue nproc).Holds [] [] :=
  ⟨⟨rfl, List.nodup_nil, rfl⟩, rfl, by simp [empty]⟩

theorem Holds.length_eq (h : q.Holds rs xs) : rs.length = xs.length := by
  have := congrArg List.length h.content
  rwa [List.length_map, List.length_map] at this

/-- A queued request is in memory. -/
theorem Holds.heap_eq (h : q.Holds rs xs) (hr : r ∈ rs) : ∃ request, q.heap r = some request :=
  Option.ne_none_iff_exists'.mp ((h.allocated r).mp hr)

/-! ## submit_io_request -/

/-- A request that is not linked yet. -/
theorem Holds.alloc (h : q.Holds rs xs) (hr : q.heap r = none) (request : IoRequest nproc) :
    r ∉ rs ∧ IsFifo (q.store r request).next q.io_queue_head q.io_queue_tail rs ∧
      (rs ++ [r]).map (q.store r request).content =
        (xs ++ [(request.pcb, request.execution_time)]).map some ∧
      ∀ a, a ∈ rs ++ [r] ↔ (q.store r request).heap a ≠ none := by
  have hmem : r ∉ rs := fun hmem => (h.allocated r).mp hmem hr
  refine ⟨hmem, ?_, ?_, ?_⟩
  · apply h.fifo.congr
    intro a ha
    rw [next_store, Function.update_of_ne]
    rintro rfl
    exact hmem ha
  · rw [content_store, List.map_append, h.fifo.nodup.map_update, if_neg hmem, h.content]
    simp
  · intro a
    rw [List.mem_append, List.mem_singleton, heap_store, h.allocated]
    split
    case isTrue har => simp [har]
    case isFalse har => simp [har]

/-- A request goes behind the others. -/
theorem submitIoRequest_holds (h : q.Holds rs xs) (hr : q.heap r = none) (pcb : Fin nproc)
    (time : UInt32) : ∃ q', q.submitIoRequest r pcb time = some q' ∧
      q'.Holds (rs ++ [r]) (xs ++ [(pcb, time)]) := by
  obtain ⟨hmem, hfifo, hcontent, hallocated⟩ := h.alloc hr ⟨pcb, time, none⟩
  have hnull : (q.store r ⟨pcb, time, none⟩).next r = none := by
    rw [next_store, Function.update_self]
  unfold submitIoRequest
  dsimp only
  rw [show (q.store r ⟨pcb, time, none⟩).io_queue_tail = q.io_queue_tail from rfl]
  cases htail : q.io_queue_tail with
  | none =>
    rw [htail] at hfifo
    obtain rfl := hfifo.eq_nil
    exact ⟨_, rfl, isFifo_singleton hnull, hcontent, hallocated⟩
  | some tail =>
    rw [htail] at hfifo
    obtain ⟨htail, hfifo⟩ := hfifo.push hmem hnull
    have hne : tail ≠ r := fun heq => hmem (heq ▸ htail)
    obtain ⟨request, hrequest⟩ := h.heap_eq htail
    have hold : (q.store r ⟨pcb, time, none⟩).heap tail = some request := by
      rw [heap_store, if_neg hne, hrequest]
    dsimp only
    rw [hold, Option.bind_eq_bind, Option.bind_some]
    refine ⟨_, rfl, ?_, ?_, ?_⟩
    · rwa [← next_store _ _ { request with next := some r }] at hfifo
    · -- only the link of the last request has changed
      have hsame : some (request.pcb, request.execution_time) =
          (q.store r ⟨pcb, time, none⟩).content tail := by
        rw [content, hold, Option.map_some]
      rw [← hcontent]
      refine congrArg (List.map · _) ((content_store ..).trans ?_)
      rw [hsame, Function.update_eq_self]
    · intro a
      rw [hallocated]
      refine Iff.trans ?_ (not_congr (iff_of_eq (congrArg (· = none) (heap_store ..)))).symm
      split
      case isTrue hat => simp [hat, hold]
      case isFalse => rfl

/-! ## simulate_io -/

theorem simulateIo_empty (h : q.Holds rs []) : q.simulateIo = some (none, q) := by
  have hnil : rs = [] := List.eq_nil_of_length_eq_zero h.length_eq
  subst hnil
  rw [simulateIo, h.fifo.isList.head_eq, List.head?_nil]

/-- The request at the head. -/
theorem Holds.head {pcb : Fin nproc} {time : UInt32} (h : q.Holds rs ((pcb, time) :: xs)) :
    ∃ r rest link, rs = r :: rest ∧ q.io_queue_head = some r ∧
      q.heap r = some ⟨pcb, time, link⟩ ∧ rest.map q.content = xs.map some := by
  have hcontent := h.content
  cases hrs : rs with
  | nil => simp [hrs] at hcontent
  | cons r rest =>
    rw [hrs, List.map_cons, List.map_cons] at hcontent
    obtain ⟨hr, hrest⟩ := List.cons.inj hcontent
    obtain ⟨⟨pcb', time', link⟩, hrequest, hvalue⟩ := Option.map_eq_some_iff.mp hr
    obtain ⟨rfl, rfl⟩ := Prod.mk.inj hvalue
    exact ⟨r, rest, link, rfl, by rw [h.fifo.isList.head_eq, hrs]; rfl, hrequest, hrest⟩

/-- A tick of the request at the head. -/
theorem simulateIo_wait {pcb : Fin nproc} {time : UInt32} (h : q.Holds rs ((pcb, time) :: xs))
    (htime : 0 < time) :
    ∃ q', q.simulateIo = some (none, q') ∧ q'.Holds rs ((pcb, time - 1) :: xs) := by
  obtain ⟨r, rest, link, rfl, hhead, hrequest, hrest⟩ := h.head
  obtain ⟨hr, hnodup⟩ := List.nodup_cons.mp h.fifo.nodup
  refine ⟨q.store r ⟨pcb, time - 1, link⟩, ?_, ?_, ?_, ?_⟩
  · rw [simulateIo, hhead]
    dsimp only
    rw [hrequest, Option.bind_eq_bind, Option.bind_some, if_neg (UInt32.not_le.mpr htime)]
  · -- the link stays as it was
    have hlink : link = q.next r := by rw [next, hrequest, Option.bind_some]
    rw [next_store, hlink, Function.update_eq_self]
    exact h.fifo
  · rw [content_store, List.map_cons, Function.update_self, hnodup.map_update, if_neg hr,
      hrest]
    rfl
  · intro a
    rw [h.allocated, heap_store]
    split
    case isTrue har => simp [har, hrequest]
    case isFalse => rfl

/-- The request at the head is over, and is freed. -/
theorem simulateIo_complete {pcb : Fin nproc} (h : q.Holds rs ((pcb, 0) :: xs)) :
    ∃ q', q.simulateIo = some (some pcb, q') ∧ q'.Holds rs.tail xs := by
  obtain ⟨r, rest, link, rfl, hhead, hrequest, hrest⟩ := h.head
  have hr : r ∉ rest := (List.nodup_cons.mp h.fifo.nodup).1
  have hlink : q.next r = link := by rw [next, hrequest, Option.bind_some]
  have hfifo := h.fifo.pop
  rw [hlink] at hfifo
  let freed : IoQueue nproc :=
    { (q.store r ⟨pcb, 0 - 1, link⟩).free r with
      io_queue_head := link
      io_queue_tail := if link.isNone then none else q.io_queue_tail }
  have hheap : ∀ a, freed.heap a = if a = r then none else q.heap a := by
    intro a
    refine (Function.update_apply ..).trans ?_
    split
    case isTrue => rfl
    case isFalse har => rw [heap_store, if_neg har]
  -- the requests that stay are as they were
  have hsame : ∀ a ∈ rest, freed.heap a = q.heap a := by
    intro a ha
    rw [hheap, if_neg]
    rintro rfl
    exact hr ha
  refine ⟨freed, ?_, hfifo.congr fun a ha => ?_, ?_, fun a => ?_⟩
  · rw [simulateIo, hhead]
    dsimp only
    rw [hrequest, Option.bind_eq_bind, Option.bind_some, if_pos (UInt32.le_refl 0)]
    rfl
  · rw [next, hsame a ha, next]
  · rw [← hrest]
    exact List.map_congr_left fun a ha => by rw [content, hsame a ha, content]
  · rw [hheap]
    have hall := h.allocated a
    rw [List.mem_cons] at hall
    split
    case isTrue har => simp [har, hr]
    case isFalse har => simpa [har] using hall

/-! ## print_gantt_line -/

theorem requestsFrom_eq {link : Option Nat} (hlist : IsList q.next link rs)
    (hcontent : rs.map q.content = xs.map some) {fuel : Nat} (hfuel : xs.length ≤ fuel) :
    q.requestsFrom fuel link = some (xs.map Prod.fst) := by
  induction xs generalizing link rs fuel with
  | nil =>
    obtain rfl := List.map_eq_nil_iff.mp hcontent
    rw [hlist.head_eq, List.head?_nil, requestsFrom]
    rfl
  | cons x xs ih =>
    obtain ⟨r, rest, rfl, hr, hrest⟩ := List.map_eq_cons_iff.mp hcontent
    obtain ⟨request, hrequest, rfl⟩ := Option.map_eq_some_iff.mp hr
    rw [List.length_cons] at hfuel
    obtain ⟨fuel, rfl⟩ : ∃ n, fuel = n + 1 := ⟨fuel - 1, by omega⟩
    have hnext : q.next r = request.next := by rw [next, hrequest, Option.bind_some]
    have htail := ih (hnext ▸ hlist.tail) hrest (Nat.le_of_succ_le_succ hfuel)
    rw [hlist.1, requestsFrom, hrequest, Option.bind_eq_bind, Option.bind_some, htail]
    rfl

end

end IoQueue

/-! ## Along a run -/

/-- The `execution_time` that `simulate_process` submits a request of this process with. -/
def Sim.submits (s : Sim ncpu nproc) (pcb : Fin nproc) : Option UInt32 := do
  let op ← s.op pcb
  if op.type = .cpu ∧ ¬ op.time > 0 then
    let op ← (s.incPc pcb).op pcb
    if op.type = .io then some op.time else none
  else none

/-- What a turn does to the queue in memory. `malloc` returns `r`, should it be called. -/
def IoQueue.turn (q : IoQueue nproc) (s : Sim ncpu nproc) (r : Nat) :
    Turn ncpu → Option (IoQueue nproc)
  | .supervisor =>
    match s.supervisor with
    | .cpus n =>
      if h : n < ncpu then
        match (s.simulator_cpu_data ⟨n, h⟩).current with
        | some pcb =>
          match s.submits pcb with
          | some execution_time => q.submitIoRequest r pcb execution_time
          | none => some q
        | none => some q
      else some q
    | .io => q.simulateIo.map Prod.snd
    | _ => some q
  | .thread _ | .spurious _ => some q

/-- A run of the simulator with its queue in memory. `malloc` returns no address that is in use. -/
inductive QueueRun (cfg : Config) (ok : Sim ncpu nproc → Turn ncpu → Bool) :
    Sim ncpu nproc → List (Event ncpu nproc) → IoQueue nproc → Prop
  | initial {s} : s.Initial → QueueRun cfg ok s [] .empty
  | step {s s' es es' t q q' r} : QueueRun cfg ok s es q → ok s t = true →
      s.next cfg t = some (s', es') → q.heap r = none → q.turn s r t = some q' →
      QueueRun cfg ok s' (es ++ es') q'

section
variable {cfg : Config} {ok : Sim ncpu nproc → Turn ncpu → Bool}
variable {s s' : Sim ncpu nproc} {es es' : List (Event ncpu nproc)} {t : Turn ncpu}
variable {q q' : IoQueue nproc} {r : Nat} {rs : List Nat} {p : Fin nproc}

/-- What a tick of a process does to the abstract queue. -/
theorem tick_io_queue {c : Fin ncpu} (h : s.simulateProcess c p = some (s', es)) :
    s'.io_queue = match s.submits p with
      | some time => s.io_queue ++ [(p, time)]
      | none => s.io_queue := by
  have htick := (simulateProcess_tick h).1
  have hnext := op_incPc s p
  change s'.account.io_queue = _
  generalize s'.account = a, storedEvent es = event at htick
  rw [Sim.submits]
  cases htick with
  | burst hop htype htime _ =>
    rw [show s.op p = _ from hop, Option.bind_eq_bind, Option.bind_some,
      if_neg fun hc => hc.2 htime]
    rfl
  | request hop htype htime hop' htype' =>
    rw [show s.op p = _ from hop, Option.bind_eq_bind, Option.bind_some,
      if_pos ⟨htype, by simp [htime]⟩, hnext, show (s.ops p)[s.pc p + 1]? = _ from hop',
      Option.bind_some, if_pos htype']
    rfl
  | exit hop htype htime hop' htype' | nextBurst hop htype htime hop' htype' =>
    rw [show s.op p = _ from hop, Option.bind_eq_bind, Option.bind_some,
      if_pos ⟨htype, by simp [htime]⟩, hnext, show (s.ops p)[s.pc p + 1]? = _ from hop',
      Option.bind_some, if_neg (by simp [htype'])]
    rfl
  | blocked hop htype =>
    rw [show s.op p = _ from hop, Option.bind_eq_bind, Option.bind_some,
      if_neg fun hc => htype hc.1]
    rfl

/-- `simulate_io` finds the same request at the head of both queues. -/
theorem simulateIo_holds (h : s.simulateIo = some s') (hq : q.Holds rs s.io_queue) :
    ∃ q' rs', q.simulateIo = some (woken s', q') ∧ q'.Holds rs' s'.io_queue := by
  have hsection := simulateIo_io h
  change ∃ q' rs', _ ∧ IoQueue.Holds q' rs' s'.account.io_queue
  change q.Holds rs s.account.io_queue at hq
  generalize s'.account = a, woken s' = process at hsection
  cases hsection with
  | none hnil =>
    rw [hnil] at hq
    exact ⟨q, rs, IoQueue.simulateIo_empty hq, hnil ▸ hq⟩
  | wait hcons htime =>
    rw [hcons] at hq
    obtain ⟨q', hio, hq'⟩ := IoQueue.simulateIo_wait hq htime
    exact ⟨q', rs, hio, hq'⟩
  | complete hcons _ =>
    rw [hcons] at hq
    obtain ⟨q', hio, hq'⟩ := IoQueue.simulateIo_complete hq
    exact ⟨q', rs.tail, hio, hq'⟩

/-- A turn does the same to both queues. -/
theorem turn_holds (h : s.next cfg t = some (s', es)) (hq : q.Holds rs s.io_queue)
    (hr : q.heap r = none) : ∃ q' rs', q.turn s r t = some q' ∧ q'.Holds rs' s'.io_queue ∧
      (t = .supervisor → s.supervisor = .io → q.simulateIo = some (woken s', q')) := by
  -- a turn that leaves the account alone
  have hquiet : Quiet s s' es → q.Holds rs s'.io_queue := by
    rintro ⟨haccount, -⟩
    rwa [show s'.io_queue = s.io_queue from congrArg Account.io_queue haccount]
  by_cases ht : t = .supervisor
  · subst ht
    rw [IoQueue.turn.eq_def]
    dsimp only
    cases hsup : s.supervisor
    case cpus n =>
      refine (supervisorStep_cpus h hsup).elim ?_ ?_
      · rintro ⟨c, p, rfl, hp, hprocess⟩
        have hio := tick_io_queue hprocess
        dsimp only
        rw [dif_pos c.isLt, hp]
        dsimp only
        cases hsubmits : s.submits p with
        | none =>
          rw [hsubmits] at hio
          exact ⟨q, rs, rfl, by rwa [hio], by simp⟩
        | some time =>
          rw [hsubmits] at hio
          obtain ⟨q', hsubmit, hq'⟩ := IoQueue.submitIoRequest_holds hq hr p time
          exact ⟨q', _, hsubmit, by rwa [hio], by simp⟩
      · rintro ⟨hnone, hs'⟩
        dsimp only
        refine ⟨q, rs, ?_, hquiet hs', by simp⟩
        split
        · rw [hnone _ rfl]
        · rfl
    case io =>
      obtain ⟨q', rs', hio, hq'⟩ := simulateIo_holds (supervisorStep_io h hsup).1 hq
      exact ⟨q', rs', by rw [hio]; rfl, hq', fun _ _ => hio⟩
    all_goals
      have hs' := supervisorStep_quiet h (by simp [hsup]) (by simp [hsup])
      exact ⟨q, rs, rfl, hquiet hs', by simp⟩
  · have hturn : q.turn s r t = some q := by
      cases t with
      | supervisor => exact absurd rfl ht
      | thread _ | spurious _ => rfl
    exact ⟨q, rs, hturn, hquiet (next_quiet h ht), fun hsupervisor => absurd hsupervisor ht⟩

theorem QueueRun.holds (h : QueueRun cfg ok s es q) : ∃ rs, q.Holds rs s.io_queue := by
  induction h with
  | initial hs => exact ⟨[], hs.io_queue ▸ IoQueue.empty_holds⟩
  | step _ _ hnext hr hturn ih =>
    obtain ⟨rs, hq⟩ := ih
    obtain ⟨q', rs', hturn', hq', -⟩ := turn_holds hnext hq hr
    obtain rfl := Option.some_inj.mp (hturn.symm.trans hturn')
    exact ⟨rs', hq'⟩

/-- There is always an address that is free. -/
theorem IoQueue.Holds.exists_free {xs : List (Fin nproc × UInt32)} (hq : q.Holds rs xs) :
    ∃ r, q.heap r = none := by
  obtain ⟨r, hr⟩ := Infinite.exists_notMem_finset rs.toFinset
  rw [List.mem_toFinset, hq.allocated, not_not] at hr
  exact ⟨r, hr⟩

/-- Every run of the simulator is a run with the queue in memory. -/
theorem Sim.Run.queueRun (h : Sim.Run cfg ok s es) : ∃ q, QueueRun cfg ok s es q := by
  induction h with
  | initial hs => exact ⟨.empty, .initial hs⟩
  | step _ hok hnext ih =>
    obtain ⟨q, hrun⟩ := ih
    obtain ⟨rs, hq⟩ := hrun.holds
    obtain ⟨r, hr⟩ := hq.exists_free
    obtain ⟨q', -, hturn, -⟩ := turn_holds hnext hq hr
    exact ⟨q', hrun.step hok hnext hr hturn⟩

/-- In every run, whatever addresses `malloc` returns, the requests in memory are those of the
simulator's queue and nothing else, `print_gantt_line` walks over them in order, and the next
turn follows no pointer that is null or freed and wakes up the process of the oldest request. -/
theorem io_queue_refines (h : QueueRun cfg ok s es q) :
    (∃ rs, q.Holds rs s.io_queue) ∧
    q.requestsFrom s.io_queue.length q.io_queue_head = some s.ganttLine.requests ∧
    ∀ t s' es' r, s.next cfg t = some (s', es') → q.heap r = none →
      ∃ q' rs', q.turn s r t = some q' ∧ q'.Holds rs' s'.io_queue ∧
        (t = .supervisor → s.supervisor = .io → q.simulateIo = some (woken s', q')) := by
  obtain ⟨rs, hq⟩ := h.holds
  refine ⟨⟨rs, hq⟩, ?_, ?_⟩
  · exact IoQueue.requestsFrom_eq hq.fifo.isList hq.content (Nat.le_refl _)
  · intro t s' es' r hnext hr
    exact turn_holds hnext hq hr

/-- Process 0 has submitted its first request. -/
theorem io_queue_refines_yielding :
    ∃ (s : Sim 1 processCount) (es : List (Event 1 processCount)) (q : IoQueue processCount),
      QueueRun fifo (fun _ _ => true) s es q ∧ q.requestsFrom 1 q.io_queue_head = some [0] := by
  have hexec : (startSimulator.exec fifo (fun _ _ => true) [] yieldingTurns).map
      (fun r => r.1.io_queue.map Prod.fst) = some [0] := by decide +kernel
  obtain ⟨s, es, hs, hio⟩ := run_of_exec_map (f := fun s => s.io_queue.map Prod.fst) hexec
  obtain ⟨q, hq⟩ := hs.queueRun
  have hlength : s.io_queue.length = 1 := by
    have := congrArg List.length hio
    rwa [List.length_map] at this
  have hwalk := (io_queue_refines hq).2.1
  rw [hlength, show s.ganttLine.requests = [0] from hio] at hwalk
  exact ⟨s, es, q, hq, hwalk⟩

end

end ECE3056.Scheduling
