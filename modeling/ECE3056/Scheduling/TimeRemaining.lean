import ECE3056.Scheduling.ExactService

/-!
# Is the LRTF key the true remaining time?

A burst of time `t` takes `t + 1` ticks: the last one finds that it is over. After
each tick and each completed request `time_remaining` is set to `t + 1` for the
operation that `pc` points to. The table `processes[]` starts it at `t`, so until its
first tick a process is ranked one below its true time.
-/

namespace ECE3056.Scheduling

open LinkedList (Reaches)

variable {ncpu nproc : Nat} {cfg : Config} {s s' : Sim ncpu nproc} {p : Fin nproc}
variable {es es' : List (Event ncpu nproc)}

/-! ## How long a burst takes -/

/-- The number of ticks of `p` until its `pc` moves. -/
inductive LeavesAfter (p : Fin nproc) : Sim ncpu nproc → Nat → Prop
  | leaves {s s' c es} : s.simulateProcess c p = some (s', es) → s'.pc p ≠ s.pc p →
      LeavesAfter p s 1
  | stays {s s' c es n} : s.simulateProcess c p = some (s', es) → s'.pc p = s.pc p →
      LeavesAfter p s' n → LeavesAfter p s (n + 1)

/-- A tick counts a burst down, moves `pc` when it is over, and does nothing outside of one. -/
theorem tick_of_op {c : Fin ncpu} {op : Op} (htick : s.simulateProcess c p = some (s', es))
    (hop : s.op p = some op) :
    (op.type = .cpu ∧ 0 < op.time ∧ s'.account = s.account.countDown p op) ∨
      (op.type = .cpu ∧ op.time = 0 ∧ s'.pc p = s.pc p + 1) ∨
      (op.type ≠ .cpu ∧ s'.account = s.account) := by
  obtain ⟨hacc, -⟩ := simulateProcess_tick htick
  generalize ha : s'.account = a', storedEvent es = event at hacc
  have hpc : s'.pc p = a'.pc p := congrArg (fun a => a.pc p) ha
  have hsame : ∀ {op₁ : Op}, s.account.op p = some op₁ → op₁ = op := fun h =>
    Option.some_inj.mp (h.symm.trans hop)
  cases hacc with
  | burst h htype htime =>
    obtain rfl := hsame h
    exact .inl ⟨htype, htime, rfl⟩
  | request h htype hzero =>
    obtain rfl := hsame h
    exact .inr (.inl ⟨htype, hzero, hpc.trans (Function.update_self ..)⟩)
  | exit h htype hzero =>
    obtain rfl := hsame h
    exact .inr (.inl ⟨htype, hzero, hpc.trans (Function.update_self ..)⟩)
  | nextBurst h htype hzero =>
    obtain rfl := hsame h
    exact .inr (.inl ⟨htype, hzero, hpc.trans (Function.update_self ..)⟩)
  | blocked h htype =>
    obtain rfl := hsame h
    exact .inr (.inr ⟨htype, rfl⟩)

theorem op_of_leavesAfter {n : Nat} (h : LeavesAfter p s n) : ∃ op, s.op p = some op := by
  cases h with
  | leaves htick | stays htick =>
    obtain ⟨op, hop, -⟩ := Option.bind_eq_some_iff.mp htick
    exact ⟨op, hop⟩

/-- Only a process in a burst leaves it. -/
theorem cpu_of_leavesAfter {op : Op} {n : Nat} (h : LeavesAfter p s n) (hop : s.op p = some op) :
    op.type = .cpu := by
  induction h with
  | leaves htick hpc =>
    rcases tick_of_op htick hop with ⟨htype, -⟩ | ⟨htype, -⟩ | ⟨-, hacc⟩
    · exact htype
    · exact htype
    · exact absurd (congrArg (fun a => a.pc p) hacc) hpc
  | @stays s s' c es n htick hpc _ ih =>
    rcases tick_of_op htick hop with ⟨htype, -⟩ | ⟨htype, -⟩ | ⟨-, hacc⟩
    · exact htype
    · exact htype
    · refine ih ?_
      show s'.account.op p = some op
      rw [hacc]
      exact hop

theorem toNat_sub_one {time : UInt32} (h : 0 < time) : (time - 1).toNat + 1 = time.toNat := by
  have hpos : 0 < time.toNat := UInt32.lt_iff_toNat_lt.mp h
  have hsub := UInt32.toNat_sub_of_le time 1 (UInt32.le_iff_toNat_le.mpr hpos)
  rw [hsub, show (1 : UInt32).toNat = 1 from rfl]
  omega

/-- A burst of time `t` is left by the tick number `t + 1`. -/
theorem leavesAfter_eq {op : Op} {n : Nat} (h : LeavesAfter p s n) (hop : s.op p = some op)
    (htype : op.type = .cpu) : n = op.time.toNat + 1 := by
  induction h generalizing op with
  | leaves htick hpc =>
    rcases tick_of_op htick hop with ⟨-, -, hacc⟩ | ⟨-, hzero, -⟩ | ⟨hne, -⟩
    · exact absurd (congrArg (fun a => a.pc p) hacc) hpc
    · rw [hzero]
      rfl
    · exact absurd htype hne
  | @stays s s' c es n htick hpc _ ih =>
    rcases tick_of_op htick hop with ⟨-, htime, hacc⟩ | ⟨-, -, hmoved⟩ | ⟨hne, -⟩
    · have hop' : s'.account.op p = some { op with time := op.time - 1 } := by
        rw [hacc]
        exact Account.op_countDown hop
      rw [ih hop' htype, toNat_sub_one htime]
    · omega
    · exact absurd htype hne

theorem leavesAfter_of_op (c : Fin ncpu) {op op' : Op} (hop : s.op p = some op)
    (htype : op.type = .cpu) (hop' : (s.ops p)[s.pc p + 1]? = some op') :
    LeavesAfter p s (op.time.toNat + 1) := by
  obtain ⟨k, hk⟩ : ∃ k, op.time.toNat = k := ⟨_, rfl⟩
  induction k generalizing s op with
  | zero =>
    obtain ⟨s', es, htick⟩ := simulateProcess_returns c hop hop'
    rw [hk]
    rcases tick_of_op htick hop with ⟨-, htime, -⟩ | ⟨-, -, hmoved⟩ | ⟨hne, -⟩
    · have hpos := UInt32.lt_iff_toNat_lt.mp htime
      rw [hk] at hpos
      exact absurd hpos (lt_irrefl _)
    · exact .leaves htick (by omega)
    · exact absurd htype hne
  | succ k ih =>
    obtain ⟨s', es, htick⟩ := simulateProcess_returns c hop hop'
    rcases tick_of_op htick hop with ⟨-, htime, hacc⟩ | ⟨-, hzero, -⟩ | ⟨hne, -⟩
    · have hop₁ : s'.account.op p = some { op with time := op.time - 1 } := by
        rw [hacc]
        exact Account.op_countDown hop
      have hpc : s'.pc p = s.pc p := congrArg (fun a => a.pc p) hacc
      have hops : (s'.ops p)[s'.pc p + 1]? = some op' := by
        rw [hpc, show s'.ops p = _ from congrArg (fun a => a.ops p) hacc, Account.ops_countDown]
        exact (List.getElem?_set_ne (Nat.ne_of_lt (Nat.lt_succ_self _))).trans hop'
      have hrest := ih hop₁ htype hops (by have := toNat_sub_one htime; dsimp only; omega)
      rw [← toNat_sub_one htime]
      exact .stays htick hpc hrest
    · rw [hzero] at hk
      simp at hk
    · exact absurd htype hne

/-! ## The key over a run -/

/-- The process has had a tick. -/
def Seen (p : Fin nproc) (es : List (Event ncpu nproc)) : Prop := ∃ type, .simulated p type ∈ es

/-- Process `p` is in the ready list. -/
def Sim.Ready (s : Sim ncpu nproc) (p : Fin nproc) : Prop :=
  Reaches s.sched.ready.next s.sched.ready.head p

/-- The keys in a run from `s₀`: after the first tick they are the current operation's time and
one more, before it they are as they were. -/
structure Keyed (s₀ : Account nproc) (a : Account nproc) (es : List (Event ncpu nproc)) : Prop where
  types : ∀ p, (a.ops p).map Op.type = (s₀.ops p).map Op.type
  small : ∀ p, ∀ op ∈ a.ops p, op.time.toNat + 1 < 2 ^ 32
  queued : ∀ p, p ∈ a.io_queue.map Prod.fst → Seen p es
  unseen : ∀ p, ¬ Seen p es → a.ops p = s₀.ops p ∧ a.pc p = 0 ∧
    a.time_remaining p = s₀.time_remaining p
  seen : ∀ p, Seen p es → Nonempty (Fin ncpu) ∧ ∃ op, a.op p = some op ∧
    a.time_remaining p = op.time + 1

namespace Keyed

variable {a₀ a a' : Account nproc}

theorem seen_append (q : Fin nproc) : Seen q (es ++ es') ↔ Seen q es ∨ Seen q es' := by
  simp only [Seen, List.mem_append, exists_or]

theorem quiet (h : Keyed a₀ a es) (hes : ∀ p type, .simulated p type ∉ es') :
    Keyed a₀ a (es ++ es') := by
  have hseen : ∀ q, Seen q (es ++ es') ↔ Seen q es := fun q => by
    rw [seen_append]
    exact or_iff_left fun ⟨type, hmem⟩ => hes q type hmem
  refine ⟨h.types, h.small, fun q hq => ?_, fun q hq => ?_, fun q hq => ?_⟩
  · rw [hseen]
    exact h.queued q hq
  · rw [hseen] at hq
    exact h.unseen q hq
  · rw [hseen] at hq
    exact h.seen q hq

variable {event : Option CpuState}

theorem time_of_ne (htick : a.Tick p a' event) {q : Fin nproc} (hq : q ≠ p) :
    a'.time_remaining q = a.time_remaining q := by
  cases htick with
  | burst | request | exit | nextBurst => exact Function.update_of_ne hq ..
  | blocked => rfl

theorem queue_of_tick (htick : a.Tick p a' event) {q : Fin nproc}
    (hq : q ∈ a'.io_queue.map Prod.fst) : q ∈ a.io_queue.map Prod.fst ∨ q = p := by
  cases htick with
  | burst | exit | nextBurst | blocked => exact .inl hq
  | request =>
    rw [Account.submit, List.map_append, List.mem_append] at hq
    exact hq.imp_right List.mem_singleton.mp

theorem op_advance {op : Op} (hop : (a.ops p)[a.pc p + 1]? = some op) :
    (a.advance p op).op p = some op ∧ (a.advance p op).time_remaining p = op.time + 1 := by
  simp [Account.op, Account.advance, hop]

theorem small_tick (h : Keyed a₀ a es) (htick : a.Tick p a' event) (q : Fin nproc) :
    ∀ op ∈ a'.ops q, op.time.toNat + 1 < 2 ^ 32 := by
  cases htick with
  | request | exit | nextBurst | blocked => exact h.small q
  | @burst op _ hop _ htime =>
    by_cases hq : q = p
    · subst hq
      rw [Account.ops_countDown]
      intro op' hmem
      rcases List.mem_or_eq_of_mem_set hmem with hmem | rfl
      · exact h.small q op' hmem
      · have hold := h.small q op (List.mem_of_getElem? hop)
        have hsub := toNat_sub_one htime
        dsimp only
        omega
    · rw [show (a.countDown p op).ops q = a.ops q from Function.update_of_ne hq ..]
      exact h.small q

/-- The key after a tick of `p`, which had a key before or stood at its first burst. -/
theorem key_tick (h : Keyed a₀ a es) (htick : a.Tick p a' event)
    (hshape : ∀ p, WellShaped ((a₀.ops p).map Op.type) = true) :
    ∃ op, a'.op p = some op ∧ a'.time_remaining p = op.time + 1 := by
  cases htick with
  | burst hop => exact ⟨_, Account.op_countDown hop, Function.update_self ..⟩
  | request _ _ _ hop' | exit _ _ _ hop' | nextBurst _ _ _ hop' =>
    exact ⟨_, op_advance hop'⟩
  | blocked hop htype =>
    by_cases hseen : Seen p es
    · exact (h.seen p hseen).2
    · obtain ⟨hops, hpc, -⟩ := h.unseen p hseen
      have hhead := WellShaped.head (hshape p)
      rw [← hops, ← hpc] at hhead
      have htype' := (Account.opType_eq hop).symm.trans hhead
      exact absurd (Option.some_inj.mp htype') htype

theorem tick [Nonempty (Fin ncpu)] (h : Keyed a₀ a es) (htick : a.Tick p a' event)
    (hshape : ∀ p, WellShaped ((a₀.ops p).map Op.type) = true)
    (hes : ∃ type, ∀ q type', .simulated q type' ∈ es' ↔ q = p ∧ type' = type) :
    Keyed a₀ a' (es ++ es') := by
  obtain ⟨type, hes⟩ := hes
  have hseen : ∀ q, Seen q (es ++ es') ↔ Seen q es ∨ q = p := fun q => by
    rw [seen_append]
    refine or_congr_right ⟨fun ⟨type', hmem⟩ => ((hes q type').mp hmem).1, fun hq => ?_⟩
    exact ⟨type, (hes q type).mpr ⟨hq, rfl⟩⟩
  refine ⟨fun q => (htick.types q).trans (h.types q), h.small_tick htick, fun q hq => ?_,
    fun q hq => ?_, fun q hq => ?_⟩
  · rw [hseen]
    exact (queue_of_tick htick hq).imp_left (h.queued q)
  · rw [hseen, not_or] at hq
    obtain ⟨hops, hpc⟩ := htick.keeps hq.2
    rw [hops, hpc, time_of_ne htick hq.2]
    exact h.unseen q hq.1
  · rw [hseen] at hq
    refine ⟨inferInstance, ?_⟩
    by_cases hqp : q = p
    · rw [hqp]
      exact h.key_tick htick hshape
    · obtain ⟨hops, hpc⟩ := htick.keeps hqp
      rw [Account.op, hops, hpc, time_of_ne htick hqp]
      exact (h.seen q (hq.resolve_right hqp)).2

theorem io {completed : Option (Fin nproc)} (h : Keyed a₀ a es)
    (hio : a.Io a' completed) : Keyed a₀ a' es := by
  cases hio with
  | none => exact h
  | @wait p time rest hcons =>
    refine ⟨h.types, h.small, fun q hq => h.queued q ?_, h.unseen, h.seen⟩
    rw [hcons]
    exact hq
  | @complete p rest op hcons hop =>
    have hp : Seen p es := h.queued p (by rw [hcons]; exact List.mem_cons_self ..)
    refine ⟨h.types, h.small, fun q hq => h.queued q ?_, fun q hq => ?_, fun q hq => ?_⟩
    · rw [hcons]
      exact List.mem_cons_of_mem _ hq
    · have hqp : q ≠ p := fun heq => hq (heq ▸ hp)
      obtain ⟨hops, hpc, htime⟩ := h.unseen q hq
      exact ⟨hops, (Function.update_of_ne hqp ..).trans hpc,
        (Function.update_of_ne hqp ..).trans htime⟩
    · refine ⟨(h.seen p hp).1, ?_⟩
      by_cases hqp : q = p
      · rw [hqp]
        exact ⟨op, op_advance hop⟩
      · obtain ⟨-, op', hop', htime'⟩ := h.seen q hq
        refine ⟨op', ?_, (Function.update_of_ne hqp ..).trans htime'⟩
        rw [← hop']
        show (a.ops q)[Function.update a.pc p (a.pc p + 1) q]? = (a.ops q)[a.pc q]?
        rw [Function.update_of_ne hqp]

end Keyed

theorem Keyed.next {a₀ : Account nproc} {t : Turn ncpu} (h : Keyed a₀ s.account es)
    (hshape : ∀ p, WellShaped ((a₀.ops p).map Op.type) = true)
    (hnext : s.next cfg t = some (s', es')) : Keyed a₀ s'.account (es ++ es') := by
  rcases next_cases hnext with ⟨hacc, hes⟩ | ⟨c, p, htick⟩ | ⟨hio, rfl⟩
  · rw [hacc]
    exact h.quiet hes
  · have : Nonempty (Fin ncpu) := ⟨c⟩
    obtain ⟨hacc, hes⟩ := simulateProcess_tick htick
    exact h.tick hacc hshape hes
  · rw [List.append_nil]
    exact h.io (simulateIo_io hio)

theorem exec_keyed {a₀ : Account nproc} {ok : Sim ncpu nproc → Turn ncpu → Bool}
    (hshape : ∀ p, WellShaped ((a₀.ops p).map Op.type) = true) {ts : List (Turn ncpu)}
    (h : Keyed a₀ s.account es) (hexec : s.exec cfg ok es ts = some (s', es')) :
    Keyed a₀ s'.account es' := by
  induction ts generalizing s es with
  | nil =>
    obtain ⟨rfl, rfl⟩ := Prod.mk.inj (Option.some_inj.mp hexec)
    exact h
  | cons t ts ih =>
    rw [Sim.exec] at hexec
    split at hexec
    · split at hexec
      · rename_i s₁ es₁ hnext
        exact ih (h.next hshape hnext) hexec
      · simp at hexec
    · simp at hexec

/-- The keys of the ready list are the true remaining times. -/
def KeysTrue (s : Sim ncpu nproc) : Prop :=
  ∀ p, s.Ready p → LeavesAfter p s (s.sched.time_remaining p).toNat

/-- The bursts that `processes[]` starts with are the `time_remaining` it starts with. -/
theorem processes_time (p : Fin processCount) :
    (processes p).1.head? = some ⟨.cpu, (processes p).2⟩ := by
  revert p
  decide

theorem processes_small (p : Fin processCount) :
    ∀ op ∈ (processes p).1, op.time.toNat + 1 < 2 ^ 32 := by
  revert p
  decide

/-- The simulator has been started with the table of `process.c`. -/
structure Started (s : Sim ncpu processCount) : Prop where
  initial : s.Initial
  ops : ∀ p, s.ops p = (processes p).1
  time : ∀ p, s.sched.time_remaining p = (processes p).2

theorem Started.keyed {s : Sim ncpu processCount} (h : Started s) :
    Keyed s.account s.account ([] : List (Event ncpu processCount)) where
  types _ := rfl
  small p := by
    rw [show s.account.ops p = (processes p).1 from h.ops p]
    exact processes_small p
  queued p hp := by
    rw [show s.account.io_queue = [] from h.initial.io_queue] at hp
    simp at hp
  unseen p _ := ⟨rfl, h.initial.pc p, rfl⟩
  seen p hp := by
    obtain ⟨type, hmem⟩ := hp
    simp at hmem

/-- In every state of every run, a process has its true key exactly if it has been simulated
before and stands at an `OP_CPU`. -/
theorem leavesAfter_key_iff {s₀ s : Sim ncpu processCount}
    {es : List (Event ncpu processCount)} (h₀ : Started s₀) (h : Keyed s₀.account s.account es)
    (p : Fin processCount) :
    LeavesAfter p s (s.sched.time_remaining p).toNat ↔ Seen p es ∧ s.opType p = some .cpu := by
  constructor
  · intro hleaves
    obtain ⟨op, hop⟩ := op_of_leavesAfter hleaves
    have hcpu := cpu_of_leavesAfter hleaves hop
    refine ⟨?_, (Account.opType_eq (a := s.account) hop).trans (congrArg some hcpu)⟩
    by_contra hunseen
    obtain ⟨hops, hpc, htime⟩ := h.unseen p hunseen
    have hticks := leavesAfter_eq hleaves hop hcpu
    rw [Sim.op, show s.ops p = (processes p).1 from hops.trans (h₀.ops p),
      show s.pc p = 0 from hpc, ← List.head?_eq_getElem?, processes_time] at hop
    rw [show s.sched.time_remaining p = (processes p).2 from htime.trans (h₀.time p),
      ← Option.some_inj.mp hop] at hticks
    exact absurd hticks (Nat.succ_ne_self _).symm
  · rintro ⟨hseen, hcpu⟩
    obtain ⟨⟨c⟩, op, hop, htime⟩ := h.seen p hseen
    have htype : op.type = .cpu := Option.some_inj.mp ((Account.opType_eq hop).symm.trans hcpu)
    have hshape : WellShaped ((s.ops p).map Op.type) = true := by
      rw [show (s.ops p).map Op.type = _ from h.types p]
      exact h₀.initial.shape p
    obtain ⟨op', hop'⟩ := exists_after_cpu hshape hcpu
    have hsmall := h.small p op (List.mem_of_getElem? hop)
    have hkey : (s.sched.time_remaining p).toNat = op.time.toNat + 1 := by
      rw [show s.sched.time_remaining p = op.time + 1 from htime, UInt32.toNat_add]
      exact Nat.mod_eq_of_lt hsmall
    rw [hkey]
    exact leavesAfter_of_op c hop htype hop'

/-- In every state of every run with the table of `process.c`, the keys of the ready list are true
exactly if every process in it has been simulated before and stands at an `OP_CPU`. -/
theorem keys_true_iff {s₀ s : Sim ncpu processCount} {ts : List (Turn ncpu)}
    {es : List (Event ncpu processCount)} (h₀ : Started s₀)
    (hexec : s₀.exec cfg (fun _ _ => true) [] ts = some (s, es)) :
    KeysTrue s ↔ ∀ p, s.Ready p → Seen p es ∧ s.opType p = some .cpu := by
  have hkeyed := exec_keyed (fun p => h₀.initial.shape p) h₀.keyed hexec
  exact forall₂_congr fun p _ => leavesAfter_key_iff h₀ hkeyed p

theorem startSimulator_started : Started startSimulator where
  initial := startSimulator_initial
  ops _ := rfl
  time _ := rfl

/-- With a time slice of 1, process 0 has run one tick of its first burst and been preempted: it is
back in the ready list, with the key 2. -/
def preemptedTurns : List (Turn 1) :=
  List.replicate 13 .supervisor ++ List.replicate 10 (.thread 0) ++
    List.replicate 4 .supervisor ++ List.replicate 4 (.thread 0)

theorem keys_true_iff_preempted :
    ∃ s es, startSimulator.exec ⟨'r', 1⟩ (fun _ _ => true) [] preemptedTurns = some (s, es) ∧
      s.Ready 0 ∧ s.sched.time_remaining 0 = 2 ∧ KeysTrue s := by
  have hfacts : (startSimulator.exec ⟨'r', 1⟩ (fun _ _ => true) [] preemptedTurns).map (fun r =>
      (r.1.sched.ready.head, r.1.sched.ready.next 0, r.1.sched.time_remaining 0, r.1.opType 0,
        decide (Event.simulated 0 .cpu ∈ r.2))) =
      some (some 0, none, 2, some .cpu, true) := by
    decide +kernel
  obtain ⟨⟨s, es⟩, hexec, heq⟩ := Option.map_eq_some_iff.mp hfacts
  simp only [Prod.mk.injEq, decide_eq_true_eq] at heq
  obtain ⟨hhead, hnext, htime, hcpu, hmem⟩ := heq
  have hlist : LinkedList.IsList s.sched.ready.next s.sched.ready.head [0] := ⟨hhead, hnext⟩
  refine ⟨s, es, hexec, .head hhead, htime,
    (keys_true_iff startSimulator_started hexec).mpr fun p hp => ?_⟩
  obtain rfl := List.mem_singleton.mp ((hlist.reaches_iff p).mp hp)
  exact ⟨⟨.cpu, hmem⟩, hcpu⟩

/-- The first process has been created and is in the ready list with the key 2; it needs three
ticks. -/
theorem new_process_key :
    ∃ s es, startSimulator.exec fifo (fun _ _ => true) [] (List.replicate 10 .supervisor) =
        some (s, es) ∧
      s.Ready 0 ∧ s.sched.time_remaining 0 = 2 ∧ LeavesAfter 0 s 3 ∧ ¬ KeysTrue s := by
  have hfacts : (startSimulator.exec fifo (fun _ _ => true) []
      (List.replicate 10 .supervisor)).map (fun r => (r.1.sched.ready.head,
        r.1.sched.time_remaining 0, r.1.op 0, (r.1.ops 0)[r.1.pc 0 + 1]?)) =
      some (some 0, 2, some ⟨.cpu, 2⟩, some ⟨.io, 2⟩) := by
    decide +kernel
  obtain ⟨⟨s, es⟩, hexec, heq⟩ := Option.map_eq_some_iff.mp hfacts
  simp only [Prod.mk.injEq] at heq
  obtain ⟨hhead, htime, hop, hop'⟩ := heq
  have hleaves : LeavesAfter 0 s 3 := leavesAfter_of_op 0 hop rfl hop'
  refine ⟨s, es, hexec, .head hhead, htime, hleaves, fun h => ?_⟩
  have hkey := h 0 (.head hhead)
  rw [htime] at hkey
  exact absurd (leavesAfter_eq hkey hop rfl) (by decide)

end ECE3056.Scheduling
