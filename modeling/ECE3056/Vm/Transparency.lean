import ECE3056.Vm.Process

/-!
# Address spaces

What virtual memory is for: each running process has bytes of its own, zero when
it starts. `lastWritten` says this in terms of the operations alone; every
reachable state of the simulator realizes it, whatever has been evicted.
-/

namespace ECE3056.Vm

open ECE3056.Fallible

inductive Op
  | start (pid : Nat)
  | stop (pid : Nat)
  | access (pid address : Nat) (rw : Char) (data : UInt8)
  deriving DecidableEq

/-- `mem_access` for a process that the processor has been switched to. -/
def accessAs (s : State) (pid address : Nat) (rw : Char) (data : UInt8) :
    Except Fault (UInt8 × State) := do
  let s ← contextSwitch s pid
  memAccess { s with currentProcess := some pid } address rw data

def step (s : State) : Op → Except Fault State
  | .start pid => start s pid
  | .stop pid => stop s pid
  | .access pid address rw data => do return (← accessAs s pid address rw data).2

/-- The state after `system_init`, under RANDOM replacement. -/
def boot (prng : Nat → Nat) : State := systemInit (.zeroed .random prng)

/-! ## What the operations mean

The operations so far are listed newest first. -/

/-- The process was started and has not been stopped since. -/
def running : List Op → Nat → Bool
  | [], _ => false
  | .start q :: past, p => q == p || running past p
  | .stop q :: past, p => q != p && running past p
  | .access .. :: past, p => running past p

/-- The byte most recently written since the process was last started, or zero. -/
def lastWritten : List Op → Nat → Nat → UInt8
  | [], _, _ => 0
  | .start q :: past, p, a => if q = p then 0 else lastWritten past p a
  | .stop _ :: past, p, a => lastWritten past p a
  | .access q b rw data :: past, p, a =>
    if q = p ∧ b = a ∧ rw ≠ 'r' then data else lastWritten past p a

/-- Processes are started when stopped, and stopped and accessed when running; addresses
have 24 bits. -/
def Allowed (past : List Op) : Op → Prop
  | .start p => p < maxPid ∧ running past p = false
  | .stop p => running past p
  | .access p address _ _ => running past p ∧ address < 2 ^ 24

/-- Every operation of the list has the property when the ones before it are past. -/
def Obeys (P : List Op → Op → Prop) : List Op → List Op → Prop
  | _, [] => True
  | past, op :: ops => P past op ∧ Obeys P (op :: past) ops

inductive Reachable (prng : Nat → Nat) : List Op → State → Prop
  | boot : Reachable prng [] (boot prng)
  | next {past : List Op} {s s' : State} {op : Op} (hs : Reachable prng past s)
      (ha : Allowed past op) (hstep : step s op = .ok s') : Reachable prng (op :: past) s'

/-! ## The invariant -/

variable {past : List Op} {s : State} {prng : Nat → Nat}

/-- Memory realizes a layout in which the running processes have what they wrote. -/
structure Serves (past : List Op) (s : State) (G : Layout) : Prop where
  realizes : Realizes s G
  valid : G.Valid
  running_iff : ∀ p, G.running p ↔ running past p
  live_iff : ∀ p v, G.live p v ↔ running past p ∧ v < numPages
  content_eq : ∀ p address, running past p → address < 2 ^ 24 →
    G.content p (vaddrVpn address) (vaddrOffset address) = lastWritten past p address
  state_iff : ∀ p, (s.procs p).state = .running ↔ running past p

theorem serves_boot (prng : Nat → Nat) : Serves [] (boot prng) .initial where
  realizes := by
    refine ⟨?_, ?_, fun _ h => h.elim, ?_, ⟨[], SwapQueue.represents_empty⟩, rfl, rfl⟩
    · intro f
      simp only [Layout.initial]
      split <;> simp_all
    · intro f hf
      by_cases hz : f = 0
      · subst hz
        simp [Layout.initial, Holds, boot, systemInit]
      · have hrole : Layout.initial.role f = .free := by
          simp only [Layout.initial]
          rw [if_neg]
          omega
        rw [hrole]
        simp [Holds, boot, systemInit, hz]
    · intro f p h
      simp only [Layout.initial] at h
      split at h <;> simp at h
  valid := Layout.initial_valid
  running_iff p := by simp [Layout.initial, running]
  live_iff p v := by simp [Layout.initial, running]
  content_eq p address h := by simp [running] at h
  state_iff p := by simp [running, boot, systemInit, State.zeroed]

theorem vaddr_inj {a b : Nat} (ha : a < 2 ^ 24) (hb : b < 2 ^ 24) (hv : vaddrVpn a = vaddrVpn b)
    (ho : vaddrOffset a = vaddrOffset b) : a = b := by
  simp only [vaddrVpn, vaddrOffset, pageSize, offsetLen] at hv ho
  omega

/-- The outcomes of an operation: the simulator panics for lack of memory, or goes on. -/
def Survives (past : List Op) (s : State) (op : Op) : Prop :=
  step s op = .error outOfMemory ∨
    ∃ s' G', step s op = .ok s' ∧ Serves (op :: past) s' G' ∧
      s'.swapQueue.sizeMax = max s.swapQueue.sizeMax s'.swapQueue.size

/-- What an operation is counted as, when it takes `n` faults or evictions. -/
def Op.cost (n : Nat) : Op → Cost
  | .start _ => { evictions := n }
  | .stop _ => {}
  | .access _ _ rw _ =>
    if rw = 'r' then { reads := 1, faults := n, evictions := n }
    else { writes := 1, faults := n, evictions := n }

/-- The operation goes on to a state that serves, and is charged for one page at most. -/
def Proceeds (past : List Op) (s : State) (G : Layout) (op : Op) : Prop :=
  ∃ s' G' n, step s op = .ok s' ∧ Serves (op :: past) s' G' ∧
    s'.swapQueue.sizeMax = max s.swapQueue.sizeMax s'.swapQueue.size ∧
    n ≤ 1 ∧ Charged (op.cost n) (books s G) (books s' G')

theorem Serves.start {G : Layout} (h : Serves past s G) {p : Nat} (ha : Allowed past (.start p)) :
    step s (.start p) = .error outOfMemory ∨ Proceeds past s G (.start p) := by
  have hp : ¬ G.running p := by
    rw [h.running_iff, ha.2]
    simp
  rcases start_spec h.realizes h.valid ha.1 hp with
      hoom | ⟨f, s', G₁, hstart, hR, hG, hprocs, hrun, hlive, hcont, hmax, hcharged⟩
  · exact .inl hoom
  right
  refine ⟨s', G₁.addTable f p, 1, hstart, ⟨hR, hG, ?_, ?_, ?_, ?_⟩, hmax, Nat.le_refl 1, hcharged⟩
  · intro q
    show q = p ∨ G₁.running q ↔ _
    rw [hrun, h.running_iff q]
    simp only [running, Bool.or_eq_true, beq_iff_eq, eq_comm (a := p)]
  · intro q v
    show (if q = p then v < numPages else G₁.live q v) ↔ _
    by_cases hqp : q = p
    · subst hqp
      simp [running]
    · rw [if_neg hqp, hlive, h.live_iff]
      simp [running, Ne.symm hqp]
  · intro q address hq hlt
    show Function.update G₁.content p _ q _ _ = _
    by_cases hqp : q = p
    · subst hqp
      simp [lastWritten, zeroPage]
    · have hold : running past q := by simpa [running, Ne.symm hqp] using hq
      rw [Function.update_of_ne hqp, hcont, h.content_eq q address hold hlt]
      simp [lastWritten, Ne.symm hqp]
  · intro q
    rw [hprocs]
    by_cases hqp : q = p
    · subst hqp
      simp [running]
    · rw [Function.update_of_ne hqp, h.state_iff]
      simp [running, Ne.symm hqp]

theorem Serves.stop {G : Layout} (h : Serves past s G) {p : Nat} (ha : Allowed past (.stop p)) :
    Proceeds past s G (.stop p) := by
  obtain ⟨s', G', hstop, hR, hG, hrun, hlive, hcont, hprocs, hmax, hcharged⟩ :=
    stop_spec h.realizes h.valid ((h.running_iff p).mpr ha)
      fun v hv => (h.live_iff p v).mpr ⟨ha, hv⟩
  refine ⟨s', G', 0, hstop, ⟨hR, hG, ?_, ?_, ?_, ?_⟩, ?_, Nat.zero_le 1, hcharged⟩
  · intro q
    rw [hrun, h.running_iff q]
    simp only [running, Bool.and_eq_true, bne_iff_ne, ne_comm (a := p)]
    exact and_comm
  · intro q v
    rw [hlive, h.live_iff]
    simp only [running, bne_iff_ne, Bool.and_eq_true, ne_comm (a := p)]
    tauto
  · intro q address hq hlt
    have hold : running past q := by
      simp only [running, Bool.and_eq_true] at hq
      exact hq.2
    rw [hcont, h.content_eq q address hold hlt]
    rfl
  · intro q
    rw [hprocs]
    by_cases hqp : q = p
    · subst hqp
      simp [running]
    · rw [Function.update_of_ne hqp, h.state_iff]
      simp [running, Ne.symm hqp]
  · rw [hmax, max_eq_left]
    rw [← hmax]
    exact hR.size_le

/-- The state in which `mem_access` runs. -/
theorem Serves.switch {G : Layout} (h : Serves past s G) {p : Nat} (hp : running past p) :
    ∃ s₁, contextSwitch s p = .ok s₁ ∧ Realizes { s₁ with currentProcess := some p } G ∧
      Current { s₁ with currentProcess := some p } p ∧ s₁.procs = s.procs ∧
      s₁.swapQueue = s.swapQueue ∧ s₁.stats = s.stats := by
  obtain ⟨hmax, -, -⟩ := h.realizes.table_of_running p ((h.running_iff p).mpr hp)
  refine ⟨{ s with PTBR := (s.procs p).savedPtbr }, ?_, ?_, ⟨rfl, rfl⟩, rfl, rfl, rfl⟩
  · rw [contextSwitch, Realizes.pcb_eq hmax]
    rfl
  · exact h.realizes.congr rfl (fun _ => rfl) (fun _ _ => ⟨rfl, rfl⟩) rfl rfl

theorem Serves.access {G : Layout} (h : Serves past s G) {p address : Nat} {rw : Char}
    {data : UInt8} (ha : Allowed past (.access p address rw data)) :
    step s (.access p address rw data) = .error outOfMemory ∨
      Proceeds past s G (.access p address rw data) := by
  obtain ⟨s₁, hsw, hR₁, hc, hprocs₁, hqueue₁, hstats₁⟩ := h.switch ha.1
  have hbooks : books s G = books { s₁ with currentProcess := some p } G := by
    simp only [books, hqueue₁, hstats₁]
  have hl : G.live p (vaddrVpn address) := (h.live_iff ..).mpr ⟨ha.1, vaddrVpn_lt ha.2⟩
  by_cases hrw : rw = 'r'
  · subst hrw
    rcases memAccess_read hR₁ h.valid hc hl data with
        hoom | ⟨s', G', n, hn, hacc, hR', hG', hkept, hcharged⟩
    · left
      simp only [step, accessAs, hsw, ok_bind, hoom, error_bind]
    right
    refine ⟨s', G', n, ?_, ⟨hR', hG', ?_, ?_, ?_, ?_⟩, ?_, hn, ?_⟩
    · simp only [step, accessAs, hsw, ok_bind, hacc, pure_eq_ok]
    · intro q
      rw [hkept.running]
      exact h.running_iff q
    · intro q v
      rw [hkept.live]
      exact h.live_iff q v
    · intro q b hq hb
      rw [hkept.content, h.content_eq q b hq hb]
      simp [lastWritten]
    · intro q
      rw [hkept.procs]
      show (s₁.procs q).state = _ ↔ _
      rw [hprocs₁]
      exact h.state_iff q
    · have hpeak := hkept.sizeMax
      change _ = max s₁.swapQueue.sizeMax _ at hpeak
      rwa [hqueue₁] at hpeak
    · rw [hbooks, Op.cost, if_pos rfl]
      exact hcharged
  · rcases memAccess_write hR₁ h.valid hc hl hrw data with
        hoom | ⟨s', G₁, n, hn, hacc, hR', hG', hkept, hcharged⟩
    · left
      simp only [step, accessAs, hsw, ok_bind, hoom, error_bind]
    right
    refine ⟨s', _, n, ?_, ⟨hR', hG', ?_, ?_, ?_, ?_⟩, ?_, hn, ?_⟩
    · simp only [step, accessAs, hsw, ok_bind, hacc, pure_eq_ok]
    · intro q
      show G₁.running q ↔ _
      rw [hkept.running]
      exact h.running_iff q
    · intro q v
      show G₁.live q v ↔ _
      rw [hkept.live]
      exact h.live_iff q v
    · intro q b hq hb
      have hold := h.content_eq q b hq hb
      simp only [Layout.store, hkept.content, lastWritten, Function.update_apply]
      by_cases hqp : q = p
      · subst hqp
        have hinj := vaddr_inj hb ha.2
        by_cases hba : b = address
        · subst hba
          simp [hrw]
        · have hsplit : vaddrVpn b = vaddrVpn address → vaddrOffset b ≠ vaddrOffset address :=
            fun hv ho => hba (hinj hv ho)
          by_cases hv : vaddrVpn b = vaddrVpn address
          · simp [hv, hsplit hv, Ne.symm hba, ← hold]
          · simp [hv, Ne.symm hba, hold]
      · simp [hqp, hold, Ne.symm hqp]
    · intro q
      rw [hkept.procs]
      show (s₁.procs q).state = _ ↔ _
      rw [hprocs₁]
      exact h.state_iff q
    · have hpeak := hkept.sizeMax
      change _ = max s₁.swapQueue.sizeMax _ at hpeak
      rwa [hqueue₁] at hpeak
    · rw [hbooks, Op.cost, if_neg hrw]
      exact hcharged

theorem Serves.proceeds {G : Layout} (h : Serves past s G) {op : Op} (ha : Allowed past op) :
    step s op = .error outOfMemory ∨ Proceeds past s G op := by
  cases op with
  | start p => exact h.start ha
  | stop p => exact .inr (h.stop ha)
  | access p address rw data => exact h.access ha

theorem Serves.survives {G : Layout} (h : Serves past s G) {op : Op} (ha : Allowed past op) :
    Survives past s op := by
  rcases h.proceeds ha with hoom | ⟨s', G', n, hstep, hserves, hmax, -, -⟩
  · exact .inl hoom
  · exact .inr ⟨s', G', hstep, hserves, hmax⟩

theorem Reachable.serves (h : Reachable prng past s) : ∃ G, Serves past s G := by
  induction h with
  | boot => exact ⟨_, serves_boot prng⟩
  | next _ ha hstep ih =>
    obtain ⟨G, hserves⟩ := ih
    rcases hserves.survives ha with hoom | ⟨s', G', hok, h', -⟩
    · rw [hstep] at hoom
      simp at hoom
    · rw [hstep] at hok
      obtain rfl := Except.ok.inj hok
      exact ⟨G', h'⟩

/-- An operation panics for lack of an unprotected frame, or succeeds; it never fails in any
other way. -/
theorem Reachable.succeeds (h : Reachable prng past s) {op : Op} (ha : Allowed past op) :
    step s op = .error outOfMemory ∨ ∃ s', step s op = .ok s' := by
  obtain ⟨G, hserves⟩ := h.serves
  rcases hserves.survives ha with hoom | ⟨s', G', hok, -, -⟩
  · exact .inl hoom
  · exact .inr ⟨s', hok⟩

/-- A reachable state either runs out of unprotected frames or carries out the next operation,
and what a process reads is what it last wrote, whatever was evicted in between. -/
theorem memory_is_private (h : Reachable prng past s) :
    (∀ op, Allowed past op → step s op = .error outOfMemory ∨ ∃ s', step s op = .ok s') ∧
      ∀ p address data, Allowed past (.access p address 'r' data) →
        accessAs s p address 'r' data = .error outOfMemory ∨
          ∃ s', accessAs s p address 'r' data = .ok (lastWritten past p address, s') := by
  refine ⟨fun op ha => h.succeeds ha, ?_⟩
  intro p address data ha
  obtain ⟨G, hserves⟩ := h.serves
  obtain ⟨s₁, hsw, hR₁, hc, -⟩ := hserves.switch ha.1
  have hl : G.live p (vaddrVpn address) := (hserves.live_iff ..).mpr ⟨ha.1, vaddrVpn_lt ha.2⟩
  rw [accessAs, hsw, ok_bind, ← hserves.content_eq p address ha.1 ha.2]
  rcases memAccess_read hR₁ hserves.valid hc hl data with hoom | ⟨s', G', n, -, hacc, -⟩
  · exact .inl hoom
  · exact .inr ⟨s', hacc⟩

theorem Reachable.foldlM {s' : State} {ops : List Op} (h : Reachable prng past s)
    (ha : Obeys Allowed past ops) (hrun : ops.foldlM step s = .ok s') :
    Reachable prng (ops.reverse ++ past) s' := by
  induction ops generalizing past s with
  | nil =>
    obtain rfl := Except.ok.inj hrun
    exact h
  | cons op ops ih =>
    rw [List.foldlM_cons] at hrun
    obtain ⟨s₁, hstep, hrun⟩ := bind_eq_ok_iff.mp hrun
    rw [List.reverse_cons, List.append_assoc]
    exact ih (h.next ha.1 hstep) ha.2 hrun

/-- Process 1 starts and accesses address 5. -/
theorem reachable_access {rw : Char} {data : UInt8}
    (hrun : (do
      let s ← step (boot fun _ => 1) (.start 1)
      step s (.access 1 5 rw data)).toBool = true) :
    ∃ s, Reachable (fun _ => 1) [.access 1 5 rw data, .start 1] s := by
  have ha₁ : Allowed [] (.start 1) := ⟨by decide, rfl⟩
  have ha₂ : Allowed [.start 1] (.access 1 5 rw data) := ⟨rfl, by decide⟩
  cases h₁ : step (boot fun _ => 1) (.start 1) with
  | error fault => simp [h₁, Except.toBool] at hrun
  | ok s₁ =>
    cases h₂ : step s₁ (.access 1 5 rw data) with
    | error fault => simp [h₁, h₂, Except.toBool] at hrun
    | ok s₂ => exact ⟨s₂, (Reachable.boot.next ha₁ h₁).next ha₂ h₂⟩

theorem reachable_write :
    ∃ s, Reachable (fun _ => 1) [.access 1 5 'w' 7, .start 1] s :=
  reachable_access (by decide +kernel)

/-- Process 1 reads back the 7 it wrote. -/
theorem memory_is_private_write : ∃ s,
    Reachable (fun _ => 1) [.access 1 5 'w' 7, .start 1] s ∧
      (accessAs s 1 5 'r' 0 = .error outOfMemory ∨ ∃ s', accessAs s 1 5 'r' 0 = .ok (7, s')) := by
  obtain ⟨s, hs⟩ := reachable_write
  exact ⟨s, hs, (memory_is_private hs).2 1 5 0 ⟨rfl, by decide⟩⟩

end ECE3056.Vm
