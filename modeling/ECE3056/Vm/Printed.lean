import ECE3056.Vm.Exhaustion
import ECE3056.Vm.TraceFile

/-!
# What main prints

The output of `main` on the text of a trace, told by the trace alone: each process has a
memory of its own, and what it reads is what it last wrote there. Page frames, swap space,
random numbers and the checks of `-c` cannot be seen in it.
-/

namespace ECE3056.Vm

open ECE3056.Fallible ECE3056.Tally

/-! ## The trace alone

The operations so far are listed newest first. -/

/-- An operation of a well-formed trace. The process accessed last is not started again: `main`
would leave `PTBR` at its old page table. -/
def WellFormed (past : List Op) (op : Op) : Prop :=
  Allowed past op ∧
    match op with
    | .start p => lastAccessed past ≠ some p
    | .stop _ => True
    | .access _ _ rw _ => rw = 'r' ∨ rw = 'w'

theorem WellFormed.keepsTable {past : List Op} {op : Op} (h : WellFormed past op) :
    KeepsTable past op := by
  cases op with
  | start p => exact h.2
  | stop p => trivial
  | access p address rw data => trivial

/-- The byte that the line of an operation shows. -/
def answer (past : List Op) : Op → UInt8
  | .access p address rw data => if rw = 'r' then lastWritten past p address else data
  | _ => 0

instance (past : List Op) : (op : Op) → Decidable (Fits past op)
  | .start _ | .access .. => inferInstanceAs (Decidable (runningCount past < numFrames - 1))
  | .stop _ => inferInstanceAs (Decidable True)

/-- The lines of the operations that memory has room for. -/
def printed : List Op → Nat → List Op → List Char
  | _, _, [] => []
  | past, step, op :: ops =>
    if Fits past op then
      report step op (answer past op) ++ printed (op :: past) ((step + 1) % 2 ^ 32) ops
    else []

variable {past : List Op} {s s' : State} {prng : Nat → Nat} {op : Op} {G : Layout}

/-! ## One line -/

theorem InStep.runLine_access (h : InStep past s) {p address : Nat} {rw : Char} {data : UInt8}
    (hmax : p < maxPid) (hp : running past p) :
    runLine s (.access p address rw data) = accessAs s p address rw data := by
  rw [runLine, h.dispatch_eq hmax hp, accessAs, contextSwitch, Realizes.pcb_eq hmax]
  rfl

/-- A line does what the operation does in a processor that is always switched. -/
theorem InStep.runLine_eq (h : InStep past s) (hserves : Serves past s G) (ha : Allowed past op) :
    (do return (← runLine s op).2) = step s op := by
  rw [← h.mainStep_eq hserves ha]
  cases op with
  | start p =>
    rw [runLine, mainStep]
    cases start s p <;> rfl
  | stop p =>
    rw [runLine, mainStep]
    cases stop s p <;> rfl
  | access p address rw data =>
    rw [runLine, mainStep]
    cases dispatch s p <;> rfl

theorem Serves.read_eq (h : Serves past s G) {p address : Nat} {data b : UInt8}
    (ha : Allowed past (.access p address 'r' data))
    (hacc : accessAs s p address 'r' data = .ok (b, s')) : b = lastWritten past p address := by
  obtain ⟨s₁, hsw, hR₁, hc, -⟩ := h.switch ha.1
  have hl : G.live p (vaddrVpn address) := (h.live_iff ..).mpr ⟨ha.1, vaddrVpn_lt ha.2⟩
  rw [accessAs, hsw, ok_bind] at hacc
  rw [← h.content_eq p address ha.1 ha.2]
  rcases memAccess_read hR₁ h.valid hc hl data with hoom | ⟨s₂, G', n, -, hok, -⟩
  · rw [hacc] at hoom
    simp at hoom
  · rw [hacc] at hok
    exact (Prod.mk.inj (Except.ok.inj hok)).1

/-- Only a read shows the byte that `mem_access` returns. -/
theorem report_eq (hr : Reachable prng past s) (h : InStep past s) (hw : WellFormed past op)
    {byte : UInt8} (hrun : runLine s op = .ok (byte, s')) (step : Nat) :
    report step op byte = report step op (answer past op) := by
  obtain ⟨G, hserves⟩ := hr.serves
  obtain ⟨ha, hw⟩ := hw
  cases op with
  | start p => rfl
  | stop p => rfl
  | access p address rw data =>
    rcases hw with rfl | rfl
    · rw [h.runLine_access (hserves.pid_eq ha.1 |>.1) ha.1] at hrun
      rw [hserves.read_eq ha hrun]
      rfl
    · rfl

/-- A well-formed operation has the fields of a trace line. -/
theorem Serves.fields (h : Serves past s G) (hw : WellFormed past op) : op.Fields := by
  obtain ⟨ha, hw⟩ := hw
  have hsmall : ∀ {p : Nat}, p < maxPid → p < 2 ^ 32 := fun hp => hp.trans (by decide)
  cases op with
  | start p => exact hsmall ha.1
  | stop p => exact hsmall (h.pid_eq ha).1
  | access p address rw data =>
    refine ⟨hsmall (h.pid_eq ha.1).1, ha.2.trans (by decide), ?_⟩
    rcases hw with rfl | rfl <;> decide

/-- With `-c` too, a line only runs its operation and prints it. -/
theorem mainLine_text (hr : Reachable prng past s) (h : InStep past s) (hw : WellFormed past op)
    (check_corruption : Bool) (buf : Buf) (step : Nat) :
    (Fits past op ∧ ∃ s', Reachable prng (op :: past) s' ∧ InStep (op :: past) s' ∧
      mainLine check_corruption (buf.store op.text) step s =
        (report step op (answer past op), .ok s')) ∨
    (¬ Fits past op ∧ mainLine check_corruption (buf.store op.text) step s =
      ([], .error (.fault outOfMemory))) := by
  obtain ⟨G, hserves⟩ := hr.serves
  have hline := readLine_text (hserves.fields hw) buf
  have hstep := h.runLine_eq hserves hw.1
  by_cases hfits : Fits past op
  · obtain ⟨s', hok⟩ : ∃ s', Vm.step s op = .ok s' :=
      (hr.succeeds hw.1).resolve_left fun herr => (hr.exhausted_iff hw.1).mp herr hfits
    have hr' := hr.next hw.1 hok
    obtain ⟨G', hserves'⟩ := hr'.serves
    rw [hok] at hstep
    obtain ⟨⟨byte, s₁⟩, hrun, heq⟩ := bind_eq_ok_iff.mp hstep
    obtain rfl : s₁ = s' := Except.ok.inj heq
    have hchecked : checked check_corruption 1 s₁ = .ok s₁ := by
      rw [checked, hserves'.checkValidity_eq]
      cases check_corruption <;> rfl
    refine .inl ⟨hfits, s₁, hr', h.next hserves hw.1 hw.keepsTable hok, ?_⟩
    simp only [mainLine, hline, hrun, hchecked, report_eq hr h hw hrun]
  · rw [(hr.exhausted_iff hw.1).mpr hfits] at hstep
    refine .inr ⟨hfits, ?_⟩
    cases hrun : runLine s op with
    | error fault =>
      rw [hrun] at hstep
      obtain rfl := Except.error.inj hstep
      simp only [mainLine, hline, hrun]
    | ok result => simp [hrun] at hstep

/-! ## The whole file -/

/-- The text of a trace. -/
def text (ops : List Op) : List Char := ops.flatMap Op.text

/-- The lines that memory has room for are printed, and the first other one ends in a panic. -/
theorem lineLoop_text (hr : Reachable prng past s) (h : InStep past s) {ops : List Op}
    (hw : Obeys WellFormed past ops) {rounds : Nat} (hrounds : (text ops).length ≤ rounds)
    (check_corruption : Bool) (buf : Buf) (step : Nat) :
    ∃ ending, lineLoop check_corruption rounds buf (text ops) step s =
        (printed past step ops, ending) ∧
      (Obeys Fits past ops →
        ∃ s', ending = .finished s' ∧ Reachable prng (ops.reverse ++ past) s') ∧
      (¬ Obeys Fits past ops → ending = .fault outOfMemory) := by
  induction ops generalizing past s rounds buf step with
  | nil =>
    refine ⟨.finished s, ?_, fun _ => ⟨s, rfl, hr⟩, fun hno => absurd trivial hno⟩
    cases rounds <;> rfl
  | cons op ops ih =>
    obtain ⟨hop, hops⟩ := hw
    obtain ⟨G, hserves⟩ := hr.serves
    have hfgets := fgets_line (Op.isLine (hserves.fields hop)) buf (text ops)
    have htext : text (op :: ops) = op.text ++ text ops := rfl
    have hpos : 0 < op.text.length := by cases op <;> simp [Op.text]
    cases rounds with
    | zero =>
      rw [htext, List.length_append] at hrounds
      omega
    | succ rounds =>
      rw [htext, List.length_append] at hrounds
      rw [htext, lineLoop, hfgets]
      dsimp only
      rcases mainLine_text hr h hop check_corruption buf step with
        ⟨hfits, s₁, hr₁, h₁, hline⟩ | ⟨hno, hline⟩
      · have hrest : (text ops).length ≤ rounds := by omega
        obtain ⟨ending, hloop, hfinished, hpanic⟩ := ih hr₁ h₁ hops hrest (buf.store op.text)
          ((step + 1) % 2 ^ 32)
        refine ⟨ending, ?_, ?_, ?_⟩
        · rw [hline, printed, if_pos hfits]
          dsimp only
          rw [hloop]
        · intro hall
          obtain ⟨s', hending, hreach⟩ := hfinished hall.2
          refine ⟨s', hending, ?_⟩
          rwa [List.reverse_cons, List.append_assoc]
        · intro hno
          exact hpanic fun hall => hno ⟨hfits, hall⟩
      · refine ⟨.fault outOfMemory, ?_, fun hall => absurd hall.1 hno, fun _ => rfl⟩
        rw [hline, printed, if_neg hno]

/-- START 1, a write and a read of it. -/
def readBackTrace : List Op := [.start 1, .access 1 4660 'w' 90, .access 1 4660 'r' 0]

end ECE3056.Vm
