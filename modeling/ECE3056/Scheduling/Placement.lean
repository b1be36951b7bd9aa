import ECE3056.Library.Custody
import ECE3056.Scheduling.Student

/-!
# Where each process is

Every process is in the hands of one thread or at one resting place. The assignment
of places is a ghost: `Placed` relates it to what the threads and the ready list
hold, and each step of a thread moves at most one process.
-/

namespace ECE3056.Scheduling

open ECE3056.Custody

variable {ncpu nproc ncaller : Nat} {scheduling_alg : Char}

/-- Where a process is when no thread has it in hand. -/
inductive Rest
  | uncreated
  | queued
  | waiting
  | terminated
  deriving DecidableEq, Repr

/-- The state in a PCB at rest. -/
def Rest.state : Rest → ProcessState
  | uncreated => .new
  | queued => .ready
  | waiting => .waiting
  | terminated => .terminated

/-- A CPU thread or a caller of `wake_up`. -/
abbrev Thread (ncpu ncaller : Nat) := Fin ncpu ⊕ Fin ncaller

/-- The process that a CPU thread has in hand, when `current` is its entry of `current[]`. -/
def Cpu.hand (current : Option (Fin nproc)) : Cpu nproc → Option (Fin nproc)
  | running | preempt | yield | terminate => current
  | pushToQueue pcb | setRunning pcb => some pcb
  | setCurrent pcb | contextSwitch pcb => pcb
  | idling | idle | condWait | popFromQueue => none

/-- The state in the PCB of the process that a CPU thread has in hand. -/
def Cpu.expects : Cpu nproc → ProcessState
  | pushToQueue _ | setRunning _ => .ready
  | _ => .running

def Caller.hand : Caller ncpu nproc → Option (Fin nproc)
  | wakeUp process | pushToQueue process => some process
  | _ => none

def Caller.Expects (v : ProcessState) : Caller ncpu nproc → Prop
  | wakeUp _ => v = .new ∨ v = .waiting
  | _ => v = .ready

/-- The CPU owns the process that `current[]` names. -/
def Cpu.UsesCurrent : Cpu nproc → Prop
  | running | preempt | yield | terminate => True
  | _ => False

namespace State

def hand (s : State ncpu nproc ncaller) : Thread ncpu ncaller → Option (Fin nproc)
  | .inl c => (s.cpu c).hand (s.current c)
  | .inr w => (s.caller w).hand

/-- The state in the PCB of a process is that of its place. -/
def Fits (s : State ncpu nproc ncaller) (p : Fin nproc) : Thread ncpu ncaller ⊕ Rest → Prop
  | .inl (.inl c) => s.state p = (s.cpu c).expects
  | .inl (.inr w) => (s.caller w).Expects (s.state p)
  | .inr r => s.state p = r.state

end State

/-- What `current[]` says of a CPU that relies on it. -/
structure State.CurrentOk (s : State ncpu nproc ncaller) (c : Fin ncpu) : Prop where
  published : ∀ pcb, s.cpu c = .contextSwitch pcb → s.current c = pcb
  owned : (s.cpu c).UsesCurrent → ∃ p, s.current c = some p

/-- The processes are at these places. -/
structure Placed (s : State ncpu nproc ncaller)
    (place : Fin nproc → Thread ncpu ncaller ⊕ Rest) : Prop where
  keeps : Keeps s.hand place
  fits : ∀ p, s.Fits p (place p)
  queue : ∃ xs, s.ready.Holds xs ∧ ∀ p, p ∈ xs ↔ place p = .inr .queued
  current : ∀ c, s.CurrentOk c

variable {s s' : State ncpu nproc ncaller} {place : Fin nproc → Thread ncpu ncaller ⊕ Rest}

/-! ## Steps of one thread -/

/-- The other threads stay where they are, except that a broadcast may release them. -/
structure Frame (s s' : State ncpu nproc ncaller) (h : Thread ncpu ncaller) : Prop where
  cpu : ∀ c, .inl c ≠ h → s'.cpu c = s.cpu c ∨ s.cpu c = .condWait ∧ s'.cpu c = .idle
  current : ∀ c, .inl c ≠ h → s'.current c = s.current c
  caller : ∀ w, .inr w ≠ h → s'.caller w = s.caller w

namespace Frame

variable {h : Thread ncpu ncaller}

theorem hand_eq (hf : Frame s s' h) {g : Thread ncpu ncaller} (hg : g ≠ h) :
    s'.hand g = s.hand g := by
  cases g with
  | inl c =>
    show (s'.cpu c).hand (s'.current c) = (s.cpu c).hand (s.current c)
    rw [hf.current c hg]
    rcases hf.cpu c hg with hc | ⟨hc, hc'⟩
    · rw [hc]
    · rw [hc, hc']
      rfl
  | inr w =>
    show (s'.caller w).hand = (s.caller w).hand
    rw [hf.caller w hg]

theorem fits (hf : Frame s s' h) {p : Fin nproc} {l : Thread ncpu ncaller ⊕ Rest}
    (hl : l ≠ .inl h) (hstate : s'.state p = s.state p) (hp : s.Fits p l) : s'.Fits p l := by
  match l with
  | .inr r => exact hstate.trans hp
  | .inl (.inl c) =>
    have hc : .inl c ≠ h := fun heq => hl (congrArg _ heq)
    have hexp : (s'.cpu c).expects = (s.cpu c).expects := by
      rcases hf.cpu c hc with hc | ⟨hc, hc'⟩
      · rw [hc]
      · rw [hc, hc']
        rfl
    exact hstate.trans (Eq.trans hp hexp.symm)
  | .inl (.inr w) =>
    have hw : .inr w ≠ h := fun heq => hl (congrArg _ heq)
    show (s'.caller w).Expects (s'.state p)
    rw [hstate, hf.caller w hw]
    exact hp

theorem currentOk (hf : Frame s s' h) {c : Fin ncpu} (hc : .inl c ≠ h) (hok : s.CurrentOk c) :
    s'.CurrentOk c := by
  rcases hf.cpu c hc with heq | ⟨-, hidle⟩
  · constructor
    · intro pcb hpcb
      rw [hf.current c hc]
      exact hok.published pcb (heq ▸ hpcb)
    · intro huses
      rw [hf.current c hc]
      exact hok.owned (heq ▸ huses)
  · constructor
    · intro pcb hpcb
      rw [hidle] at hpcb
      simp at hpcb
    · intro huses
      rw [hidle] at huses
      exact huses.elim

theorem refl (s : State ncpu nproc ncaller) (h : Thread ncpu ncaller) : Frame s s h :=
  ⟨fun _ _ => .inl rfl, fun _ _ => rfl, fun _ _ => rfl⟩

theorem setCpu {c : Fin ncpu} (hf : Frame s s' (.inl c)) (pc : Cpu nproc) :
    Frame s (s'.setCpu c pc) (.inl c) := by
  refine ⟨?_, hf.current, hf.caller⟩
  intro d hd
  have hdc : d ≠ c := fun heq => hd (congrArg _ heq)
  show Function.update s'.cpu c pc d = _ ∨ _ ∧ Function.update s'.cpu c pc d = _
  rw [Function.update_of_ne hdc]
  exact hf.cpu d hd

theorem setCaller {w : Fin ncaller} (hf : Frame s s' (.inr w)) (pc : Caller ncpu nproc) :
    Frame s (s'.setCaller w pc) (.inr w) := by
  refine ⟨hf.cpu, hf.current, ?_⟩
  intro v hv
  have hvw : v ≠ w := fun heq => hv (congrArg _ heq)
  show Function.update s'.caller w pc v = _
  rw [Function.update_of_ne hvw]
  exact hf.caller v hv

theorem setCurrent {c : Fin ncpu} (hf : Frame s s' (.inl c)) (pcb : Option (Fin nproc)) :
    Frame s { s' with current := Function.update s'.current c pcb } (.inl c) := by
  refine ⟨hf.cpu, ?_, hf.caller⟩
  intro d hd
  have hdc : d ≠ c := fun heq => hd (congrArg _ heq)
  show Function.update s'.current c pcb d = _
  rw [Function.update_of_ne hdc]
  exact hf.current d hd

theorem setState (hf : Frame s s' h) (p : Fin nproc) (v : ProcessState) :
    Frame s (s'.setState p v) h := ⟨hf.cpu, hf.current, hf.caller⟩

theorem setReady (hf : Frame s s' h) (q : Queue nproc) : Frame s { s' with ready := q } h :=
  ⟨hf.cpu, hf.current, hf.caller⟩

theorem push (h : Thread ncpu ncaller) {pcb : Fin nproc} (hs : s.push pcb = some s') :
    Frame s s' h := by
  obtain ⟨q, -, rfl⟩ := Option.map_eq_some_iff.mp hs
  refine ⟨?_, fun _ _ => rfl, fun _ _ => rfl⟩
  intro c _
  show (if s.cpu c = .condWait then Cpu.idle else s.cpu c) = _ ∨ _
  by_cases hc : s.cpu c = .condWait
  · exact .inr ⟨hc, if_pos hc⟩
  · exact .inl (if_neg hc)

end Frame

namespace Placed

variable {h : Thread ncpu ncaller} {p : Fin nproc}

theorem place_eq (hp : Placed s place) (hh : s.hand h = some p) : place p = .inl h :=
  (hp.keeps h p).mp hh

theorem fits_hand (hp : Placed s place) (hh : s.hand h = some p) : s.Fits p (.inl h) := by
  rw [← hp.place_eq hh]
  exact hp.fits p

theorem currents (hp : Placed s place) (hf : Frame s s' h)
    (hcurrent : ∀ c, h = .inl c → s'.CurrentOk c) (c : Fin ncpu) : s'.CurrentOk c := by
  by_cases hc : h = .inl c
  · exact hcurrent c hc
  · exact hf.currentOk (Ne.symm hc) (hp.current c)

/-- A thread goes on with what it has in hand. -/
theorem stay (hp : Placed s place) (hf : Frame s s' h) (hhand : s'.hand h = s.hand h)
    (hready : s'.ready = s.ready) (hstate : ∀ q, s.hand h ≠ some q → s'.state q = s.state q)
    (hfits : ∀ q, s.hand h = some q → s'.Fits q (.inl h))
    (hcurrent : ∀ c, h = .inl c → s'.CurrentOk c) : Placed s' place where
  keeps := by
    apply hp.keeps.congr
    intro g
    by_cases hg : g = h
    · rw [hg, hhand]
    · exact hf.hand_eq hg
  fits := by
    intro q
    by_cases hq : s.hand h = some q
    · rw [hp.place_eq hq]
      exact hfits q hq
    · exact hf.fits (fun hl => hq ((hp.keeps h q).mpr hl)) (hstate q hq) (hp.fits q)
  queue := hready ▸ hp.queue
  current := hp.currents hf hcurrent

/-- A thread puts a process down. -/
theorem putDown (hp : Placed s place) (hf : Frame s s' h) (hhand : s.hand h = some p)
    (hhand' : s'.hand h = none) (hstate : ∀ q, q ≠ p → s'.state q = s.state q) {r : Rest}
    (hr : s'.state p = r.state)
    (hqueue : ∃ xs, s'.ready.Holds xs ∧
      ∀ q, q ∈ xs ↔ Function.update place p (.inr r) q = .inr .queued)
    (hcurrent : ∀ c, h = .inl c → s'.CurrentOk c) :
    Placed s' (Function.update place p (.inr r)) where
  keeps := hp.keeps.putDown hhand r hhand' fun g hg => hf.hand_eq hg
  fits := by
    intro q
    by_cases hq : q = p
    · rw [hq, Function.update_self]
      exact hr
    · rw [Function.update_of_ne hq]
      refine hf.fits ?_ (hstate q hq) (hp.fits q)
      intro hl
      exact hq (Option.some_inj.mp (((hp.keeps h q).mpr hl).symm.trans hhand))
  queue := hqueue
  current := hp.currents hf hcurrent

/-- A thread with empty hands picks a process up. -/
theorem pickUp (hp : Placed s place) (hf : Frame s s' h) {r : Rest} (hplace : place p = .inr r)
    (hhand : s.hand h = none) (hhand' : s'.hand h = some p)
    (hstate : ∀ q, q ≠ p → s'.state q = s.state q) (hfits : s'.Fits p (.inl h))
    (hqueue : ∃ xs, s'.ready.Holds xs ∧
      ∀ q, q ∈ xs ↔ Function.update place p (.inl h) q = .inr .queued)
    (hcurrent : ∀ c, h = .inl c → s'.CurrentOk c) :
    Placed s' (Function.update place p (.inl h)) where
  keeps := hp.keeps.pickUp hplace hhand hhand' fun g hg => hf.hand_eq hg
  fits := by
    intro q
    by_cases hq : q = p
    · rw [hq, Function.update_self]
      exact hfits
    · rw [Function.update_of_ne hq]
      refine hf.fits ?_ (hstate q hq) (hp.fits q)
      intro hl
      have hq' := (hp.keeps h q).mpr hl
      simp [hhand] at hq'
  queue := hqueue
  current := hp.currents hf hcurrent

/-- A place change that has nothing to do with the ready list. -/
theorem queue_update (hp : Placed s place) (hready : s'.ready = s.ready)
    {l : Thread ncpu ncaller ⊕ Rest} (hp₀ : place p ≠ .inr .queued) (hl : l ≠ .inr .queued) :
    ∃ xs, s'.ready.Holds xs ∧ ∀ q, q ∈ xs ↔ Function.update place p l q = .inr .queued := by
  obtain ⟨xs, hxs, hmem⟩ := hp.queue
  rw [hready]
  refine ⟨xs, hxs, ?_⟩
  intro q
  rw [hmem q]
  by_cases hq : q = p
  · rw [hq, Function.update_self]
    exact iff_of_false hp₀ hl
  · rw [Function.update_of_ne hq]

end Placed

end ECE3056.Scheduling
