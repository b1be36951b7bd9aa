import ECE3056.Scheduling.Placement

/-!
# No process is lost or duplicated

What each step does to the places, and from it what holds in every reachable state.
-/

namespace ECE3056.Scheduling

open ECE3056.Custody

variable {ncpu nproc ncaller : Nat} {scheduling_alg : Char}
variable {s s' : State ncpu nproc ncaller} {place : Fin nproc → Thread ncpu ncaller ⊕ Rest}

/-! ## One step of a CPU thread -/

@[simp] theorem cpu_setCpu_self (s : State ncpu nproc ncaller) (c : Fin ncpu) (pc : Cpu nproc) :
    (s.setCpu c pc).cpu c = pc := Function.update_self ..

@[simp] theorem caller_setCaller_self (s : State ncpu nproc ncaller) (w : Fin ncaller)
    (pc : Caller ncpu nproc) : (s.setCaller w pc).caller w = pc := Function.update_self ..

@[simp] theorem state_setState_self (s : State ncpu nproc ncaller) (p : Fin nproc)
    (v : ProcessState) : (s.setState p v).state p = v := Function.update_self ..

theorem state_setState_of_ne (s : State ncpu nproc ncaller) {p q : Fin nproc} (hq : q ≠ p)
    (v : ProcessState) : (s.setState p v).state q = s.state q := Function.update_of_ne hq ..

theorem hand_inl {c : Fin ncpu} {pc : Cpu nproc} (hc : s.cpu c = pc) :
    s.hand (.inl c) = pc.hand (s.current c) := by
  rw [← hc]
  rfl

theorem hand_inr {w : Fin ncaller} {pc : Caller ncpu nproc} (hw : s.caller w = pc) :
    s.hand (.inr w) = pc.hand := by
  rw [← hw]
  rfl

theorem caller_hand_iff {w : Fin ncaller} {p : Fin nproc} :
    s.hand (.inr w) = some p ↔ s.caller w = .wakeUp p ∨ s.caller w = .pushToQueue p := by
  show (s.caller w).hand = some p ↔ _
  cases s.caller w <;> simp [Caller.hand]

theorem fits_inl {c : Fin ncpu} {pc : Cpu nproc} (hc : s.cpu c = pc) (p : Fin nproc) :
    s.Fits p (.inl (.inl c)) ↔ s.state p = pc.expects := by
  rw [← hc]
  rfl

/-- A CPU that does not use `current[]`. -/
theorem currentOk_of_pc {c : Fin ncpu} {pc : Cpu nproc} (hc : s.cpu c = pc)
    (hpub : ∀ pcb, pc ≠ .contextSwitch pcb) (huse : ¬ pc.UsesCurrent) : s.CurrentOk c := by
  constructor
  · intro pcb hpcb
    exact absurd (hc.symm.trans hpcb) (hpub pcb)
  · intro h
    exact absurd (hc ▸ h) huse

theorem currentOk_setCpu (s : State ncpu nproc ncaller) {c : Fin ncpu} {pc : Cpu nproc}
    (hpub : ∀ pcb, pc ≠ .contextSwitch pcb) (huse : ¬ pc.UsesCurrent) (d : Fin ncpu)
    (hd : (.inl c : Thread ncpu ncaller) = .inl d) : (s.setCpu c pc).CurrentOk d := by
  obtain rfl := Sum.inl_injective hd
  exact currentOk_of_pc (cpu_setCpu_self ..) hpub huse

/-- What a step of a CPU thread does to the places. -/
inductive CpuMoves (s : State ncpu nproc ncaller) (c : Fin ncpu)
    (place : Fin nproc → Thread ncpu ncaller ⊕ Rest) :
    (Fin nproc → Thread ncpu ncaller ⊕ Rest) → Prop
  | stay : s.cpu c ≠ .yield → s.cpu c ≠ .terminate → CpuMoves s c place place
  | push (p) : s.cpu c = .pushToQueue p → place p = .inl (.inl c) →
      CpuMoves s c place (Function.update place p (.inr .queued))
  | pop (p) : s.cpu c = .popFromQueue → place p = .inr .queued →
      CpuMoves s c place (Function.update place p (.inl (.inl c)))
  | yield (p) : s.cpu c = .yield → s.current c = some p → place p = .inl (.inl c) →
      CpuMoves s c place (Function.update place p (.inr .waiting))
  | terminate (p) : s.cpu c = .terminate → s.current c = some p → place p = .inl (.inl c) →
      CpuMoves s c place (Function.update place p (.inr .terminated))

/-- What a step of a caller of `wake_up` does to the places. -/
inductive CallerMoves (s : State ncpu nproc ncaller) (w : Fin ncaller)
    (place : Fin nproc → Thread ncpu ncaller ⊕ Rest) :
    (Fin nproc → Thread ncpu ncaller ⊕ Rest) → Prop
  | stay : CallerMoves s w place place
  | push (p) : s.caller w = .pushToQueue p →
      CallerMoves s w place (Function.update place p (.inr .queued))

/-- A step of a CPU thread inside a handler. -/
structure CpuStepSpec (s s' : State ncpu nproc ncaller) (c : Fin ncpu)
    (place place' : Fin nproc → Thread ncpu ncaller ⊕ Rest) : Prop where
  frame : Frame s s' (.inl c)
  time : s'.time_remaining = s.time_remaining
  moves : CpuMoves s c place place'
  placed : Placed s' place'

/-- A step of a thread inside `wake_up`. -/
structure CallerStepSpec (s s' : State ncpu nproc ncaller) (w : Fin ncaller)
    (place place' : Fin nproc → Thread ncpu ncaller ⊕ Rest) : Prop where
  frame : Frame s s' (.inr w)
  time : s'.time_remaining = s.time_remaining
  moves : CallerMoves s w place place'
  placed : Placed s' place'

namespace Placed

/-- `push_to_queue` of a process in hand. -/
theorem push (hp : Placed s place) {h : Thread ncpu ncaller} {p : Fin nproc}
    (hhand : s.hand h = some p) :
    ∃ s₁, s.push p = some s₁ ∧ s₁.state = s.state ∧ s₁.current = s.current ∧
      ∃ xs, s₁.ready.Holds xs ∧
        ∀ q, q ∈ xs ↔ Function.update place p (.inr .queued) q = .inr .queued := by
  obtain ⟨xs, hxs, hmem⟩ := hp.queue
  have hnotin : p ∉ xs := by
    rw [hmem p, hp.place_eq hhand]
    simp
  obtain ⟨q', hpush, hholds⟩ := pushToQueue_holds hxs hnotin
  refine ⟨State.broadcast { s with ready := q' }, ?_, rfl, rfl, xs ++ [p], hholds, ?_⟩
  · rw [State.push, hpush]
    rfl
  intro q
  rw [List.mem_append, List.mem_singleton, hmem q]
  by_cases hq : q = p
  · simp [hq]
  · rw [Function.update_of_ne hq]
    simp [hq]

/-- `pop_from_queue` by a thread with empty hands. -/
theorem pop (hp : Placed s place) (scheduling_alg : Char) (h : Thread ncpu ncaller) :
    ∃ node q, popFromQueue scheduling_alg s.time_remaining s.ready = some (node, q) ∧
      (node = none ∧ q = s.ready ∨
        ∃ p, node = some p ∧ place p = .inr .queued ∧ ∃ xs, q.Holds xs ∧
          ∀ r, r ∈ xs ↔ Function.update place p (.inl h) r = .inr .queued) := by
  obtain ⟨xs, hxs, hmem⟩ := hp.queue
  obtain ⟨node, q, hpop, hnode⟩ := popFromQueue_holds hxs scheduling_alg s.time_remaining
  refine ⟨node, q, hpop, ?_⟩
  rcases hnode with ⟨hnone, -, hq⟩ | ⟨ys, p, zs, hnode, hsplit, hq⟩
  · exact .inl ⟨hnone, hq⟩
  · have hpx : p ∈ xs := by simp [hsplit]
    refine .inr ⟨p, hnode, (hmem p).mp hpx, ys ++ zs, hq, ?_⟩
    intro r
    have hnodup := hxs.nodup
    rw [hsplit, List.nodup_middle, List.nodup_cons] at hnodup
    by_cases hr : r = p
    · rw [hr, Function.update_self]
      exact iff_of_false hnodup.1 (by simp)
    · rw [Function.update_of_ne hr, ← hmem r, hsplit]
      simp [hr]

/-- The `current_mutex` section of a handler that reads `current[]`. -/
theorem currentSection (hp : Placed s place) {c : Fin ncpu} (huse : (s.cpu c).UsesCurrent) :
    ∃ p, s.current c = some p ∧ s.hand (.inl c) = some p := by
  obtain ⟨p, hcur⟩ := (hp.current c).owned huse
  refine ⟨p, hcur, ?_⟩
  show (s.cpu c).hand (s.current c) = some p
  cases hc : s.cpu c <;> rw [hc] at huse <;> first | exact hcur | exact huse.elim

/-- A CPU thread with empty hands goes on. -/
theorem setCpu_empty (hp : Placed s place) {c : Fin ncpu} {pc : Cpu nproc}
    (hnone : s.hand (.inl c) = none) (hnone' : pc.hand (s.current c) = none)
    (hpub : ∀ pcb, pc ≠ .contextSwitch pcb) (huse : ¬ pc.UsesCurrent) :
    Placed (s.setCpu c pc) place := by
  apply hp.stay (h := .inl c) ((Frame.refl s _).setCpu _) _ rfl (fun _ _ => rfl) _
    (currentOk_setCpu _ hpub huse)
  · rw [hnone, hand_inl (cpu_setCpu_self ..)]
    exact hnone'
  · intro q hq
    simp [hnone] at hq

/-- A CPU that owns a process goes on. -/
theorem setCpu_owner (hp : Placed s place) {c : Fin ncpu} {pc : Cpu nproc}
    (huse : (s.cpu c).UsesCurrent) (huse' : pc.UsesCurrent) : Placed (s.setCpu c pc) place := by
  obtain ⟨p, hcur, hhand⟩ := hp.currentSection huse
  have hpc : pc.hand (s.current c) = s.current c := by
    cases pc <;> first | rfl | exact huse'.elim
  have hexp : pc.expects = (s.cpu c).expects := by
    cases hc : s.cpu c <;> rw [hc] at huse <;>
      first | exact huse.elim | (cases pc <;> first | rfl | exact huse'.elim)
  apply hp.stay (h := .inl c) ((Frame.refl s _).setCpu _) _ rfl (fun _ _ => rfl)
  · intro q hq
    have hfits := (fits_inl rfl q).mp (hp.fits_hand hq)
    exact (fits_inl (cpu_setCpu_self ..) q).mpr (hfits.trans hexp.symm)
  · intro d hd
    obtain rfl := Sum.inl_injective hd
    constructor
    · intro pcb hpcb
      rw [cpu_setCpu_self] at hpcb
      rw [hpcb] at huse'
      exact huse'.elim
    · intro _
      exact ⟨p, hcur⟩
  · rw [hhand, hand_inl (cpu_setCpu_self ..)]
    exact hpc.trans hcur

/-! The sections of the handlers, in the order in which a thread comes to them. -/

theorem step_idle (hp : Placed s place) {c : Fin ncpu} (hc : s.cpu c = .idle) :
    ∃ s', s.cpuStep scheduling_alg c = some s' ∧ CpuStepSpec s s' c place place := by
  refine ⟨_, by rw [State.cpuStep, hc], ((Frame.refl s _).setCpu _), rfl,
    .stay (by simp [hc]) (by simp [hc]), ?_⟩
  apply hp.setCpu_empty (hand_inl hc) <;> split <;> simp [Cpu.UsesCurrent, Cpu.hand]

theorem step_preempt (hp : Placed s place) {c : Fin ncpu} (hc : s.cpu c = .preempt) :
    ∃ s', s.cpuStep scheduling_alg c = some s' ∧ CpuStepSpec s s' c place place := by
  obtain ⟨p, hcur, hhand⟩ := hp.currentSection (c := c) (by rw [hc]; trivial)
  have hframe : Frame s ((s.setState p .ready).setCpu c (.pushToQueue p)) (.inl c) :=
    ((Frame.refl s _).setState p .ready).setCpu _
  refine ⟨_, by rw [State.cpuStep, hc, hcur]; rfl, hframe, rfl, ?_, ?_⟩
  · exact .stay (by simp [hc]) (by simp [hc])
  · apply hp.stay hframe _ rfl _ _ (currentOk_setCpu _ (by simp) id)
    · rw [hhand, hand_inl (cpu_setCpu_self ..)]
      rfl
    · intro q hq
      refine state_setState_of_ne s ?_ _
      intro heq
      exact hq (heq ▸ hhand)
    · intro q hq
      obtain rfl : p = q := Option.some_inj.mp (hhand.symm.trans hq)
      exact (fits_inl (cpu_setCpu_self ..) p).mpr (state_setState_self ..)

theorem step_pushToQueue (hp : Placed s place) {c : Fin ncpu} {p : Fin nproc}
    (hc : s.cpu c = .pushToQueue p) :
    ∃ s', s.cpuStep scheduling_alg c = some s' ∧
      CpuStepSpec s s' c place (Function.update place p (.inr .queued)) := by
  have hhand : s.hand (.inl c) = some p := hand_inl hc
  obtain ⟨s₁, hpush, hstate, -, hqueue⟩ := hp.push hhand
  have hframe : Frame s (s₁.setCpu c .popFromQueue) (.inl c) := (Frame.push _ hpush).setCpu _
  refine ⟨_, by rw [State.cpuStep, hc]; dsimp only; rw [hpush]; rfl, hframe, ?_, ?_, ?_⟩
  · obtain ⟨q, -, rfl⟩ := Option.map_eq_some_iff.mp hpush
    rfl
  · exact .push p hc (hp.place_eq hhand)
  · apply hp.putDown hframe hhand _ _ _ hqueue (currentOk_setCpu _ (by simp) id)
    · exact hand_inl (cpu_setCpu_self ..)
    · intro q _
      exact congrFun hstate q
    · exact (congrFun hstate p).trans ((fits_inl hc p).mp (hp.fits_hand hhand))

/-- The section of `yield` and of `terminate`. -/
theorem leave (hp : Placed s place) {c : Fin ncpu} {p : Fin nproc}
    (hhand : s.hand (.inl c) = some p) {r : Rest} (hr : r ≠ .queued) :
    Placed ((s.setState p r.state).setCpu c .popFromQueue)
      (Function.update place p (.inr r)) := by
  have hframe : Frame s ((s.setState p r.state).setCpu c .popFromQueue) (.inl c) :=
    ((Frame.refl s _).setState p r.state).setCpu _
  have hqueue : ∃ xs, s.ready.Holds xs ∧
      ∀ q, q ∈ xs ↔ Function.update place p (.inr r) q = .inr .queued := by
    apply hp.queue_update rfl
    · simp [hp.place_eq hhand]
    · simp [hr]
  apply hp.putDown hframe hhand _ _ (state_setState_self ..) hqueue
    (currentOk_setCpu _ (by simp) id)
  · exact hand_inl (cpu_setCpu_self ..)
  · intro q hq
    exact state_setState_of_ne s hq _

theorem step_yield (hp : Placed s place) {c : Fin ncpu} (hc : s.cpu c = .yield) :
    ∃ s' place', s.cpuStep scheduling_alg c = some s' ∧ CpuStepSpec s s' c place place' := by
  obtain ⟨p, hcur, hhand⟩ := hp.currentSection (c := c) (by rw [hc]; trivial)
  have hframe : Frame s ((s.setState p .waiting).setCpu c .popFromQueue) (.inl c) :=
    ((Frame.refl s _).setState p _).setCpu _
  exact ⟨_, _, by rw [State.cpuStep, hc, hcur]; rfl, hframe, rfl,
    .yield p hc hcur (hp.place_eq hhand), hp.leave (r := .waiting) hhand (by simp)⟩

theorem step_terminate (hp : Placed s place) {c : Fin ncpu} (hc : s.cpu c = .terminate) :
    ∃ s' place', s.cpuStep scheduling_alg c = some s' ∧ CpuStepSpec s s' c place place' := by
  obtain ⟨p, hcur, hhand⟩ := hp.currentSection (c := c) (by rw [hc]; trivial)
  have hframe : Frame s ((s.setState p .terminated).setCpu c .popFromQueue) (.inl c) :=
    ((Frame.refl s _).setState p _).setCpu _
  exact ⟨_, _, by rw [State.cpuStep, hc, hcur]; rfl, hframe, rfl,
    .terminate p hc hcur (hp.place_eq hhand), hp.leave (r := .terminated) hhand (by simp)⟩

theorem step_popFromQueue (hp : Placed s place) {c : Fin ncpu} (hc : s.cpu c = .popFromQueue) :
    ∃ s' place', s.cpuStep scheduling_alg c = some s' ∧ CpuStepSpec s s' c place place' := by
  obtain ⟨node, q, hpop, hnode⟩ := hp.pop scheduling_alg (.inl c)
  have hnone : s.hand (.inl c) = none := hand_inl hc
  rcases hnode with ⟨rfl, rfl⟩ | ⟨p, rfl, hplace, hqueue⟩
  · refine ⟨_, place, by rw [State.cpuStep, hc]; dsimp only; rw [hpop]; rfl,
      ((Frame.refl s _).setCpu _), rfl, .stay (by simp [hc]) (by simp [hc]), ?_⟩
    exact hp.setCpu_empty hnone rfl (by simp) id
  · have hframe : Frame s ({ s with ready := q }.setCpu c (.setRunning p)) (.inl c) :=
      ((Frame.refl s _).setReady q).setCpu _
    refine ⟨_, _, by rw [State.cpuStep, hc]; dsimp only; rw [hpop]; rfl, hframe, rfl,
      .pop p hc hplace, ?_⟩
    apply hp.pickUp hframe hplace hnone _ (fun _ _ => rfl) _ hqueue
      (currentOk_setCpu _ (by simp) id)
    · exact hand_inl (cpu_setCpu_self ..)
    · have hstate := hp.fits p
      rw [hplace] at hstate
      exact (fits_inl (cpu_setCpu_self ..) p).mpr hstate

theorem step_setRunning (hp : Placed s place) {c : Fin ncpu} {p : Fin nproc}
    (hc : s.cpu c = .setRunning p) :
    ∃ s', s.cpuStep scheduling_alg c = some s' ∧ CpuStepSpec s s' c place place := by
  have hhand : s.hand (.inl c) = some p := hand_inl hc
  have hframe : Frame s ((s.setState p .running).setCpu c (.setCurrent (some p))) (.inl c) :=
    ((Frame.refl s _).setState p .running).setCpu _
  refine ⟨_, by rw [State.cpuStep, hc], hframe, rfl, ?_, ?_⟩
  · exact .stay (by simp [hc]) (by simp [hc])
  · apply hp.stay hframe _ rfl _ _ (currentOk_setCpu _ (by simp) id)
    · rw [hhand]
      exact hand_inl (cpu_setCpu_self ..)
    · intro q hq
      refine state_setState_of_ne s ?_ _
      intro heq
      exact hq (heq ▸ hhand)
    · intro q hq
      obtain rfl : p = q := Option.some_inj.mp (hhand.symm.trans hq)
      exact (fits_inl (cpu_setCpu_self ..) p).mpr (state_setState_self ..)

theorem step_setCurrent (hp : Placed s place) {c : Fin ncpu} {pcb : Option (Fin nproc)}
    (hc : s.cpu c = .setCurrent pcb) :
    ∃ s', s.cpuStep scheduling_alg c = some s' ∧ CpuStepSpec s s' c place place := by
  have hhand : s.hand (.inl c) = pcb := hand_inl hc
  have hframe := ((Frame.refl s _).setCurrent pcb).setCpu (c := c) (.contextSwitch pcb)
  refine ⟨_, by rw [State.cpuStep, hc], hframe, rfl, ?_, ?_⟩
  · exact .stay (by simp [hc]) (by simp [hc])
  · apply hp.stay hframe _ rfl (fun _ _ => rfl)
    · intro q hq
      exact (fits_inl (cpu_setCpu_self ..) q).mpr ((fits_inl hc q).mp (hp.fits_hand hq))
    · intro d hd
      obtain rfl := Sum.inl_injective hd
      constructor
      · intro pcb' hpcb'
        rw [cpu_setCpu_self] at hpcb'
        exact (Function.update_self ..).trans (Cpu.contextSwitch.inj hpcb')
      · intro huse
        rw [cpu_setCpu_self] at huse
        exact huse.elim
    · rw [hhand]
      exact hand_inl (cpu_setCpu_self ..)

theorem step_contextSwitch (hp : Placed s place) {c : Fin ncpu} {pcb : Option (Fin nproc)}
    (hc : s.cpu c = .contextSwitch pcb) :
    ∃ s', s.cpuStep scheduling_alg c = some s' ∧ CpuStepSpec s s' c place place := by
  have hhand : s.hand (.inl c) = pcb := hand_inl hc
  have hcur : s.current c = pcb := (hp.current c).published pcb hc
  have hframe := (Frame.refl s _).setCpu (c := c) (if pcb.isSome then .running else .idling)
  refine ⟨_, by rw [State.cpuStep, hc], hframe, rfl, ?_, ?_⟩
  · exact .stay (by simp [hc]) (by simp [hc])
  · apply hp.stay hframe _ rfl (fun _ _ => rfl)
    · intro q hq
      have hstate := (fits_inl hc q).mp (hp.fits_hand hq)
      refine (fits_inl (cpu_setCpu_self ..) q).mpr ?_
      split <;> exact hstate
    · intro d hd
      obtain rfl := Sum.inl_injective hd
      constructor
      · intro pcb' hpcb'
        rw [cpu_setCpu_self] at hpcb'
        split at hpcb' <;> simp at hpcb'
      · intro huse
        rw [cpu_setCpu_self] at huse
        cases pcb with
        | none => exact huse.elim
        | some p => exact ⟨p, hcur⟩
    · rw [hhand, hand_inl (cpu_setCpu_self ..)]
      cases pcb with
      | none => rfl
      | some p => exact hcur

/-- A thread inside a handler always has a next step, unless it is blocked. -/
theorem cpuStep (hp : Placed s place) {c : Fin ncpu} (scheduling_alg : Char)
    (hc : s.cpu c ≠ .idling ∧ s.cpu c ≠ .running ∧ s.cpu c ≠ .condWait) :
    ∃ s' place', s.cpuStep scheduling_alg c = some s' ∧ CpuStepSpec s s' c place place' := by
  cases hpc : s.cpu c with
  | idling => exact absurd hpc hc.1
  | running => exact absurd hpc hc.2.1
  | condWait => exact absurd hpc hc.2.2
  | idle =>
    obtain ⟨s', h⟩ := hp.step_idle hpc
    exact ⟨s', place, h⟩
  | preempt =>
    obtain ⟨s', h⟩ := hp.step_preempt hpc
    exact ⟨s', place, h⟩
  | yield => exact hp.step_yield hpc
  | terminate => exact hp.step_terminate hpc
  | pushToQueue p =>
    obtain ⟨s', h⟩ := hp.step_pushToQueue hpc
    exact ⟨s', _, h⟩
  | popFromQueue => exact hp.step_popFromQueue hpc
  | setRunning p =>
    obtain ⟨s', h⟩ := hp.step_setRunning hpc
    exact ⟨s', place, h⟩
  | setCurrent pcb =>
    obtain ⟨s', h⟩ := hp.step_setCurrent hpc
    exact ⟨s', place, h⟩
  | contextSwitch pcb =>
    obtain ⟨s', h⟩ := hp.step_contextSwitch hpc
    exact ⟨s', place, h⟩

theorem cpuStep_spec (hp : Placed s place) {c : Fin ncpu}
    (hs : s.cpuStep scheduling_alg c = some s') : ∃ place', CpuStepSpec s s' c place place' := by
  have hc : s.cpu c ≠ .idling ∧ s.cpu c ≠ .running ∧ s.cpu c ≠ .condWait := by
    refine ⟨?_, ?_, ?_⟩ <;>
      (intro hc
       rw [State.cpuStep, hc] at hs
       simp at hs)
  obtain ⟨s₁, place', hstep, hspec⟩ := hp.cpuStep scheduling_alg hc
  obtain rfl : s₁ = s' := Option.some_inj.mp (hstep.symm.trans hs)
  exact ⟨place', hspec⟩

/-! ## The other steps -/

theorem call (hp : Placed s place) {c : Fin ncpu} {h : Handler} (hs : s.call c h = some s') :
    Placed s' place := by
  rw [State.call.eq_def] at hs
  split at hs
  · rename_i hc
    rw [← Option.some_inj.mp hs]
    exact hp.setCpu_empty (hand_inl hc) rfl (by simp) id
  all_goals first
    | (rename_i hc
       rw [← Option.some_inj.mp hs]
       exact hp.setCpu_owner (by rw [hc]; trivial) trivial)
    | simp at hs

theorem spurious (hp : Placed s place) {c : Fin ncpu} (hs : s.spurious c = some s') :
    Placed s' place := by
  rw [State.spurious] at hs
  split at hs
  · rename_i hc
    rw [← Option.some_inj.mp hs]
    exact hp.setCpu_empty (hand_inl hc) rfl (by simp) id
  · simp at hs

theorem setTime (hp : Placed s place) (time : Fin nproc → UInt32) :
    Placed { s with time_remaining := time } place :=
  ⟨hp.keeps, hp.fits, hp.queue, fun c => ⟨(hp.current c).published, (hp.current c).owned⟩⟩

/-- A PCB in the state of a resting place is there, unless `wake_up` has it. -/
theorem rest_of_state (hp : Placed s place) {p : Fin nproc} {r : Rest} (hr : r ≠ .queued)
    (hstate : s.state p = r.state) (hw : ∀ w, s.caller w ≠ .wakeUp p) : place p = .inr r := by
  have hready : r.state ≠ .ready ∧ r.state ≠ .running := by
    cases r <;> simp [Rest.state] at hr ⊢
  have hfits := hp.fits p
  match hplace : place p with
  | .inr r' =>
    rw [hplace] at hfits
    have heq : r'.state = r.state := Eq.trans (Eq.symm hfits) hstate
    cases r <;> cases r' <;> simp [Rest.state] at heq ⊢
  | .inl (.inl c) =>
    rw [hplace] at hfits
    have heq : r.state = (s.cpu c).expects := hstate.symm.trans hfits
    cases hc : s.cpu c <;> simp [hc, Cpu.expects, hready] at heq
  | .inl (.inr w) =>
    have hhand := caller_hand_iff.mp ((hp.keeps _ p).mpr hplace)
    have hpush : s.caller w = .pushToQueue p := hhand.resolve_left (hw w)
    rw [hplace] at hfits
    change (s.caller w).Expects (s.state p) at hfits
    rw [hpush, hstate] at hfits
    exact absurd hfits hready.1

/-- A process that may be woken up is at rest, new or waiting. -/
theorem wakeable (hp : Placed s place) {p : Fin nproc} (hw : s.Wakeable p) :
    place p = .inr .uncreated ∨ place p = .inr .waiting := by
  rcases hw.1 with hstate | hstate
  · exact .inl (hp.rest_of_state (by simp) hstate hw.2)
  · exact .inr (hp.rest_of_state (by simp) hstate hw.2)

theorem callWakeUp (hp : Placed s place) {w : Fin ncaller} {p : Fin nproc}
    (hs : s.callWakeUp w p = some s') :
    Placed s' (Function.update place p (.inl (.inr w))) := by
  rw [State.callWakeUp] at hs
  split at hs
  · rename_i hcond
    rw [← Option.some_inj.mp hs]
    have hframe : Frame s (s.setCaller w (.wakeUp p)) (.inr w) := (Frame.refl s _).setCaller _
    have hfits : (s.setCaller w (.wakeUp p)).Fits p (.inl (.inr w)) := by
      show ((s.setCaller w (.wakeUp p)).caller w).Expects (s.state p)
      rw [caller_setCaller_self]
      exact hcond.2.1
    have hrest : ∃ r, place p = .inr r ∧ r ≠ .queued := by
      rcases hp.wakeable hcond.2 with hplace | hplace
      · exact ⟨_, hplace, by simp⟩
      · exact ⟨_, hplace, by simp⟩
    obtain ⟨r, hplace, hr⟩ := hrest
    apply hp.pickUp hframe hplace (hand_inr hcond.1) _ (fun _ _ => rfl) hfits
      (hp.queue_update rfl (by simp [hplace, hr]) (by simp)) (by simp)
    exact hand_inr (caller_setCaller_self ..)
  · simp at hs

/-- A caller of `wake_up` that has pushed its process goes on. -/
theorem setCaller_empty (hp : Placed s place) {w : Fin ncaller} {pc : Caller ncpu nproc}
    (hnone : s.hand (.inr w) = none) (hnone' : pc.hand = none) :
    Placed (s.setCaller w pc) place := by
  apply hp.stay (h := .inr w) ((Frame.refl s _).setCaller _) _ rfl (fun _ _ => rfl) _ (by simp)
  · rw [hnone, hand_inr (caller_setCaller_self ..)]
    exact hnone'
  · intro q hq
    simp [hnone] at hq

theorem step_wakeUp (hp : Placed s place) {w : Fin ncaller} {p : Fin nproc}
    (hw : s.caller w = .wakeUp p) :
    Placed ((s.setState p .ready).setCaller w (.pushToQueue p)) place := by
  have hhand : s.hand (.inr w) = some p := hand_inr hw
  have hframe : Frame s ((s.setState p .ready).setCaller w (.pushToQueue p)) (.inr w) :=
    ((Frame.refl s _).setState p _).setCaller _
  apply hp.stay hframe _ rfl _ _ (by simp)
  · rw [hhand]
    exact hand_inr (caller_setCaller_self ..)
  · intro q hq
    refine state_setState_of_ne s ?_ _
    intro heq
    exact hq (heq ▸ hhand)
  · intro q hq
    obtain rfl : p = q := Option.some_inj.mp (hhand.symm.trans hq)
    show (((s.setState p .ready).setCaller w (.pushToQueue p)).caller w).Expects _
    rw [caller_setCaller_self]
    exact state_setState_self ..

theorem step_callerPush (hp : Placed s place) {w : Fin ncaller} {p : Fin nproc}
    (hw : s.caller w = .pushToQueue p) {pc : Caller ncpu nproc} (hpc : pc.hand = none) :
    ∃ s₁, s.push p = some s₁ ∧
      Placed (s₁.setCaller w pc) (Function.update place p (.inr .queued)) := by
  have hhand : s.hand (.inr w) = some p := hand_inr hw
  obtain ⟨s₁, hpush, hstate, -, hqueue⟩ := hp.push hhand
  have hframe : Frame s (s₁.setCaller w pc) (.inr w) := (Frame.push _ hpush).setCaller _
  refine ⟨s₁, hpush, ?_⟩
  apply hp.putDown hframe hhand _ _ _ hqueue (by simp)
  · rw [hand_inr (caller_setCaller_self ..)]
    exact hpc
  · intro q _
    exact congrFun hstate q
  · have hfits := hp.fits_hand hhand
    change (s.caller w).Expects (s.state p) at hfits
    rw [hw] at hfits
    exact (congrFun hstate p).trans hfits

/-- A thread inside `wake_up` always has a next step. -/
theorem callerStep (hp : Placed s place) {w : Fin ncaller} (scheduling_alg : Char)
    (hw : s.caller w ≠ .ret) :
    ∃ s' place', s.callerStep scheduling_alg w = some s' ∧ CallerStepSpec s s' w place place' := by
  have hstay : ∀ pc, s.hand (.inr w) = none → pc.hand = none →
      CallerStepSpec s (s.setCaller w pc) w place place := by
    intro pc hnone hnone'
    exact ⟨(Frame.refl s _).setCaller pc, rfl, .stay, hp.setCaller_empty hnone hnone'⟩
  cases hpc : s.caller w with
  | ret => exact absurd hpc hw
  | wakeUp p =>
    exact ⟨_, place, by rw [State.callerStep, hpc], ((Frame.refl s _).setState p _).setCaller _,
      rfl, .stay, hp.step_wakeUp hpc⟩
  | pushToQueue p =>
    have hpc' : (if scheduling_alg = 'l' then Caller.scan p else .ret : Caller ncpu nproc).hand =
        none := by split <;> rfl
    obtain ⟨s₁, hpush, hplaced⟩ := hp.step_callerPush hpc hpc'
    have htime : s₁.time_remaining = s.time_remaining := by
      obtain ⟨q, -, rfl⟩ := Option.map_eq_some_iff.mp hpush
      rfl
    refine ⟨_, _, ?_, (Frame.push _ hpush).setCaller _, htime, .push p hpc, hplaced⟩
    rw [State.callerStep, hpc]
    dsimp only
    rw [hpush]
    rfl
  | scan p =>
    exact ⟨_, place, by rw [State.callerStep, hpc], hstay _ (hand_inr hpc) rfl⟩
  | compare p low_id low =>
    cases low_id with
    | none => exact ⟨_, place, by rw [State.callerStep, hpc], hstay _ (hand_inr hpc) rfl⟩
    | some low_id =>
      refine ⟨_, place, by rw [State.callerStep, hpc], hstay _ (hand_inr hpc) ?_⟩
      split <;> rfl
  | forcePreempt low_id =>
    exact ⟨_, place, by rw [State.callerStep, hpc], hstay _ (hand_inr hpc) rfl⟩

theorem callerStep_spec (hp : Placed s place) {w : Fin ncaller}
    (hs : s.callerStep scheduling_alg w = some s') :
    ∃ place', CallerStepSpec s s' w place place' := by
  have hw : s.caller w ≠ .ret := by
    intro hw
    rw [State.callerStep, hw] at hs
    simp at hs
  obtain ⟨s₁, place', hstep, hspec⟩ := hp.callerStep scheduling_alg hw
  obtain rfl : s₁ = s' := Option.some_inj.mp (hstep.symm.trans hs)
  exact ⟨place', hspec⟩

end Placed

/-! ## Every reachable state -/

theorem placed_initial (hs : Initial s) : Placed s fun _ => .inr .uncreated := by
  have hcpu : ∀ c, s.hand (.inl c) = none := fun c => hand_inl (hs.cpu c)
  have hcaller : ∀ w, s.hand (.inr w) = none := fun w => hand_inr (hs.caller w)
  constructor
  · intro h p
    cases h <;> simp [hcpu, hcaller]
  · exact hs.state
  · exact ⟨[], ⟨hs.head, List.nodup_nil⟩, by simp⟩
  · intro c
    exact currentOk_of_pc (hs.cpu c) (by simp) id

theorem placed_step (hp : Placed s place) {a : Act ncpu nproc ncaller}
    (hs : step scheduling_alg s a = some s') : ∃ place', Placed s' place' := by
  cases a with
  | call c h => exact ⟨place, hp.call hs⟩
  | cpu c =>
    change s.cpuStep scheduling_alg c = some s' at hs
    obtain ⟨place', hspec⟩ := hp.cpuStep_spec hs
    exact ⟨place', hspec.placed⟩
  | spurious c => exact ⟨place, hp.spurious hs⟩
  | callWakeUp w p => exact ⟨_, hp.callWakeUp hs⟩
  | caller w =>
    change s.callerStep scheduling_alg w = some s' at hs
    obtain ⟨place', hspec⟩ := hp.callerStep_spec hs
    exact ⟨place', hspec.placed⟩
  | setTime p time =>
    obtain rfl := Option.some_inj.mp hs
    exact ⟨place, hp.setTime _⟩

theorem Reachable.placed (hs : Reachable scheduling_alg s) : ∃ place, Placed s place := by
  induction hs with
  | initial h => exact ⟨_, placed_initial h⟩
  | step _ hstep ih =>
    obtain ⟨place, hp⟩ := ih
    exact placed_step hp hstep

/-! ## The places, as the threads and the PCBs show them -/

/-- Where a process can be. -/
inductive Place (ncpu ncaller : Nat)
  | uncreated
  | readyList
  | owned (c : Fin ncpu)
  | waitingForIo
  /-- in the hands of `preempt` or `wake_up`, about to be pushed -/
  | pushing (t : Thread ncpu ncaller)
  | terminated

namespace State

/-- The CPU has popped the process and has not pushed it back, yielded or terminated it. -/
def Owns (s : State ncpu nproc ncaller) (c : Fin ncpu) (p : Fin nproc) : Prop :=
  match s.cpu c with
  | .running | .preempt | .yield | .terminate => s.current c = some p
  | .setRunning pcb => pcb = p
  | .setCurrent pcb | .contextSwitch pcb => pcb = some p
  | .pushToQueue _ | .idling | .idle | .condWait | .popFromQueue => False

/-- The process is at the place, when the ready list is `xs`. -/
def At (s : State ncpu nproc ncaller) (xs : List (Fin nproc)) (p : Fin nproc) :
    Place ncpu ncaller → Prop
  | .uncreated => s.state p = .new ∧ ∀ w, s.caller w ≠ .wakeUp p
  | .readyList => p ∈ xs
  | .owned c => s.Owns c p
  | .waitingForIo => s.state p = .waiting ∧ ∀ w, s.caller w ≠ .wakeUp p
  | .pushing (.inl c) => s.cpu c = .pushToQueue p
  | .pushing (.inr w) => s.caller w = .wakeUp p ∨ s.caller w = .pushToQueue p
  | .terminated => s.state p = .terminated

end State

theorem owns_iff {c : Fin ncpu} {p : Fin nproc} :
    s.Owns c p ↔ s.hand (.inl c) = some p ∧ s.cpu c ≠ .pushToQueue p := by
  show _ ↔ (s.cpu c).hand (s.current c) = some p ∧ _
  rw [State.Owns]
  cases s.cpu c <;> simp [Cpu.hand]

/-- The place that shows, for a ghost place. -/
def State.shown (s : State ncpu nproc ncaller) (p : Fin nproc) :
    Thread ncpu ncaller ⊕ Rest → Place ncpu ncaller
  | .inr .uncreated => .uncreated
  | .inr .queued => .readyList
  | .inr .waiting => .waitingForIo
  | .inr .terminated => .terminated
  | .inl (.inl c) => if s.cpu c = .pushToQueue p then .pushing (.inl c) else .owned c
  | .inl (.inr w) => .pushing (.inr w)

theorem Placed.at_iff (hp : Placed s place) {xs : List (Fin nproc)}
    (hxs : ∀ p, p ∈ xs ↔ place p = .inr .queued) (p : Fin nproc) (l : Place ncpu ncaller) :
    s.At xs p l ↔
      match l with
      | .uncreated => place p = .inr .uncreated
      | .readyList => place p = .inr .queued
      | .owned c => place p = .inl (.inl c) ∧ s.cpu c ≠ .pushToQueue p
      | .waitingForIo => place p = .inr .waiting
      | .pushing (.inl c) => place p = .inl (.inl c) ∧ s.cpu c = .pushToQueue p
      | .pushing (.inr w) => place p = .inl (.inr w)
      | .terminated => place p = .inr .terminated := by
  have hnotWoken : ∀ r, place p = .inr r → ∀ w, s.caller w ≠ .wakeUp p := by
    intro r hplace w hw
    have hhand := (hp.keeps (.inr w) p).mp (caller_hand_iff.mpr (.inl hw))
    simp [hplace] at hhand
  have hfits : ∀ r, place p = .inr r → s.state p = r.state := by
    intro r hplace
    have h := hp.fits p
    rw [hplace] at h
    exact h
  match l with
  | .uncreated =>
    exact ⟨fun h => hp.rest_of_state (by simp) h.1 h.2, fun h => ⟨hfits _ h, hnotWoken _ h⟩⟩
  | .readyList => exact hxs p
  | .owned c => exact owns_iff.trans (and_congr_left' (hp.keeps _ p))
  | .waitingForIo =>
    exact ⟨fun h => hp.rest_of_state (by simp) h.1 h.2, fun h => ⟨hfits _ h, hnotWoken _ h⟩⟩
  | .pushing (.inl c) =>
    refine ⟨fun h => ⟨hp.place_eq (hand_inl h), h⟩, fun h => h.2⟩
  | .pushing (.inr w) => exact caller_hand_iff.symm.trans (hp.keeps _ p)
  | .terminated =>
    constructor
    · intro h
      apply hp.rest_of_state (r := .terminated) (by simp) h
      intro w hw
      have hstate := hp.fits_hand (hand_inr hw)
      change (s.caller w).Expects (s.state p) at hstate
      rw [hw, show s.state p = .terminated from h] at hstate
      simp [Caller.Expects] at hstate
    · exact hfits _

theorem Placed.existsUnique_at (hp : Placed s place) {xs : List (Fin nproc)}
    (hxs : ∀ p, p ∈ xs ↔ place p = .inr .queued) (p : Fin nproc) : ∃! l, s.At xs p l := by
  refine ⟨s.shown p (place p), ?_, ?_⟩
  · apply (hp.at_iff hxs p _).mpr
    cases hplace : place p with
    | inl t =>
      cases t with
      | inl c => by_cases hc : s.cpu c = .pushToQueue p <;> simp [State.shown, hc]
      | inr w => rfl
    | inr r => cases r <;> rfl
  · intro l hl
    have hl := (hp.at_iff hxs p l).mp hl
    match l with
    | .uncreated | .readyList | .waitingForIo | .terminated | .pushing (.inr w) =>
      simp only at hl
      rw [hl]
      rfl
    | .owned c =>
      rw [hl.1]
      exact (if_neg hl.2).symm
    | .pushing (.inl c) =>
      rw [hl.1]
      exact (if_pos hl.2).symm

/-- In every reachable state each process is at exactly one place, no two CPUs own the same
process, and the processes in the ready list are ready. -/
theorem one_place (hs : Reachable scheduling_alg s) :
    ∃ xs, s.ready.Holds xs ∧ (∀ p, ∃! l, s.At xs p l) ∧ (∀ p ∈ xs, s.state p = .ready) ∧
      ∀ c c' p, s.Owns c p → s.Owns c' p → c = c' := by
  obtain ⟨place, hp⟩ := hs.placed
  obtain ⟨xs, hholds, hxs⟩ := hp.queue
  refine ⟨xs, hholds, hp.existsUnique_at hxs, ?_, ?_⟩
  · intro p hmem
    have hfits := hp.fits p
    rw [(hxs p).mp hmem] at hfits
    exact hfits
  · intro c c' p hc hc'
    exact Sum.inl_injective (hp.keeps.hand_inj (owns_iff.mp hc).1 (owns_iff.mp hc').1)

/-! ## A run -/

/-- The state after some steps. -/
def run (scheduling_alg : Char) (s : State ncpu nproc ncaller)
    (as : List (Act ncpu nproc ncaller)) : Option (State ncpu nproc ncaller) :=
  as.foldlM (step scheduling_alg) s

theorem Reachable.run (hs : Reachable scheduling_alg s) {as : List (Act ncpu nproc ncaller)}
    (hrun : run scheduling_alg s as = some s') : Reachable scheduling_alg s' := by
  induction as generalizing s with
  | nil =>
    obtain rfl := Option.some_inj.mp hrun
    exact hs
  | cons a as ih =>
    rw [Scheduling.run, List.foldlM_cons] at hrun
    obtain ⟨s₁, hstep, hrest⟩ := Option.bind_eq_some_iff.mp hrun
    exact ih (hs.step hstep) hrest

/-- Two CPUs and two processes, before the first step. -/
def twoCpus : State 2 2 1 where
  ready := ⟨none, fun _ => none⟩
  time_remaining := fun _ => 3
  state := fun _ => .new
  current := fun _ => none
  cpu := fun _ => .idling
  caller := fun _ => .ret

/-- CPU 0 runs process 0 and is preempted; CPU 1 takes the process from the ready list while
`current[0]` still names it. -/
def handOver : List (Act 2 2 1) :=
  [.callWakeUp 0 0, .caller 0, .caller 0, .call 0 .idle, .cpu 0, .cpu 0, .cpu 0, .cpu 0, .cpu 0,
    .call 0 .preempt, .cpu 0, .cpu 0, .call 1 .idle, .cpu 1, .cpu 1]

theorem handOver_isSome : (run 'f' twoCpus handOver).isSome = true := by decide +kernel

def handedOver : State 2 2 1 := (run 'f' twoCpus handOver).get handOver_isSome

theorem handedOver_reachable : Reachable 'f' handedOver :=
  (Reachable.initial ⟨rfl, fun _ => rfl, fun _ => rfl, fun _ => rfl⟩).run
    (Option.some_get handOver_isSome).symm

theorem one_place_handedOver :
    (handedOver.current 0 = some 0 ∧ handedOver.cpu 1 = .setRunning 0) ∧
      ∃ xs, handedOver.ready.Holds xs ∧ (∀ p, ∃! l, handedOver.At xs p l) ∧
        (∀ p ∈ xs, handedOver.state p = .ready) ∧
        ∀ c c' p, handedOver.Owns c p → handedOver.Owns c' p → c = c' :=
  ⟨by decide +kernel, one_place handedOver_reachable⟩

end ECE3056.Scheduling
