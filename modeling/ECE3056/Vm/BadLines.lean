import ECE3056.Vm.SoundSteps

/-!
# Lines that main does not check

`main` looks neither at the number of a process nor at its state nor at the width
of an address. `LineOk` says of the state in front of a line when this does no
harm to simulated memory, whether or not the pages still have the right contents.
-/

namespace ECE3056.Vm

open ECE3056.Fallible

variable {s s' : State} {live : Nat → Nat → Prop} {p : Nat}

/-! ## One line -/

/-- An access that `main` hands on with `PTBR` at another table than that of its process. -/
def Stale (s : State) : Op → Prop
  | .access p _ _ _ => s.currentProcess = some p ∧ s.PTBR ≠ (s.procs p).savedPtbr
  | _ => False

/-- The process is one of `procs`, and has a page table where one is used; an address lies within
it; and a frame that has to be taken from a process is taken from one with a page table. -/
def LineOk (s : State) : Op → Prop
  | .start p => p < maxPid ∧ ¬ OrphanVictim s
  | .stop p => p < maxPid ∧ (s.procs p).savedPtbr ≠ 0
  | .access p address rw data => p < maxPid ∧ (s.procs p).savedPtbr ≠ 0 ∧
    ¬ Stale s (.access p address rw data) ∧ vaddrVpn address < numPages ∧
      ∀ e, s.pte (s.procs p).savedPtbr (vaddrVpn address) = .ok e → e.valid = 0 → ¬ OrphanVictim s

/-- The indices that a line brings with it are in range, and the page table of an access, to which
`PTBR` still points, is not in frame 0. -/
def InRange (s' : State) : Op → Prop
  | .start p => p < maxPid
  | .stop p => p < maxPid
  | .access p address _ _ => p < maxPid ∧ vaddrVpn address < numPages ∧ s'.PTBR ≠ 0

/-- `main` panics in this line, or carries it out with frame 0 protected, without an index out of
range and without a page table in frame 0. The frame table taken for a page table is `undefined`
here, so a line that does this is never counted as safe, whatever `main` makes of its bytes. -/
def LineSafe (s : State) (op : Op) : Prop :=
  (∃ message, mainStep s op = .error (.panic message)) ∨
    ∃ s', mainStep s op = .ok s' ∧ (s'.frameTable 0).isProtected ≠ 0 ∧ InRange s' op

theorem Sound.dispatch_eq (h : Sound.Whole s) (hp : p < maxPid) {address : Nat} {rw : Char}
    {data : UInt8} (hst : ¬ Stale s (.access p address rw data)) :
    dispatch s p = .ok { s with PTBR := (s.procs p).savedPtbr, currentProcess := some p } := by
  rcases dispatch_cases h.current hp with ⟨hcur, hd⟩ | ⟨-, hd⟩
  · have hptbr : s.PTBR = (s.procs p).savedPtbr := by
      by_contra hne
      exact hst ⟨hcur, hne⟩
    rw [hd, ← hptbr, ← hcur]
  · exact hd

theorem Sound.line_ends (h : Sound.Whole s) {op : Op} (hok : LineOk s op) :
    Ends Fault.Exits (mainStep s op) fun s' => Sound.Whole s' ∧ InRange s' op := by
  cases op with
  | start p => exact (h.start_ends hok.1 hok.2).mono fun s' _ hs' => ⟨hs', hok.1⟩
  | stop p => exact (h.stop_ends hok.2).mono fun s' _ hs' => ⟨hs', hok.1⟩
  | access p address rw data =>
    obtain ⟨hp, htable, hst, hv, ho⟩ := hok
    let s₁ : State := { s with PTBR := (s.procs p).savedPtbr, currentProcess := some p }
    have h₁ : Sound.Whole s₁ := by
      refine h.congr (fun _ => .of_eq rfl rfl) rfl ?_ h.queue
      intro q hq
      obtain rfl : p = q := Option.some_inj.mp hq
      exact ⟨hp, (h.table p htable).2.1⟩
    have ho₁ : ∀ e, s₁.pte (s₁.procs p).savedPtbr (vaddrVpn address) = .ok e → e.valid = 0 →
        ¬ OrphanVictim s₁ := by
      intro e he hval horphan
      exact ho e he hval (horphan.congr rfl rfl rfl fun _ => rfl)
    rw [mainStep, h.dispatch_eq hp hst, ok_bind]
    refine (h₁.memAccess_ends ⟨rfl, rfl⟩ htable hv ho₁).bind ?_
    rintro ⟨b, s'⟩ ⟨hs', -, hptbr, -⟩
    exact .ok ⟨hs', hp, hv, hptbr.trans_ne htable⟩

/-- A line that meets the condition is safe. -/
theorem Sound.lineSafe (h : Sound.Whole s) {op : Op} (hok : LineOk s op) : LineSafe s op := by
  rcases h.line_ends hok with ⟨e, hrun, he⟩ | ⟨s', hrun, hs', hrange⟩
  · cases e with
    | panic message => exact .inl ⟨message, hrun⟩
    | undefined => exact he.elim
    | diverges => exact he.elim
  · exact .inr ⟨s', hrun, hs'.zero_protected, hrange⟩

/-! ## Every trace -/

theorem sound_boot (replacement : Replacement) (prng : Nat → Nat) :
    Sound.Whole (systemInit (.zeroed replacement prng)) where
  mem_zero := rfl
  zero_protected := by simp [systemInit]
  table p hp := absurd rfl hp
  table_inj p q hp := absurd rfl hp
  entry p entries v ht := absurd rfl ht.ne_zero
  frame f hf hprot hmap := by
    by_cases hzero : f = 0
    · subst hzero
      simp [systemInit] at hprot
    · simp [systemInit, State.zeroed, hzero] at hmap
  current p hp := by simp [systemInit, State.zeroed] at hp
  queue := ⟨[], SwapQueue.represents_empty⟩

theorem mem_mainLoop {steps steps' : List (State × Op)} {trace : List Op}
    (hloop : mainLoop steps s trace = .ok (steps', s')) : ∀ line ∈ steps, line ∈ steps' := by
  induction trace generalizing steps s with
  | nil =>
    obtain ⟨rfl, -⟩ := Prod.mk.inj (Except.ok.inj hloop)
    exact fun _ h => h
  | cons op trace ih =>
    obtain ⟨s₁, -, hloop⟩ := bind_eq_ok_iff.mp hloop
    exact fun line h => ih hloop line (List.mem_cons_of_mem _ h)

/-- Lines that meet the condition lead from sound memory to sound memory. -/
theorem Sound.mainLoop {steps steps' : List (State × Op)} {trace : List Op} (h : Sound.Whole s)
    (hloop : mainLoop steps s trace = .ok (steps', s'))
    (hsafe : ∀ t op, (t, op) ∈ steps → LineSafe t op)
    (hok : ∀ t op, (t, op) ∈ steps' → LineOk t op) :
    (∀ t op, (t, op) ∈ steps' → LineSafe t op) ∧ Sound.Whole s' := by
  induction trace generalizing steps s with
  | nil =>
    obtain ⟨rfl, rfl⟩ := Prod.mk.inj (Except.ok.inj hloop)
    exact ⟨hsafe, h⟩
  | cons op trace ih =>
    obtain ⟨s₁, hstep, hloop⟩ := bind_eq_ok_iff.mp hloop
    have hline : LineOk s op := hok s op (mem_mainLoop hloop _ (List.mem_cons_self ..))
    have h₁ : Sound.Whole s₁ := by
      rcases h.line_ends hline with ⟨e, hrun, -⟩ | ⟨t, hrun, ht, -⟩
      · rw [hstep] at hrun
        simp at hrun
      · rw [hstep] at hrun
        obtain rfl := Except.ok.inj hrun
        exact ht
    refine ih h₁ hloop ?_
    intro t op' hmem
    rcases List.mem_cons.mp hmem with heq | hmem
    · obtain ⟨rfl, rfl⟩ := Prod.mk.inj heq
      exact h.lineSafe hline
    · exact hsafe t op' hmem

/-- When all lines of a trace so far meet the condition, they have all been safe, and so is the
next line if it meets the condition too. -/
theorem trace_lines_safe {replacement : Replacement} {prng : Nat → Nat} {trace : List Op}
    {steps : List (State × Op)}
    (hloop : mainLoop [] (systemInit (.zeroed replacement prng)) trace = .ok (steps, s))
    (hok : ∀ t op, (t, op) ∈ steps → LineOk t op) :
    (∀ t op, (t, op) ∈ steps → LineSafe t op) ∧ ∀ op, LineOk s op → LineSafe s op := by
  obtain ⟨hsafe, h⟩ := (sound_boot replacement prng).mainLoop hloop (by simp) hok
  exact ⟨hsafe, fun op hline => h.lineSafe hline⟩

theorem not_orphanVictim (hfree : (firstFree s.frameTable).isSome) : ¬ OrphanVictim s := by
  obtain ⟨i, hi⟩ := Option.isSome_iff_exists.mp hfree
  rintro ⟨f, t, p, hsel, hmap, -⟩
  rw [selectVictimFrame, hi] at hsel
  obtain ⟨rfl, -⟩ := Prod.mk.inj (Except.ok.inj hsel)
  have hprop := List.find?_some hi
  simp only [decide_eq_true_eq] at hprop
  rw [hprop.2] at hmap
  exact absurd hmap (by decide)

/-- The line meets the condition, and a frame is free. -/
def allows (s : State) : Op → Bool
  | .start p => p < maxPid ∧ (firstFree s.frameTable).isSome
  | .stop p => p < maxPid ∧ (s.procs p).savedPtbr ≠ 0
  | .access p address _ _ => p < maxPid ∧ (s.procs p).savedPtbr ≠ 0 ∧
    (s.currentProcess = some p → s.PTBR = (s.procs p).savedPtbr) ∧
      vaddrVpn address < numPages ∧ (firstFree s.frameTable).isSome

theorem lineOk_of_allows {op : Op} (h : allows s op = true) : LineOk s op := by
  cases op with
  | start p =>
    obtain ⟨hp, hfree⟩ := of_decide_eq_true h
    exact ⟨hp, not_orphanVictim hfree⟩
  | stop p =>
    obtain ⟨hp, htable⟩ := of_decide_eq_true h
    exact ⟨hp, htable⟩
  | access p address rw data =>
    obtain ⟨hp, htable, hptbr, hv, hfree⟩ := of_decide_eq_true h
    exact ⟨hp, htable, fun hst => hst.2 (hptbr hst.1), hv, fun _ _ _ => not_orphanVictim hfree⟩

/-- Process 1 is started twice, accessed and stopped, while process 2 runs. -/
def startTwiceTrace : List Op :=
  [.start 1, .start 1, .access 1 5 'w' 7, .start 2, .access 2 5 'r' 0, .stop 1]

theorem trace_lines_safe_startTwice : ∃ steps s,
    mainLoop [] (systemInit (.zeroed .random fun _ => 0)) startTwiceTrace = .ok (steps, s) ∧
      steps.map Prod.snd = startTwiceTrace.reverse ∧ ∀ t op, (t, op) ∈ steps → LineSafe t op := by
  have hrun : (do
      let result ← mainLoop [] (systemInit (.zeroed .random fun _ => 0)) startTwiceTrace
      if result.1.all fun line => allows line.1 line.2 then return
      else throw Fault.undefined).toBool = true := by decide +kernel
  cases hloop : mainLoop [] (systemInit (.zeroed .random fun _ => 0)) startTwiceTrace with
  | error fault => simp [hloop, Except.toBool] at hrun
  | ok result =>
    obtain ⟨steps, s⟩ := result
    have hall : (steps.all fun line => allows line.1 line.2) = true := by
      by_contra hno
      simp [hloop, if_neg hno, Except.toBool] at hrun
    refine ⟨steps, s, rfl, by simpa using mainLoop_steps hloop, (trace_lines_safe hloop ?_).1⟩
    exact fun t op hmem => lineOk_of_allows (List.all_eq_true.mp hall (t, op) hmem)

theorem not_lineSafe {op : Op} (h : mainStep s op = .error .undefined) : ¬ LineSafe s op := by
  rintro (⟨message, hrun⟩ | ⟨s', hrun, -⟩)
  · rw [h] at hrun
    simp at hrun
  · rw [h] at hrun
    simp at hrun

/-- The first line of a trace is an access of process 5, which has not been started: it goes
through a page table in frame 0, where the frame table is. A STOP of the process cleans up the
same table, and a START of process 800 takes an index that `procs` does not have. -/
theorem trace_line_unsafe :
    (∃ s₁, dispatch (boot fun _ => 0) 5 = .ok s₁ ∧ s₁.PTBR = 0 ∧ s₁.mem 0 = .frameTable ∧
      s₁.frameTablePtr = some 0) ∧ ¬ LineSafe (boot fun _ => 0) (.access 5 0 'r' 0) ∧
    (((boot fun _ => 0).procs 5).savedPtbr = 0 ∧ ¬ LineSafe (boot fun _ => 0) (.stop 5)) ∧
    ¬ 800 < maxPid ∧ ¬ LineSafe (boot fun _ => 0) (.start 800) := by
  have hdispatch : ∃ s₁, dispatch (boot fun _ => 0) 5 = .ok s₁ ∧ s₁.PTBR = 0 ∧
      s₁.mem 0 = .frameTable ∧ s₁.frameTablePtr = some 0 := ⟨_, rfl, rfl, rfl, rfl⟩
  have hstart : mainStep (boot fun _ => 0) (.start 800) = .error .undefined := by
    rw [mainStep, start, State.pcb, if_neg (by decide)]
    rfl
  have haccess : mainStep (boot fun _ => 0) (.access 5 0 'r' 0) = .error .undefined := by
    obtain ⟨s₁, hd, hptbr, hmem, -⟩ := hdispatch
    have hpte : s₁.pte s₁.PTBR (vaddrVpn 0) = .error .undefined := by
      rw [hptbr, State.pte, State.pageTable, if_pos (by decide), hmem]
      rfl
    rw [mainStep, hd, ok_bind, memAccess, translate, hpte]
    rfl
  have hzero : ((boot fun _ => 0).procs 5).savedPtbr = 0 := rfl
  refine ⟨hdispatch, not_lineSafe haccess, ⟨hzero, not_lineSafe ?_⟩, by decide,
    not_lineSafe hstart⟩
  -- the first entry that `proc_cleanup` reads is one of the frame table
  have hfirst : cleanupEntry 0 (boot fun _ => 0) 0 = .error .undefined := rfl
  have hloop : (List.range numPages).foldlM (cleanupEntry 0) (boot fun _ => 0) =
      .error .undefined := by
    rw [show numPages = 1023 + 1 from rfl, List.range_succ_eq_map, List.foldlM_cons, hfirst]
    rfl
  rw [mainStep, stop, procCleanup, Realizes.pcb_eq (by decide), ok_bind]
  dsimp only
  rw [hzero, hloop]
  rfl

end ECE3056.Vm
