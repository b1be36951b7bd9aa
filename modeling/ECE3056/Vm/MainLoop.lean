import ECE3056.Vm.Transparency

/-!
# The page table base register in main's loop

`main` switches the processor only when the process of an access line is not the
current one. START and STOP change a process's page table without touching `PTBR`,
so after a restart of the current process the register may name another table.
-/

namespace ECE3056.Vm

open ECE3056.Fallible

/-- `context_switch(&procs[pid]); current_process = &procs[pid];` -/
def switchTo (s : State) (pid : Nat) : Except Fault State := do
  let s ← contextSwitch s pid
  return { s with currentProcess := some pid }

/-- What `main` does before it calls `mem_access`. -/
def dispatch (s : State) (pid : Nat) : Except Fault State := do
  match s.currentProcess with
  | none => switchTo s pid
  | some current => if (← s.pcb current).pid ≠ pid then switchTo s pid else return s

/-- One line of the trace. -/
def mainStep (s : State) : Op → Except Fault State
  | .start pid => start s pid
  | .stop pid => stop s pid
  | .access pid address rw data => do
    let s ← dispatch s pid
    return (← memAccess s address rw data).2

/-- The variables outside simulated memory that tell where the page table is. -/
def SameRegisters (s s' : State) : Prop :=
  s'.procs = s.procs ∧ s'.PTBR = s.PTBR ∧ s'.currentProcess = s.currentProcess

/-- One line of the trace, where an access beyond the 24 bits of an address, which indexes past
the page table, may do anything to simulated memory. -/
inductive MainStep : State → Op → State → Prop
  | exec {s s' : State} {op : Op} (h : mainStep s op = .ok s') : MainStep s op s'
  | wild {s s₁ s' : State} {pid address : Nat} {rw : Char} {data : UInt8}
      (haddr : 2 ^ 24 ≤ address) (hd : dispatch s pid = .ok s₁) (hr : SameRegisters s₁ s') :
      MainStep s (.access pid address rw data) s'

/-- Processes are started when stopped, and stopped and accessed when running. -/
def Lawful (past : List Op) : Op → Prop
  | .start p => p < maxPid ∧ running past p = false
  | .stop p => running past p
  | .access p _ _ _ => running past p

/-- The lines processed so far, newest first, with the state before each. -/
inductive MainRun (replacement : Replacement) (prng : Nat → Nat) :
    List (State × Op) → State → Prop
  | init : MainRun replacement prng [] (systemInit (.zeroed replacement prng))
  | next {steps : List (State × Op)} {s s' : State} {op : Op} (h : MainRun replacement prng steps s)
      (hl : Lawful (steps.map Prod.snd) op) (hstep : MainStep s op s') :
      MainRun replacement prng ((s, op) :: steps) s'

/-- Since the processor was switched to `p`, every restart of `p` was given the frame that
`PTBR` holds. -/
def tableKept : List (State × Op) → Nat → Prop
  | [], _ => True
  | (s, .start q) :: before, p =>
    if q = p then s.currentProcess = some p → ∃ s', selectVictimFrame s = .ok (s.PTBR, s')
    else tableKept before p
  | (_, .stop _) :: before, p => tableKept before p
  | (_, .access q _ _ _) :: before, p => q = p → tableKept before p

/-! ## What leaves the registers alone -/

variable {s s' : State}

theorem SameRegisters.refl (s : State) : SameRegisters s s := ⟨rfl, rfl, rfl⟩

theorem SameRegisters.trans {t : State} (h : SameRegisters s t) (h' : SameRegisters t s') :
    SameRegisters s s' :=
  ⟨h'.1.trans h.1, h'.2.1.trans h.2.1, h'.2.2.trans h.2.2⟩

theorem setFte_registers {f : Nat} {e : Fte} (h : s.setFte f e = .ok s') : SameRegisters s s' := by
  rw [State.setFte] at h
  split at h
  · obtain rfl := Except.ok.inj h
    exact .refl s
  · simp at h

theorem setFrame_registers {f : Nat} {c : Frame} (h : s.setFrame f c = .ok s') :
    SameRegisters s s' := by
  rw [State.setFrame] at h
  split at h
  · obtain rfl := Except.ok.inj h
    exact .refl s
  · simp at h

theorem setPte_registers {f v : Nat} {e : Pte} (h : s.setPte f v e = .ok s') :
    SameRegisters s s' := by
  rw [State.setPte, bind_eq_ok_iff] at h
  obtain ⟨entries, -, h⟩ := h
  split at h
  · obtain rfl := Except.ok.inj h
    exact .refl s
  · simp at h

theorem writeBack_registers {f : Nat} {e e' : Pte} (h : writeBack s f e = .ok (e', s')) :
    SameRegisters s s' := by
  rw [writeBack] at h
  split at h
  · obtain ⟨page, -, h⟩ := bind_eq_ok_iff.mp h
    obtain ⟨result, -, h⟩ := bind_eq_ok_iff.mp h
    obtain ⟨-, rfl⟩ := Prod.mk.inj (Except.ok.inj h)
    exact .refl s
  · obtain ⟨-, rfl⟩ := Prod.mk.inj (Except.ok.inj h)
    exact .refl s

theorem evict_registers {f : Nat} (h : evict s f = .ok s') : SameRegisters s s' := by
  rw [evict] at h
  obtain ⟨frame, -, h⟩ := bind_eq_ok_iff.mp h
  split at h
  · simp at h
  · obtain ⟨pcb, -, h⟩ := bind_eq_ok_iff.mp h
    obtain ⟨entry, -, h⟩ := bind_eq_ok_iff.mp h
    obtain ⟨⟨entry', s₁⟩, hw, h⟩ := bind_eq_ok_iff.mp h
    obtain ⟨s₂, hp, h⟩ := bind_eq_ok_iff.mp h
    exact (writeBack_registers hw).trans ((setPte_registers hp).trans (setFte_registers h))

theorem selectVictimFrame_registers {f : Nat} (h : selectVictimFrame s = .ok (f, s')) :
    SameRegisters s s' := by
  rcases selectVictimFrame_cases s with hoom | ⟨i, prng, hok, -, -⟩
  · rw [h] at hoom
    simp at hoom
  · rw [h] at hok
    obtain ⟨-, rfl⟩ := Prod.mk.inj (Except.ok.inj hok)
    exact .refl s

/-- `free_frame` hands out the victim. -/
theorem freeFrame_registers {f : Nat} (h : freeFrame s = .ok (f, s')) :
    (∃ t, selectVictimFrame s = .ok (f, t)) ∧ SameRegisters s s' := by
  -- the stores after the eviction
  have hrest : ∀ {i s₂}, (do
      let s ← s₂.setFte i { (← s₂.fte i) with referenced := 0 }
      return (i, s)) = .ok (f, s') → i = f ∧ SameRegisters s₂ s' := by
    intro i s₂ h
    obtain ⟨fte, -, h⟩ := bind_eq_ok_iff.mp h
    obtain ⟨s₃, hset, h⟩ := bind_eq_ok_iff.mp h
    obtain ⟨rfl, rfl⟩ := Prod.mk.inj (Except.ok.inj h)
    exact ⟨rfl, setFte_registers hset⟩
  rw [freeFrame] at h
  obtain ⟨⟨i, s₁⟩, hsel, h⟩ := bind_eq_ok_iff.mp h
  obtain ⟨fte, -, h⟩ := bind_eq_ok_iff.mp h
  have hfirst := selectVictimFrame_registers hsel
  dsimp only at h
  split at h
  · obtain ⟨s₂, hevict, h⟩ := bind_eq_ok_iff.mp h
    obtain ⟨rfl, hlast⟩ := hrest h
    exact ⟨⟨s₁, hsel⟩, hfirst.trans ((evict_registers hevict).trans hlast)⟩
  · obtain ⟨rfl, hlast⟩ := hrest h
    exact ⟨⟨s₁, hsel⟩, hfirst.trans hlast⟩

theorem loadFrame_registers {f : Nat} {e : Pte} (h : loadFrame s f e = .ok s') :
    SameRegisters s s' := by
  rw [loadFrame] at h
  split at h
  · obtain ⟨page, -, h⟩ := bind_eq_ok_iff.mp h
    exact setFrame_registers h
  · exact setFrame_registers h

theorem pageFault_registers {a : Nat} (h : pageFault s a = .ok s') : SameRegisters s s' := by
  rw [pageFault] at h
  split at h
  · simp at h
  · obtain ⟨pcb, -, h⟩ := bind_eq_ok_iff.mp h
    obtain ⟨⟨f, s₁⟩, hfree, h⟩ := bind_eq_ok_iff.mp h
    obtain ⟨entry, -, h⟩ := bind_eq_ok_iff.mp h
    obtain ⟨s₂, hpte, h⟩ := bind_eq_ok_iff.mp h
    obtain ⟨fte, -, h⟩ := bind_eq_ok_iff.mp h
    obtain ⟨s₃, hfte, h⟩ := bind_eq_ok_iff.mp h
    obtain ⟨s₄, hload, h⟩ := bind_eq_ok_iff.mp h
    obtain rfl := Except.ok.inj h
    have hlast : SameRegisters s₃ s₄ := loadFrame_registers hload
    exact (freeFrame_registers hfree).2.trans ((setPte_registers hpte).trans
      ((setFte_registers hfte).trans hlast))

theorem translate_registers {a b : Nat} (h : translate s a = .ok (b, s')) : SameRegisters s s' := by
  -- once the entry is valid
  have hrest : ∀ {s₁ : State}, (do
      let pfn := (← s₁.pte s₁.PTBR (vaddrVpn a)).pfn
      let s ← s₁.setFte pfn { (← s₁.fte pfn) with referenced := 1 }
      return (pfn <<< offsetLen ||| vaddrOffset a, s)) = .ok (b, s') → SameRegisters s₁ s' := by
    intro s₁ h
    obtain ⟨entry, -, h⟩ := bind_eq_ok_iff.mp h
    obtain ⟨fte, -, h⟩ := bind_eq_ok_iff.mp h
    obtain ⟨s₂, hset, h⟩ := bind_eq_ok_iff.mp h
    obtain ⟨-, rfl⟩ := Prod.mk.inj (Except.ok.inj h)
    exact setFte_registers hset
  rw [translate] at h
  obtain ⟨entry, -, h⟩ := bind_eq_ok_iff.mp h
  dsimp only at h
  split at h
  · obtain ⟨s₁, hfault, h⟩ := bind_eq_ok_iff.mp h
    exact (pageFault_registers hfault).trans (hrest h)
  · exact hrest h

theorem memAccess_registers {a : Nat} {rw : Char} {data b : UInt8}
    (h : memAccess s a rw data = .ok (b, s')) : SameRegisters s s' := by
  simp only [memAccess] at h
  obtain ⟨⟨pa, s₁⟩, htr, h⟩ := bind_eq_ok_iff.mp h
  refine (translate_registers htr).trans ?_
  split at h
  · obtain ⟨byte, -, h⟩ := bind_eq_ok_iff.mp h
    obtain ⟨-, rfl⟩ := Prod.mk.inj (Except.ok.inj h)
    exact .refl s₁
  · obtain ⟨s₂, hwrite, h⟩ := bind_eq_ok_iff.mp h
    obtain ⟨entry, -, h⟩ := bind_eq_ok_iff.mp h
    obtain ⟨s₃, hpte, h⟩ := bind_eq_ok_iff.mp h
    obtain ⟨-, rfl⟩ := Prod.mk.inj (Except.ok.inj h)
    rw [State.writeByte] at hwrite
    obtain ⟨page, -, hwrite⟩ := bind_eq_ok_iff.mp hwrite
    have hbyte := setFrame_registers hwrite
    have hlast : SameRegisters s₂ s₃ := setPte_registers hpte
    exact hbyte.trans hlast

theorem cleanupEntry_registers {f i : Nat} (h : cleanupEntry f s i = .ok s') :
    SameRegisters s s' := by
  rw [cleanupEntry] at h
  obtain ⟨entry, -, h⟩ := bind_eq_ok_iff.mp h
  obtain ⟨s₁, hunmap, h⟩ := bind_eq_ok_iff.mp h
  have hfirst : SameRegisters s s₁ := by
    rw [unmapEntry] at hunmap
    split at hunmap
    · obtain ⟨fte, -, hunmap⟩ := bind_eq_ok_iff.mp hunmap
      exact setFte_registers hunmap
    · obtain rfl := Except.ok.inj hunmap
      exact .refl s
  refine hfirst.trans ?_
  split at h
  · obtain ⟨⟨entry', q⟩, -, h⟩ := bind_eq_ok_iff.mp h
    have hlast := setPte_registers h
    exact hlast
  · obtain rfl := Except.ok.inj h
    exact .refl s₁

theorem cleanupLoop_registers {f : Nat} {l : List Nat}
    (h : l.foldlM (cleanupEntry f) s = .ok s') : SameRegisters s s' := by
  induction l generalizing s with
  | nil =>
    obtain rfl := Except.ok.inj h
    exact .refl s
  | cons i l ih =>
    obtain ⟨s₁, hfirst, h⟩ := bind_eq_ok_iff.mp h
    exact (cleanupEntry_registers hfirst).trans (ih h)

/-! ## What each line does to the registers -/

/-- The victim depends on the frame table, the policy and the random numbers only. -/
theorem selectVictimFrame_congr {f : Nat} {t : State} (h : selectVictimFrame s' = .ok (f, t))
    (hft : s'.frameTable = s.frameTable) (hrep : s'.replacement = s.replacement)
    (hprng : s'.prng = s.prng) : ∃ t, selectVictimFrame s = .ok (f, t) := by
  rw [selectVictimFrame, hft, hrep, hprng] at h
  rw [selectVictimFrame]
  split at h
  · obtain ⟨rfl, -⟩ := Prod.mk.inj (Except.ok.inj h)
    exact ⟨s, rfl⟩
  · split at h
    · split at h
      · obtain ⟨rfl, -⟩ := Prod.mk.inj (Except.ok.inj h)
        exact ⟨_, rfl⟩
      · simp at h
    · simp at h

/-- START gives the process the victim of `select_victim_frame` as its page table. -/
theorem start_registers {p : Nat} (h : start s p = .ok s') :
    ∃ f, (∃ t, selectVictimFrame s = .ok (f, t)) ∧
      s'.procs = Function.update s.procs p ⟨p, .running, f⟩ ∧ s'.PTBR = s.PTBR ∧
      s'.currentProcess = s.currentProcess := by
  rw [start] at h
  obtain ⟨pcb, hpcb, h⟩ := bind_eq_ok_iff.mp h
  rw [procInit] at h
  obtain ⟨⟨f, s₁⟩, hfree, h⟩ := bind_eq_ok_iff.mp h
  obtain ⟨s₂, hframe, h⟩ := bind_eq_ok_iff.mp h
  obtain ⟨pcb₂, hpcb₂, h⟩ := bind_eq_ok_iff.mp h
  obtain ⟨fte, -, h⟩ := bind_eq_ok_iff.mp h
  obtain ⟨⟨t, hsel⟩, hfirst⟩ := freeFrame_registers hfree
  obtain ⟨hprocs, hptbr, hcur⟩ := hfirst.trans (setFrame_registers hframe)
  have hlast := setFte_registers h
  refine ⟨f, selectVictimFrame_congr hsel rfl rfl rfl, ?_, hlast.2.1.trans hptbr,
    hlast.2.2.trans hcur⟩
  rw [hlast.1]
  show Function.update s₂.procs p _ = _
  have hp : pcb₂ = ⟨p, .running, pcb.savedPtbr⟩ := by
    rw [State.pcb] at hpcb₂
    split at hpcb₂
    · rw [← Except.ok.inj hpcb₂, hprocs]
      simp [State.setPcb]
    · simp at hpcb₂
  rw [hp, hprocs]
  simp [State.setPcb]

theorem stop_registers {p : Nat} (h : stop s p = .ok s') :
    s'.procs = Function.update s.procs p { s.procs p with savedPtbr := 0, state := .stopped } ∧
      s'.PTBR = s.PTBR ∧ s'.currentProcess = s.currentProcess := by
  rw [stop] at h
  obtain ⟨s₁, hclean, h⟩ := bind_eq_ok_iff.mp h
  rw [procCleanup] at hclean
  obtain ⟨pcb, -, hclean⟩ := bind_eq_ok_iff.mp hclean
  obtain ⟨s₂, hloop, hclean⟩ := bind_eq_ok_iff.mp hclean
  obtain ⟨fte, -, hclean⟩ := bind_eq_ok_iff.mp hclean
  obtain ⟨hprocs, hptbr, hcur⟩ := (cleanupLoop_registers hloop).trans (setFte_registers hclean)
  obtain ⟨pcb₂, hpcb₂, h⟩ := bind_eq_ok_iff.mp h
  obtain rfl := Except.ok.inj h
  refine ⟨?_, hptbr, hcur⟩
  have hp : pcb₂ = s.procs p := by
    rw [State.pcb] at hpcb₂
    split at hpcb₂
    · rw [← Except.ok.inj hpcb₂, hprocs]
    · simp at hpcb₂
  show Function.update s₁.procs p _ = _
  rw [hp, hprocs]

/-- An access leaves the registers as `dispatch` set them. -/
theorem access_registers {p a : Nat} {rw : Char} {data : UInt8}
    (h : MainStep s (.access p a rw data) s') :
    ∃ s₁, dispatch s p = .ok s₁ ∧ SameRegisters s₁ s' := by
  cases h with
  | exec h =>
    obtain ⟨s₁, hd, h⟩ := bind_eq_ok_iff.mp h
    obtain ⟨⟨b, s₂⟩, hacc, h⟩ := bind_eq_ok_iff.mp h
    obtain rfl := Except.ok.inj h
    exact ⟨s₁, hd, memAccess_registers hacc⟩
  | wild _ hd hr => exact ⟨_, hd, hr⟩

/-! ## The register over whole runs -/

variable {replacement : Replacement} {prng : Nat → Nat} {steps : List (State × Op)}

/-- What main's loop keeps true of the registers. -/
structure Registers (steps : List (State × Op)) (s : State) : Prop where
  current_pid : ∀ p, s.currentProcess = some p → p < maxPid ∧ (s.procs p).pid = p
  running_pid : ∀ p, running (steps.map Prod.snd) p → p < maxPid ∧ (s.procs p).pid = p
  /-- The register names the table of the current process unless a restart moved it. -/
  ptbr_iff : ∀ p, running (steps.map Prod.snd) p → s.currentProcess = some p →
    (s.PTBR = (s.procs p).savedPtbr ↔ tableKept steps p)
  kept_of_ne : ∀ p, s.currentProcess ≠ some p → tableKept steps p

/-- `dispatch` keeps the current process, or switches to another one. -/
theorem dispatch_cases
    (hcurrent : ∀ p, s.currentProcess = some p → p < maxPid ∧ (s.procs p).pid = p) {p : Nat}
    (hp : p < maxPid) :
    (s.currentProcess = some p ∧ dispatch s p = .ok s) ∨
      (s.currentProcess ≠ some p ∧
        dispatch s p = .ok { s with PTBR := (s.procs p).savedPtbr, currentProcess := some p }) := by
  have hswitch : switchTo s p =
      .ok { s with PTBR := (s.procs p).savedPtbr, currentProcess := some p } := by
    rw [switchTo, contextSwitch, Realizes.pcb_eq hp]
    rfl
  cases hcur : s.currentProcess with
  | none =>
    right
    refine ⟨by simp, ?_⟩
    rw [dispatch, hcur]
    exact hswitch
  | some c =>
    obtain ⟨hc, hpid⟩ := hcurrent c hcur
    by_cases hcp : c = p
    · subst hcp
      left
      refine ⟨rfl, ?_⟩
      simp only [dispatch, hcur, Realizes.pcb_eq hc, ok_bind]
      rw [if_neg (not_not_intro hpid)]
      rfl
    · right
      refine ⟨by simpa using hcp, ?_⟩
      simp only [dispatch, hcur, Realizes.pcb_eq hc, ok_bind]
      rw [if_pos (by rw [hpid]; exact hcp)]
      exact hswitch

/-- At an access the register is right exactly when the restarts kept the table in place. -/
theorem Registers.current_iff (h : Registers steps s) {p : Nat}
    (hp : running (steps.map Prod.snd) p) :
    (∃ s₁, dispatch s p = .ok s₁ ∧ Current s₁ p) ↔ tableKept steps p := by
  rcases dispatch_cases h.current_pid (h.running_pid p hp).1 with ⟨hcur, hd⟩ | ⟨hcur, hd⟩
  · rw [← h.ptbr_iff p hp hcur, hd]
    constructor
    · intro hex
      obtain ⟨s₁, hs₁, hc⟩ := hex
      obtain rfl := Except.ok.inj hs₁
      exact hc.ptbr
    · intro heq
      exact ⟨s, rfl, hcur, heq⟩
  · rw [hd]
    simp only [h.kept_of_ne p hcur, iff_true]
    exact ⟨_, rfl, rfl, rfl⟩

theorem Registers.start (h : Registers steps s) {p : Nat}
    (hl : Lawful (steps.map Prod.snd) (.start p)) (hstep : start s p = .ok s') :
    Registers ((s, .start p) :: steps) s' := by
  obtain ⟨f, ⟨t, hsel⟩, hprocs, hptbr, hcur⟩ := start_registers hstep
  have hother : ∀ q, q ≠ p → s'.procs q = s.procs q := by
    intro q hq
    rw [hprocs, Function.update_of_ne hq]
  have hsame : s'.procs p = ⟨p, .running, f⟩ := by
    rw [hprocs, Function.update_self]
  constructor
  · intro q hq
    rw [hcur] at hq
    obtain ⟨hlt, hpid⟩ := h.current_pid q hq
    by_cases hqp : q = p
    · subst hqp
      exact ⟨hlt, by rw [hsame]⟩
    · exact ⟨hlt, by rw [hother q hqp, hpid]⟩
  · intro q hq
    by_cases hqp : q = p
    · subst hqp
      exact ⟨hl.1, by rw [hsame]⟩
    · rw [hother q hqp]
      apply h.running_pid
      simpa [running, Ne.symm hqp] using hq
  · intro q hq hqcur
    rw [hcur] at hqcur
    by_cases hqp : q = p
    · subst hqp
      rw [hptbr, hsame, tableKept, if_pos rfl]
      constructor
      · intro heq _
        exact ⟨t, by rw [heq, hsel]⟩
      · intro hkept
        obtain ⟨t', hsel'⟩ := hkept hqcur
        rw [hsel] at hsel'
        exact (Prod.mk.inj (Except.ok.inj hsel')).1.symm
    · rw [hptbr, hother q hqp, tableKept, if_neg (Ne.symm hqp)]
      exact h.ptbr_iff q (by simpa [running, Ne.symm hqp] using hq) hqcur
  · intro q hq
    rw [hcur] at hq
    by_cases hqp : q = p
    · subst hqp
      rw [tableKept, if_pos rfl]
      intro hqcur
      exact absurd hqcur hq
    · rw [tableKept, if_neg (Ne.symm hqp)]
      exact h.kept_of_ne q hq

theorem Registers.stop (h : Registers steps s) {p : Nat} (hstep : stop s p = .ok s') :
    Registers ((s, .stop p) :: steps) s' := by
  obtain ⟨hprocs, hptbr, hcur⟩ := stop_registers hstep
  have hrun : ∀ q, running ((s, .stop p) :: steps |>.map Prod.snd) q →
      q ≠ p ∧ running (steps.map Prod.snd) q := by
    intro q hq
    simpa [running, ne_comm] using hq
  constructor
  · intro q hq
    rw [hcur] at hq
    obtain ⟨hlt, hpid⟩ := h.current_pid q hq
    refine ⟨hlt, ?_⟩
    rw [hprocs]
    by_cases hqp : q = p
    · subst hqp
      simpa using hpid
    · rw [Function.update_of_ne hqp, hpid]
  · intro q hq
    obtain ⟨hqp, hrunq⟩ := hrun q hq
    rw [hprocs, Function.update_of_ne hqp]
    exact h.running_pid q hrunq
  · intro q hq hqcur
    obtain ⟨hqp, hrunq⟩ := hrun q hq
    rw [hptbr, hprocs, Function.update_of_ne hqp]
    exact h.ptbr_iff q hrunq (hcur ▸ hqcur)
  · intro q hq
    exact h.kept_of_ne q (hcur ▸ hq)

theorem Registers.access (h : Registers steps s) {p a : Nat} {rw : Char} {data : UInt8}
    (hl : Lawful (steps.map Prod.snd) (.access p a rw data))
    (hstep : MainStep s (.access p a rw data) s') :
    Registers ((s, .access p a rw data) :: steps) s' := by
  obtain ⟨hp, hpid⟩ := h.running_pid p hl
  obtain ⟨s₁, hd, hprocs, hptbr, hcur⟩ := access_registers hstep
  have hself : tableKept ((s, .access p a rw data) :: steps) p ↔ tableKept steps p := by
    simp [tableKept]
  have hother : ∀ q, q ≠ p → tableKept ((s, .access p a rw data) :: steps) q := by
    intro q hq hpq
    exact absurd hpq.symm hq
  rcases dispatch_cases h.current_pid hp with ⟨hscur, hd'⟩ | ⟨hscur, hd'⟩
  · -- the process is already the current one
    rw [hd] at hd'
    obtain rfl := Except.ok.inj hd'
    rw [hscur] at hcur
    constructor
    · intro q hq
      rw [hprocs]
      exact h.current_pid q (by rw [hscur, ← hcur, hq])
    · rw [hprocs]
      exact h.running_pid
    · intro q hq hqcur
      obtain rfl : p = q := Option.some_inj.mp (hcur.symm.trans hqcur)
      rw [hptbr, hprocs, hself]
      exact h.ptbr_iff p hq hscur
    · intro q hq
      exact hother q fun hqp => hq (by rw [hcur, hqp])
  · -- the processor is switched
    rw [hd] at hd'
    obtain rfl := Except.ok.inj hd'
    constructor
    · intro q hq
      obtain rfl : p = q := Option.some_inj.mp (hcur.symm.trans hq)
      rw [hprocs]
      exact ⟨hp, hpid⟩
    · rw [hprocs]
      exact h.running_pid
    · intro q hq hqcur
      obtain rfl : p = q := Option.some_inj.mp (hcur.symm.trans hqcur)
      rw [hptbr, hprocs, hself]
      simp only [h.kept_of_ne p hscur]
    · intro q hq
      exact hother q fun hqp => hq (by rw [hcur, hqp])

theorem MainRun.registers (h : MainRun replacement prng steps s) : Registers steps s := by
  induction h with
  | init => exact ⟨by simp [systemInit, State.zeroed], by simp [running],
      by simp [running], fun _ _ => trivial⟩
  | @next steps s s' op hrun hl hstep ih =>
    cases op with
    | start p =>
      cases hstep with
      | exec hstep => exact ih.start hl hstep
    | stop p =>
      cases hstep with
      | exec hstep => exact ih.stop hstep
    | access p a rw data => exact ih.access hl hstep

/-! ## Runs of the loop -/

/-- The `while` loop of `main`, recording the state before each line. -/
def mainLoop (steps : List (State × Op)) (s : State) :
    List Op → Except Fault (List (State × Op) × State)
  | [] => .ok (steps, s)
  | op :: trace => do
    let s' ← mainStep s op
    mainLoop ((s, op) :: steps) s' trace

/-- Every line of the trace is lawful where it stands. -/
def LawfulTrace (past : List Op) : List Op → Prop
  | [] => True
  | op :: trace => Lawful past op ∧ LawfulTrace (op :: past) trace

theorem mainLoop_run {trace : List Op} {steps' : List (State × Op)}
    (h : MainRun replacement prng steps s) (hl : LawfulTrace (steps.map Prod.snd) trace)
    (hloop : mainLoop steps s trace = .ok (steps', s')) : MainRun replacement prng steps' s' := by
  induction trace generalizing steps s with
  | nil =>
    obtain ⟨rfl, rfl⟩ := Prod.mk.inj (Except.ok.inj hloop)
    exact h
  | cons op trace ih =>
    obtain ⟨s₁, hstep, hloop⟩ := bind_eq_ok_iff.mp hloop
    exact ih (h.next hl.1 (.exec hstep)) hl.2 hloop

theorem mainLoop_steps {trace : List Op} {steps' : List (State × Op)}
    (hloop : mainLoop steps s trace = .ok (steps', s')) :
    steps'.map Prod.snd = trace.reverse ++ steps.map Prod.snd := by
  induction trace generalizing steps s with
  | nil =>
    obtain ⟨rfl, -⟩ := Prod.mk.inj (Except.ok.inj hloop)
    rfl
  | cons op trace ih =>
    obtain ⟨s₁, -, hloop⟩ := bind_eq_ok_iff.mp hloop
    rw [ih hloop]
    simp

/-! ## The law -/

/-- Every access of a run has this property of the lines before it, the state and the process. -/
def EveryAccess (steps : List (State × Op)) (P : List (State × Op) → State → Nat → Prop) : Prop :=
  ∀ later before s p a rw data, steps = later ++ (s, .access p a rw data) :: before → P before s p

theorem MainRun.prefix {later before : List (State × Op)} {op : Op} {t : State}
    (h : MainRun replacement prng (later ++ (s, op) :: before) t) :
    MainRun replacement prng before s ∧ Lawful (before.map Prod.snd) op := by
  induction later generalizing t with
  | nil =>
    cases h with
    | next h hl _ => exact ⟨h, hl⟩
  | cons step later ih =>
    cases h with
    | next h _ _ => exact ih h

/-- In a run of main's loop `PTBR` and `current_process` are right at every call of `mem_access`
if and only if, before every such call, each restart of the process since the processor was
switched to it was given the frame in `PTBR`; the same holds of the next call. -/
theorem ptbr_follows_iff (h : MainRun replacement prng steps s) :
    (EveryAccess steps (fun _ s p => ∃ s₁, dispatch s p = .ok s₁ ∧ Current s₁ p) ↔
      EveryAccess steps fun before _ p => tableKept before p) ∧
    ∀ p, running (steps.map Prod.snd) p →
      ((∃ s₁, dispatch s p = .ok s₁ ∧ Current s₁ p) ↔ tableKept steps p) := by
  constructor
  · constructor
    · intro hall later before s₀ p a rw data hsteps
      subst hsteps
      obtain ⟨hbefore, hl⟩ := h.prefix
      exact (hbefore.registers.current_iff hl).mp (hall later before s₀ p a rw data rfl)
    · intro hall later before s₀ p a rw data hsteps
      subst hsteps
      obtain ⟨hbefore, hl⟩ := h.prefix
      exact (hbefore.registers.current_iff hl).mpr (hall later before s₀ p a rw data rfl)
  · intro p hp
    exact h.registers.current_iff hp

/-- `free_frame` will hand out the frame in `PTBR`. -/
def keepsFrame (s : State) : Bool :=
  match selectVictimFrame s with
  | .ok (f, _) => f = s.PTBR
  | .error _ => false

theorem keepsFrame_selects (h : keepsFrame s = true) :
    ∃ s', selectVictimFrame s = .ok (s.PTBR, s') := by
  rw [keepsFrame] at h
  split at h
  · rename_i f t hsel
    exact ⟨t, by rw [hsel, of_decide_eq_true h]⟩
  · simp at h

/-- START 1, an access, STOP 1, START 1: the process gets its old frame again. -/
def sameFrameTrace : List Op := [.start 1, .access 1 0 'r' 0, .stop 1, .start 1]

/-- Its next access goes through its new page table, though the processor is not switched. -/
theorem ptbr_follows_restarted : ∃ steps s s₁,
    MainRun .random (fun _ => 0) steps s ∧ steps.map Prod.snd = sameFrameTrace.reverse ∧
      s.currentProcess = some 1 ∧ dispatch s 1 = .ok s₁ ∧ Current s₁ 1 := by
  have hrun : (do
      let result ← mainLoop [] (boot fun _ => 0) sameFrameTrace
      if result.2.currentProcess = some 1 ∧
        result.1.head?.map (fun line : State × Op => keepsFrame line.1) = some true then return
      else throw Fault.undefined).toBool = true := by decide +kernel
  have hlawful : LawfulTrace [] sameFrameTrace := by
    refine ⟨?_, ?_, ?_, ?_, trivial⟩ <;> simp [Lawful, running, maxPid]
  cases hloop : mainLoop [] (boot fun _ => 0) sameFrameTrace with
  | error fault => simp [hloop, Except.toBool] at hrun
  | ok result =>
    obtain ⟨steps, s⟩ := result
    have hsteps : steps.map Prod.snd = sameFrameTrace.reverse := by
      simpa using mainLoop_steps hloop
    have h : MainRun .random (fun _ => 0) steps s := mainLoop_run .init hlawful hloop
    obtain ⟨hcur, hhead⟩ : s.currentProcess = some 1 ∧
        steps.head?.map (fun line : State × Op => keepsFrame line.1) = some true := by
      by_contra hno
      simp [hloop, if_neg hno, Except.toBool] at hrun
    have hkept : tableKept steps 1 := by
      cases steps with
      | nil => trivial
      | cons line before =>
        obtain ⟨t, op⟩ := line
        obtain ⟨rfl, -⟩ : op = .start 1 ∧ _ := List.cons.inj hsteps
        rw [tableKept, if_pos rfl]
        exact fun _ => keepsFrame_selects (Option.some_inj.mp hhead)
    have hrunning : running (steps.map Prod.snd) 1 := by
      rw [hsteps]
      rfl
    obtain ⟨s₁, hd, hc⟩ := ((ptbr_follows_iff h).2 1 hrunning).mpr hkept
    exact ⟨steps, s, s₁, h, hsteps, hcur, hd, hc⟩

/-! ## A restart that moves the table -/

/-- START 1, an access, STOP 1, START 2, START 1: process 2 gets the old frame of process 1,
which is restarted while it is still the current process. -/
def restartTrace : List Op := [.start 1, .access 1 0 'r' 0, .stop 1, .start 2, .start 1]

/-- The next access of process 1 goes through the page table of process 2. -/
theorem ptbr_misses_restart : ∃ steps s s₁,
    MainRun .random (fun _ => 0) steps s ∧ steps.map Prod.snd = restartTrace.reverse ∧
      Lawful (steps.map Prod.snd) (.access 1 0 'r' 0) ∧ dispatch s 1 = .ok s₁ ∧
      s₁.PTBR = (s₁.procs 2).savedPtbr ∧ s₁.PTBR ≠ (s₁.procs 1).savedPtbr := by
  have hrun : (do
      let result ← mainLoop [] (boot fun _ => 0) restartTrace
      let s₁ ← dispatch result.2 1
      if s₁.PTBR = (s₁.procs 2).savedPtbr ∧ s₁.PTBR ≠ (s₁.procs 1).savedPtbr then return
      else throw Fault.undefined).toBool = true := by decide +kernel
  have hlawful : LawfulTrace [] restartTrace := by
    refine ⟨?_, ?_, ?_, ?_, ?_, trivial⟩ <;> simp [Lawful, running, maxPid]
  cases hloop : mainLoop [] (boot fun _ => 0) restartTrace with
  | error fault => simp [hloop, Except.toBool] at hrun
  | ok result =>
    obtain ⟨steps, s⟩ := result
    have hsteps := mainLoop_steps hloop
    cases hd : dispatch s 1 with
    | error fault => simp [hloop, hd, Except.toBool] at hrun
    | ok s₁ =>
      refine ⟨steps, s, s₁, mainLoop_run .init hlawful hloop, by simpa using hsteps, ?_, hd, ?_⟩
      · rw [hsteps]
        rfl
      · by_contra hne
        simp [hloop, hd, if_neg hne, Except.toBool] at hrun

/-! ## Traces without such a restart

The operations so far are listed newest first. -/

section
variable {past : List Op} {op : Op} {G : Layout}

/-- The process that the processor was last switched to. -/
def lastAccessed : List Op → Option Nat
  | [] => none
  | .start _ :: past => lastAccessed past
  | .stop _ :: past => lastAccessed past
  | .access p _ _ _ :: _ => some p

/-- The operation does not start the process accessed last again. -/
def KeepsTable (past : List Op) : Op → Prop
  | .start p => lastAccessed past ≠ some p
  | _ => True

/-- The processor is switched to the process accessed last, and `PTBR` is at its page table. -/
structure InStep (past : List Op) (s : State) : Prop where
  current_eq : s.currentProcess = lastAccessed past
  pid_eq : ∀ p, lastAccessed past = some p → p < maxPid ∧ (s.procs p).pid = p
  ptbr_eq : ∀ p, running past p → lastAccessed past = some p → s.PTBR = (s.procs p).savedPtbr

theorem Serves.pid_eq (h : Serves past s G) {p : Nat} (hp : running past p) :
    p < maxPid ∧ (s.procs p).pid = p := by
  obtain ⟨hmax, hpid, -⟩ := h.realizes.table_of_running p ((h.running_iff p).mpr hp)
  exact ⟨hmax, hpid⟩

theorem inStep_boot (prng : Nat → Nat) : InStep [] (boot prng) where
  current_eq := rfl
  pid_eq p h := by simp [lastAccessed] at h
  ptbr_eq p h := by simp [running] at h

/-- `dispatch` leaves the processor as a context switch would. -/
theorem InStep.dispatch_eq (h : InStep past s) {p : Nat} (hmax : p < maxPid)
    (hp : running past p) :
    dispatch s p = .ok { s with PTBR := (s.procs p).savedPtbr, currentProcess := some p } := by
  rcases dispatch_cases (fun q hq => h.pid_eq q (h.current_eq ▸ hq)) hmax with
    ⟨hcur, hd⟩ | ⟨-, hd⟩
  · have hptbr := h.ptbr_eq p hp (h.current_eq ▸ hcur)
    rw [hd, ← hptbr, ← hcur]
  · exact hd

/-- A line does what the operation does in a processor that is always switched. -/
theorem InStep.mainStep_eq (h : InStep past s) (hserves : Serves past s G) (ha : Allowed past op) :
    mainStep s op = step s op := by
  cases op with
  | start p => rfl
  | stop p => rfl
  | access p address rw data =>
    have hmax := (hserves.pid_eq ha.1).1
    rw [mainStep, h.dispatch_eq hmax ha.1, step, accessAs, contextSwitch, Realizes.pcb_eq hmax]
    rfl

theorem InStep.next (h : InStep past s) (hserves : Serves past s G) (ha : Allowed past op)
    (hkeeps : KeepsTable past op) (hstep : step s op = .ok s') : InStep (op :: past) s' := by
  cases op with
  | start p =>
    obtain ⟨f, -, hprocs, hptbr, hcur⟩ := start_registers hstep
    have hother : ∀ q, lastAccessed past = some q → s'.procs q = s.procs q := by
      intro q hq
      have hne : q ≠ p := by
        rintro rfl
        exact hkeeps hq
      rw [hprocs, Function.update_of_ne hne]
    refine ⟨hcur.trans h.current_eq, ?_, ?_⟩
    · intro q hq
      rw [hother q hq]
      exact h.pid_eq q hq
    · intro q hrun hq
      have hne : p ≠ q := by
        rintro rfl
        exact hkeeps hq
      rw [hother q hq, hptbr]
      exact h.ptbr_eq q (by simpa [running, hne] using hrun) hq
  | stop p =>
    obtain ⟨hprocs, hptbr, hcur⟩ := stop_registers hstep
    refine ⟨hcur.trans h.current_eq, ?_, ?_⟩
    · intro q hq
      obtain ⟨hlt, hpid⟩ := h.pid_eq q hq
      refine ⟨hlt, ?_⟩
      rw [hprocs, Function.update_apply]
      split
      · rename_i heq
        exact heq ▸ hpid
      · exact hpid
    · intro q hrun hq
      obtain ⟨hne, hrun⟩ : p ≠ q ∧ running past q = true := by simpa [running] using hrun
      rw [hprocs, Function.update_of_ne (Ne.symm hne), hptbr]
      exact h.ptbr_eq q hrun hq
  | access p address rw data =>
    obtain ⟨⟨b, t⟩, hacc, heq⟩ := bind_eq_ok_iff.mp hstep
    obtain rfl := Except.ok.inj heq
    obtain ⟨s₁, hswitch, hacc⟩ := bind_eq_ok_iff.mp hacc
    obtain ⟨hmax, hpid⟩ := hserves.pid_eq ha.1
    rw [contextSwitch, Realizes.pcb_eq hmax] at hswitch
    obtain rfl := Except.ok.inj hswitch
    obtain ⟨hprocs, hptbr, hcur⟩ := memAccess_registers hacc
    refine ⟨hcur, ?_, ?_⟩
    · intro q hq
      obtain rfl := Option.some_inj.mp hq
      rw [hprocs]
      exact ⟨hmax, hpid⟩
    · intro q hrun hq
      obtain rfl := Option.some_inj.mp hq
      rw [hptbr, hprocs]

end

end ECE3056.Vm
