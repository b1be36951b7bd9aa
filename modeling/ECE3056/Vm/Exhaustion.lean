import ECE3056.Library.Tally
import ECE3056.Vm.Victim

/-!
# When memory runs out

Every running process keeps one frame for its page table, and frame 0 holds the frame
table; all other frames can be evicted. So whether a sequence of operations completes
depends on the number of processes that run, and on nothing else.
-/

namespace ECE3056.Vm

open ECE3056.Fallible ECE3056.Tally

variable {s : State} {past : List Op} {prng : Nat → Nat}

/-! ## Where the panic comes from

`E` is a kind of errors with all but the panic of `select_victim_frame`. -/

variable {E : Fault → Prop}

section Ends
variable (hE : ∀ e, e ≠ outOfMemory → E e)
include hE

theorem ends_undefined {α : Type} {P : α → Prop} : Ends E (.error .undefined) P :=
  .error (hE _ (by simp [outOfMemory]))

theorem ends_if {α : Type} {P : α → Prop} {c : Prop} [Decidable c] {a : α} (ha : P a) :
    Ends E (if c then .ok a else .error .undefined) P := by
  split
  · exact .ok ha
  · exact ends_undefined hE

theorem pcb_ends (p : Nat) : Ends E (s.pcb p) fun _ => True := ends_if hE trivial

theorem fte_ends (f : Nat) : Ends E (s.fte f) fun _ => True := ends_if hE trivial

theorem setFte_ends (f : Nat) (e : Fte) :
    Ends E (s.setFte f e) fun s' => s'.replacement = s.replacement := ends_if hE rfl

theorem setFrame_ends (f : Nat) (contents : Frame) :
    Ends E (s.setFrame f contents) fun s' => s'.replacement = s.replacement := ends_if hE rfl

theorem pageTable_ends (f : Nat) : Ends E (s.pageTable f) fun _ => True := by
  rw [State.pageTable]
  split
  · split
    · exact .ok trivial
    · exact ends_undefined hE
  · exact ends_undefined hE

theorem pte_ends (f v : Nat) : Ends E (s.pte f v) fun _ => True :=
  (pageTable_ends hE f).bind fun _ _ => ends_if hE trivial

theorem setPte_ends (f v : Nat) (e : Pte) :
    Ends E (s.setPte f v e) fun s' => s'.replacement = s.replacement :=
  (pageTable_ends hE f).bind fun _ _ => ends_if hE rfl

theorem page_ends (f : Nat) : Ends E (s.page f) fun _ => True := by
  rw [State.page]
  split
  · split
    · exact .ok trivial
    · exact ends_undefined hE
  · exact ends_undefined hE

theorem deref_ends (q : SwapQueue) (a : Nat) : Ends E (q.deref a) fun _ => True := by
  rw [SwapQueue.deref]
  split
  · exact .ok trivial
  · exact ends_undefined hE

theorem setNext_ends (q : SwapQueue) (a : Nat) (next : Option Nat) :
    Ends E (q.setNext a next) fun _ => True :=
  (deref_ends hE q a).bind fun _ _ => .ok trivial

theorem setPageData_ends (q : SwapQueue) (a : Nat) (page : Page) :
    Ends E (q.setPageData a page) fun _ => True :=
  (deref_ends hE q a).bind fun _ _ => .ok trivial

theorem swapQueueFind_ends (q : SwapQueue) (token : Nat) :
    Ends E (swapQueueFind q token) fun _ => True := by
  rw [swapQueueFind]
  generalize q.TOKEN = fuel, q.head = curr
  induction fuel generalizing curr with
  | zero =>
    cases curr with
    | none => exact .ok trivial
    | some curr => exact .error (hE _ (by simp [outOfMemory]))
  | succ fuel ih =>
    cases curr with
    | none => exact .ok trivial
    | some curr =>
      rw [findLoop]
      refine (deref_ends hE q curr).bind fun info _ => ?_
      split
      · exact .ok trivial
      · exact ih info.next

theorem swapQueueEnqueue_ends (q : SwapQueue) (info : Nat) :
    Ends E (swapQueueEnqueue q info) fun _ => True := by
  rw [swapQueueEnqueue]
  refine (setNext_ends hE q info none).bind fun q _ => ?_
  dsimp only
  split
  · exact .ok trivial
  · exact ends_undefined hE
  · refine Ends.bind (P := fun _ => True) ?_ fun _ _ => .ok trivial
    exact (setNext_ends hE q _ _).mono fun _ _ _ => trivial

theorem swapRead_ends (q : SwapQueue) (e : Pte) : Ends E (swapRead q e) fun _ => True := by
  rw [swapRead]
  refine (swapQueueFind_ends hE q e.swap).bind fun found _ => ?_
  cases found with
  | none => exact .error (hE _ (by simp [outOfMemory]))
  | some info => exact (deref_ends hE q info).bind fun _ _ => .ok trivial

theorem swapWrite_ends (q : SwapQueue) (e : Pte) (src : Page) :
    Ends E (swapWrite q e src) fun _ => True := by
  rw [swapWrite]
  refine (swapQueueFind_ends hE q e.swap).bind fun found _ => ?_
  cases found with
  | none =>
    refine (swapQueueEnqueue_ends hE _ _).bind fun q _ => ?_
    refine (deref_ends hE q _).bind fun _ _ => ?_
    exact (setPageData_ends hE q _ src).bind fun _ _ => .ok trivial
  | some info => exact (setPageData_ends hE q info src).bind fun _ _ => .ok trivial

theorem writeBack_ends (f : Nat) (e : Pte) :
    Ends E (writeBack s f e) fun r => r.2.replacement = s.replacement := by
  rw [writeBack]
  split
  · refine (page_ends hE f).bind fun page _ => ?_
    exact (swapWrite_ends hE s.swapQueue e page).bind fun _ _ => .ok rfl
  · exact .ok rfl

theorem evict_ends (f : Nat) : Ends E (evict s f) fun s' => s'.replacement = s.replacement := by
  rw [evict]
  refine (fte_ends hE f).bind fun frame _ => ?_
  dsimp only
  split
  · exact ends_undefined hE
  · refine (pcb_ends hE _).bind fun pcb _ => ?_
    refine (pte_ends hE pcb.savedPtbr frame.vpn).bind fun entry _ => ?_
    refine (writeBack_ends hE f entry).bind ?_
    rintro ⟨e, s₁⟩ h₁
    refine (setPte_ends hE pcb.savedPtbr frame.vpn _).bind fun s₂ h₂ => ?_
    exact (setFte_ends hE f _).mono fun s₃ _ h₃ => h₃.trans (h₂.trans h₁)

end Ends

/-- Victim selection is safe when its panic is allowed, or when there is something to select. -/
def Selects (E : Fault → Prop) (s : State) : Prop :=
  E outOfMemory ∨ s.replacement = .random ∧ ∃ i, Unprotected s.frameTable i

section Frames
variable (hE : ∀ e, e ≠ outOfMemory → E e)
include hE

theorem freeFrame_ends (h : Selects E s) :
    Ends E (freeFrame s) fun r => r.2.replacement = s.replacement := by
  have hsel : Ends E (selectVictimFrame s) fun r => r.2.replacement = s.replacement := by
    rcases selectVictimFrame_cases s with hoom | ⟨i, prng, hsel, -⟩
    · rcases h with hE' | ⟨hrep, hex⟩
      · rw [hoom]
        exact .error hE'
      · exact absurd hex (selectVictimFrame_random hrep hoom)
    · rw [hsel]
      exact .ok rfl
  refine hsel.bind ?_
  rintro ⟨f, s₁⟩ h₁
  refine (fte_ends hE f).bind fun frame _ => ?_
  have hrest : ∀ s₂ : State, s₂.replacement = s₁.replacement →
      Ends E (do
        let s ← s₂.setFte f { (← s₂.fte f) with referenced := 0 }
        return (f, s)) fun r => r.2.replacement = s.replacement := by
    intro s₂ h₂
    refine (fte_ends hE f).bind fun _ _ => ?_
    exact (setFte_ends hE f _).bind fun s₃ h₃ => .ok (h₃.trans (h₂.trans h₁))
  dsimp only
  split
  · exact (evict_ends hE f).bind hrest
  · exact hrest s₁ rfl

theorem pageFault_ends (h : Selects E s) (address : Nat) :
    Ends E (pageFault s address) fun s' => s'.replacement = s.replacement := by
  rw [pageFault]
  split
  · exact ends_undefined hE
  · refine (pcb_ends hE _).bind fun pcb _ => ?_
    refine (freeFrame_ends hE h).bind ?_
    rintro ⟨f, s₁⟩ h₁
    refine (pte_ends hE pcb.savedPtbr _).bind fun entry _ => ?_
    refine (setPte_ends hE pcb.savedPtbr _ _).bind fun s₂ h₂ => ?_
    refine (fte_ends hE f).bind fun frame _ => ?_
    refine (setFte_ends hE f _).bind fun s₃ h₃ => ?_
    have hload : ∀ e, Ends E (loadFrame s₃ f e) fun s₄ => s₄.replacement = s₃.replacement := by
      intro e
      rw [loadFrame]
      split
      · exact (swapRead_ends hE _ e).bind fun _ _ => setFrame_ends hE f _
      · exact setFrame_ends hE f _
    exact (hload _).bind fun s₄ h₄ => .ok (h₄.trans (h₃.trans (h₂.trans h₁)))

theorem memAccess_ends (h : Selects E s) (address : Nat) (rw : Char) (data : UInt8) :
    Ends E (memAccess s address rw data) fun r => r.2.replacement = s.replacement := by
  have htranslate : Ends E (translate s address) fun r => r.2.replacement = s.replacement := by
    rw [translate]
    refine (pte_ends hE _ _).bind fun entry _ => ?_
    have hrest : ∀ s₁ : State, s₁.replacement = s.replacement →
        Ends E (do
          let pfn := (← s₁.pte s₁.PTBR (vaddrVpn address)).pfn
          let s ← s₁.setFte pfn { (← s₁.fte pfn) with referenced := 1 }
          return (pfn <<< offsetLen ||| vaddrOffset address, s))
          fun r => r.2.replacement = s.replacement := by
      intro s₁ h₁
      refine (pte_ends hE _ _).bind fun entry _ => ?_
      refine (fte_ends hE _).bind fun frame _ => ?_
      exact (setFte_ends hE _ _).bind fun s₂ h₂ => .ok (h₂.trans h₁)
    dsimp only
    split
    · exact (pageFault_ends hE h address).bind hrest
    · exact hrest s rfl
  rw [memAccess]
  refine htranslate.bind ?_
  rintro ⟨physicalAddress, s₁⟩ h₁
  dsimp only
  split
  · refine Ends.bind (P := fun _ => True) ?_ fun _ _ => .ok h₁
    exact (page_ends hE _).bind fun _ _ => .ok trivial
  · refine ((page_ends hE _).bind fun _ _ => setFrame_ends hE _ _).bind fun s₂ h₂ => ?_
    refine (pte_ends hE _ _).bind fun entry _ => ?_
    exact (setPte_ends hE _ _ _).bind fun s₃ h₃ => .ok (h₃.trans (h₂.trans h₁))

theorem start_ends (h : Selects E s) (p : Nat) :
    Ends E (start s p) fun s' => s'.replacement = s.replacement := by
  rw [start]
  refine (pcb_ends hE p).bind fun pcb _ => ?_
  rw [procInit]
  refine (freeFrame_ends hE (s := s.setPcb p _) h).bind ?_
  rintro ⟨f, s₁⟩ h₁
  refine (setFrame_ends hE f _).bind fun s₂ h₂ => ?_
  refine (pcb_ends hE p).bind fun pcb _ => ?_
  refine (fte_ends hE f).bind fun frame _ => ?_
  exact (setFte_ends hE f _).mono fun s₃ _ h₃ => h₃.trans (h₂.trans h₁)

end Frames

/-- STOP never selects a victim. -/
theorem stop_ends (p : Nat) :
    Ends (fun _ => True) (stop s p) fun s' => s'.replacement = s.replacement := by
  have hE : ∀ e, e ≠ outOfMemory → True := fun _ _ => trivial
  have hentry : ∀ (ptbr i : Nat) (s₁ : State), Ends (fun _ => True) (cleanupEntry ptbr s₁ i)
      fun s₂ => s₂.replacement = s₁.replacement := by
    intro ptbr i s₁
    refine (pte_ends hE ptbr i).bind fun entry _ => ?_
    have hunmap : Ends (fun _ => True) (unmapEntry s₁ entry)
        fun s₂ => s₂.replacement = s₁.replacement := by
      rw [unmapEntry]
      split
      · exact (fte_ends hE _).bind fun _ _ => setFte_ends hE _ _
      · exact .ok rfl
    refine hunmap.bind fun s₂ h₂ => ?_
    split
    · refine (Ends.total _).bind fun r _ => ?_
      exact (setPte_ends hE ptbr i r.1).mono fun _ _ h₃ => h₃.trans h₂
    · exact .ok h₂
  have hcleanup : Ends (fun _ => True) (procCleanup s p)
      fun s' => s'.replacement = s.replacement := by
    rw [procCleanup]
    refine (pcb_ends hE p).bind fun pcb _ => ?_
    have hloop := Ends.foldlM_range (E := fun _ => True) (cleanupEntry pcb.savedPtbr)
      (fun _ s₁ => s₁.replacement = s.replacement) numPages
      (fun i s₁ _ h₁ => (hentry pcb.savedPtbr i s₁).mono fun _ _ h₂ => h₂.trans h₁) rfl
    refine hloop.bind fun s₁ h₁ => ?_
    refine (fte_ends hE pcb.savedPtbr).bind fun frame _ => ?_
    exact (setFte_ends hE pcb.savedPtbr _).mono fun s₂ _ h₂ => h₂.trans h₁
  refine hcleanup.bind fun s₁ h₁ => ?_
  exact (pcb_ends hE p).bind fun pcb _ => .ok h₁

/-- The operation needs a frame to be selected, at most. -/
theorem step_ends (hE : ∀ e, e ≠ outOfMemory → E e) (h : Selects E s) {op : Op}
    (hop : ∀ p, op ≠ .stop p) : Ends E (step s op) fun s' => s'.replacement = s.replacement := by
  cases op with
  | start p => exact start_ends hE h p
  | stop p => exact absurd rfl (hop p)
  | access p address rw data =>
    refine Ends.bind (P := fun r => r.2.replacement = s.replacement) ?_ fun r hr => .ok hr
    refine Ends.bind (P := fun s₁ : State => s₁.replacement = s.replacement ∧
      s₁.frameTable = s.frameTable) ?_ fun s₁ hs₁ => ?_
    · exact (pcb_ends hE p).bind fun pcb _ => .ok ⟨rfl, rfl⟩
    · refine (memAccess_ends hE (s := { s₁ with currentProcess := some p }) ?_ _ _ _).mono
        fun r _ hr => hr.trans hs₁.1
      rw [Selects]
      dsimp only
      rw [hs₁.1, hs₁.2]
      exact h

theorem Reachable.replacement_eq (h : Reachable prng past s) : s.replacement = .random := by
  induction h with
  | boot => rfl
  | @next past s s' op hs ha hstep ih =>
    have hends : Ends (fun _ => True) (step s op) fun s' => s'.replacement = s.replacement := by
      cases op with
      | stop p => exact stop_ends p
      | start | access => exact step_ends (fun _ _ => trivial) (.inl trivial) (by simp)
    rcases hends with ⟨e, herr, -⟩ | ⟨s₂, hok, heq⟩
    · simp [hstep] at herr
    · obtain rfl := Except.ok.inj (hstep.symm.trans hok)
      exact heq.trans ih

/-! ## How many frames are protected -/

/-- The pids. It is irreducible, so that nothing lists them. -/
@[irreducible] def pids : Finset Nat := Finset.range maxPid

theorem mem_pids {p : Nat} : p ∈ pids ↔ p < maxPid := by
  rw [pids, Finset.mem_range]

/-- How many processes run. -/
def runningCount (past : List Op) : Nat := tally pids fun p => running past p

/-- An operation that may need a frame comes while some frame holds no page table. -/
def Fits (past : List Op) : Op → Prop
  | .start _ | .access .. => runningCount past < numFrames - 1
  | .stop _ => True

/-- The frames that do not hold the frame table or a page table can be evicted. -/
theorem Serves.unprotected_iff {G : Layout} (h : Serves past s G) {f : Nat} :
    Unprotected s.frameTable f ↔ f ∈ Finset.Ico 1 numFrames ∧ ∀ p, G.role f ≠ .table p := by
  rw [Finset.mem_Ico]
  constructor
  · rintro ⟨hlt, hprot⟩
    have hholds := h.realizes.holds f hlt
    refine ⟨⟨?_, hlt⟩, ?_⟩
    · rcases Nat.eq_zero_or_pos f with hzero | hpos
      · rw [(h.realizes.reserved_iff f).mpr (.inl hzero)] at hholds
        simp [hholds.2.1] at hprot
      · exact hpos
    · intro p hrole
      rw [hrole] at hholds
      simp [hholds.2.1] at hprot
  · rintro ⟨⟨hpos, hlt⟩, htable⟩
    have hholds := h.realizes.holds f hlt
    refine ⟨hlt, ?_⟩
    cases hrole : G.role f with
    | reserved =>
      have := (h.realizes.reserved_iff f).mp hrole
      omega
    | free => exact (hrole ▸ hholds).1
    | table p => exact absurd hrole (htable p)
    | page p v => exact (hrole ▸ hholds).2.1

/-- The frames that hold a page table. -/
def Layout.tables (G : Layout) : Finset Nat :=
  (Finset.Ico 1 numFrames).filter fun f => ∃ p ∈ pids, G.role f = .table p

/-- Each running process has one frame for its page table. -/
theorem Serves.runningCount_eq {G : Layout} (h : Serves past s G) :
    runningCount past = G.tables.card := by
  have htable : ∀ {p}, running past p → G.role (s.procs p).savedPtbr = .table p := fun {p} hp =>
    (h.realizes.table_of_running p ((h.running_iff p).mpr hp)).2.2
  refine Finset.card_bij (fun p _ => (s.procs p).savedPtbr) ?_ ?_ ?_
  · intro p hp
    obtain ⟨hmax, hrun⟩ := Finset.mem_filter.mp hp
    have hrole := htable hrun
    have hlt := h.realizes.lt_of_role hrole (by simp)
    have hpos : (s.procs p).savedPtbr ≠ 0 := by
      intro hzero
      rw [(h.realizes.reserved_iff _).mpr (.inl hzero)] at hrole
      simp at hrole
    exact Finset.mem_filter.mpr ⟨Finset.mem_Ico.mpr ⟨by omega, hlt⟩, p, hmax, hrole⟩
  · intro p hp q hq heq
    have hrole := htable (Finset.mem_filter.mp hp).2
    rw [heq, htable (Finset.mem_filter.mp hq).2] at hrole
    exact (Role.table.inj hrole).symm
  · intro f hf
    obtain ⟨-, p, hmax, hrole⟩ := Finset.mem_filter.mp hf
    obtain ⟨hrun, heq⟩ := h.realizes.running_of_table f p hrole
    exact ⟨p, Finset.mem_filter.mpr ⟨hmax, (h.running_iff p).mp hrun⟩, heq⟩

theorem Serves.runningCount_le {G : Layout} (h : Serves past s G) :
    runningCount past ≤ numFrames - 1 := by
  have hle := Finset.card_filter_le (Finset.Ico 1 numFrames)
    fun f => ∃ p ∈ pids, G.role f = .table p
  rw [Nat.card_Ico] at hle
  rw [h.runningCount_eq]
  exact hle

theorem Serves.exists_unprotected_iff {G : Layout} (h : Serves past s G) :
    (∃ i, Unprotected s.frameTable i) ↔ runningCount past < numFrames - 1 := by
  have hcard : (Finset.Ico 1 numFrames).card = numFrames - 1 := Nat.card_Ico ..
  rw [h.runningCount_eq]
  constructor
  · rintro ⟨f, hf⟩
    obtain ⟨hmem, htable⟩ := h.unprotected_iff.mp hf
    rw [← hcard]
    refine Finset.card_lt_card ⟨Finset.filter_subset .., fun hsub => ?_⟩
    obtain ⟨-, p, -, hrole⟩ := Finset.mem_filter.mp (hsub hmem)
    exact htable p hrole
  · intro hlt
    by_contra hnone
    have hall : G.tables = Finset.Ico 1 numFrames := by
      refine Finset.filter_true_of_mem fun f hf => ?_
      by_contra hno
      refine hnone ⟨f, h.unprotected_iff.mpr ⟨hf, fun p hrole => hno ⟨p, ?_, hrole⟩⟩⟩
      have hrun := (h.realizes.running_of_table f p hrole).1
      exact mem_pids.mpr (h.realizes.table_of_running p hrun).1
    rw [hall, hcard] at hlt
    exact lt_irrefl _ hlt

/-! ## The panic -/

theorem runningCount_start {p : Nat} (ha : Allowed past (.start p)) :
    runningCount (.start p :: past) = runningCount past + 1 := by
  have hchange := tally_change (s := pids) (p := fun q => running past q)
    (q := fun q => running (.start p :: past) q) (mem_pids.mpr ha.1) (by
      intro q _ hq
      simp [running, Ne.symm hq])
  rw [if_neg (by simp [ha.2]), if_pos (by simp [running])] at hchange
  exact hchange

/-- With all frames protected a page fault panics. -/
theorem pageFault_exhausted {p address : Nat} (hnone : ¬ ∃ i, Unprotected s.frameTable i)
    (hcur : s.currentProcess = some p) (hmax : p < maxPid) :
    pageFault s address = .error outOfMemory := by
  have hsel : selectVictimFrame s = .error outOfMemory := by
    rcases selectVictimFrame_cases s with hoom | ⟨i, -, -, hi⟩
    · exact hoom
    · exact absurd ⟨i, hi⟩ hnone
  simp only [pageFault, hcur, Realizes.pcb_eq hmax, freeFrame, hsel, ok_bind, error_bind]

/-- With all frames protected no page is mapped, and so every access panics. -/
theorem Serves.access_exhausted {G : Layout} {p address : Nat} {rw : Char} {data : UInt8}
    (h : Serves past s G) (ha : Allowed past (.access p address rw data))
    (hnone : ¬ ∃ i, Unprotected s.frameTable i) :
    step s (.access p address rw data) = .error outOfMemory := by
  obtain ⟨hmax, -, hrole⟩ := h.realizes.table_of_running p ((h.running_iff p).mpr ha.1)
  have hv := vaddrVpn_lt ha.2
  have hl : G.live p (vaddrVpn address) := (h.live_iff ..).mpr ⟨ha.1, hv⟩
  have hinvalid : (G.entry p (vaddrVpn address)).valid = 0 := by
    refine (h.valid.valid_bit hl).resolve_right fun hval => ?_
    have hpage := h.valid.role_of_valid hl hval
    have hlt := h.realizes.lt_of_role hpage (by simp)
    exact hnone ⟨_, hlt, (h.realizes.holds_of_role hpage (by simp)).2.1⟩
  let s₁ : State := { s with PTBR := (s.procs p).savedPtbr, currentProcess := some p }
  have hpte : s₁.pte (s.procs p).savedPtbr (vaddrVpn address) =
      .ok (G.entry p (vaddrVpn address)) := h.realizes.pte_eq hrole hv
  have hfault : pageFault s₁ address = .error outOfMemory := pageFault_exhausted hnone rfl hmax
  have htranslate : translate s₁ address = .error outOfMemory := by
    rw [translate]
    show (s₁.pte (s.procs p).savedPtbr (vaddrVpn address) >>= _) = _
    rw [hpte, ok_bind]
    dsimp only
    rw [if_pos hinvalid, hfault]
    rfl
  have haccess : memAccess s₁ address rw data = .error outOfMemory := by
    rw [memAccess, htranslate]
    rfl
  rw [step, accessAs, contextSwitch, Realizes.pcb_eq hmax]
  show (memAccess s₁ address rw data >>= _) = _
  rw [haccess]
  rfl

theorem Reachable.exhausted_iff (h : Reachable prng past s) {op : Op} (ha : Allowed past op) :
    step s op = .error outOfMemory ↔ ¬ Fits past op := by
  obtain ⟨G, hserves⟩ := h.serves
  have hspare : (∀ p, op ≠ .stop p) → (∃ i, Unprotected s.frameTable i) →
      step s op ≠ .error outOfMemory := by
    intro hop hex herr
    rcases step_ends (E := (· ≠ outOfMemory)) (fun _ he => he) (.inr ⟨h.replacement_eq, hex⟩) hop
      with ⟨e, herr', he⟩ | ⟨s', hok, -⟩
    · exact he (Except.error.inj (herr'.symm.trans herr))
    · simp [hok] at herr
  cases op with
  | stop p =>
    obtain ⟨s', G', n, hok, -⟩ := hserves.stop ha
    simp [Fits, hok]
  | start p =>
    constructor
    · intro herr hfits
      exact hspare (by simp) (hserves.exists_unprotected_iff.mpr hfits) herr
    · intro hfits
      refine (h.succeeds ha).resolve_right ?_
      rintro ⟨s', hok⟩
      -- one more page table than there are frames for it
      obtain ⟨G', hserves'⟩ := (h.next ha hok).serves
      have hle := hserves'.runningCount_le
      rw [runningCount_start ha] at hle
      rw [Fits] at hfits
      omega
  | access p address rw data =>
    constructor
    · intro herr hfits
      exact hspare (by simp) (hserves.exists_unprotected_iff.mpr hfits) herr
    · intro hfits
      exact hserves.access_exhausted ha (hserves.exists_unprotected_iff.not.mpr hfits)

/-! ## Whole runs -/

theorem Reachable.completes (h : Reachable prng past s) {ops : List Op}
    (ha : Obeys Allowed past ops) :
    (Obeys Fits past ops → ∃ s', ops.foldlM step s = .ok s') ∧
      (¬ Obeys Fits past ops → ops.foldlM step s = .error outOfMemory) := by
  induction ops generalizing past s with
  | nil => exact ⟨fun _ => ⟨s, rfl⟩, fun hno => absurd trivial hno⟩
  | cons op ops ih =>
    obtain ⟨hop, hops⟩ := ha
    rw [List.foldlM_cons]
    by_cases hfits : Fits past op
    · obtain ⟨s₁, hok⟩ : ∃ s₁, step s op = .ok s₁ :=
        (h.succeeds hop).resolve_left fun herr => (h.exhausted_iff hop).mp herr hfits
      obtain ⟨hgo, hstop⟩ := ih (h.next hop hok) hops
      rw [hok, ok_bind]
      exact ⟨fun hall => hgo hall.2, fun hno => hstop fun hall => hno ⟨hfits, hall⟩⟩
    · refine ⟨fun hall => absurd hall.1 hfits, fun _ => ?_⟩
      rw [(h.exhausted_iff hop).mpr hfits]
      rfl

/-- The loop of `main` runs the operations as they are, if it never starts the process accessed
last again. -/
theorem Reachable.mainStep_fold (hr : Reachable prng past s) (h : InStep past s) {ops : List Op}
    (ha : Obeys Allowed past ops) (hkeeps : Obeys KeepsTable past ops) :
    ops.foldlM mainStep s = ops.foldlM step s := by
  induction ops generalizing past s with
  | nil => rfl
  | cons op ops ih =>
    obtain ⟨hop, hops⟩ := ha
    obtain ⟨hkeep, hkeeps⟩ := hkeeps
    obtain ⟨G, hserves⟩ := hr.serves
    rw [List.foldlM_cons, List.foldlM_cons, h.mainStep_eq hserves hop]
    cases hstep : step s op with
    | error fault => rfl
    | ok s₁ =>
      rw [ok_bind, ok_bind]
      exact ih (hr.next hop hstep) (h.next hserves hop hkeep hstep) hops hkeeps

/-- Whether a sequence of operations completes does not depend on the addresses, the data or the
random numbers: it does exactly when every START and every access comes while fewer than
`NUM_FRAMES - 1` processes run, and otherwise it ends in the panic of `select_victim_frame`. The
loop of `main` does the same, if it never starts the process accessed last again. -/
theorem completes_iff (prng : Nat → Nat) {ops : List Op} (ha : Obeys Allowed [] ops) :
    ((∃ s, ops.foldlM step (boot prng) = .ok s) ↔ Obeys Fits [] ops) ∧
      (¬ Obeys Fits [] ops → ops.foldlM step (boot prng) = .error outOfMemory) ∧
      (Obeys KeepsTable [] ops →
        ops.foldlM mainStep (boot prng) = ops.foldlM step (boot prng)) := by
  have hboot : Reachable prng [] (boot prng) := .boot
  obtain ⟨hgo, hstop⟩ := hboot.completes ha
  refine ⟨⟨?_, hgo⟩, hstop, hboot.mainStep_fold (inStep_boot prng) ha⟩
  rintro ⟨s, hok⟩
  by_contra hno
  simp [hstop hno] at hok

/-- Processes can be started until there is one for every frame but the first. -/
theorem starts_fit {ps : List Nat} (hmax : ∀ p ∈ ps, p < maxPid) (hnodup : ps.Nodup)
    (hnew : ∀ p ∈ ps, running past p = false) :
    Obeys Allowed past (ps.map .start) ∧
      (Obeys Fits past (ps.map .start) ↔ ps = [] ∨ runningCount past + ps.length < numFrames) := by
  induction ps generalizing past with
  | nil => exact ⟨trivial, fun _ => .inl rfl, fun _ => trivial⟩
  | cons p ps ih =>
    obtain ⟨hp, hnodup⟩ := List.nodup_cons.mp hnodup
    have ha : Allowed past (.start p) :=
      ⟨hmax p (List.mem_cons_self ..), hnew p (List.mem_cons_self ..)⟩
    have hfits : Fits past (.start p) ↔ runningCount past < numFrames - 1 := Iff.rfl
    obtain ⟨hallowed, hiff⟩ := @ih (.start p :: past)
      (fun q hq => hmax q (List.mem_cons_of_mem p hq)) hnodup (by
        intro q hq
        have hne : p ≠ q := fun heq => hp (heq ▸ hq)
        simp [running, hne, hnew q (List.mem_cons_of_mem p hq)])
    refine ⟨⟨ha, hallowed⟩, ?_⟩
    show Fits past (.start p) ∧ Obeys Fits (.start p :: past) (ps.map .start) ↔ _
    rw [hiff, hfits, runningCount_start ha, List.length_cons]
    cases ps with
    | nil =>
      simp only [true_or, and_true, List.length_nil, reduceCtorEq, false_or]
      omega
    | cons q ps =>
      simp only [reduceCtorEq, false_or, List.length_cons]
      omega

theorem starts_keepTable {ps : List Nat} (hnone : lastAccessed past = none) :
    Obeys KeepsTable past (ps.map .start) := by
  induction ps generalizing past with
  | nil => trivial
  | cons p ps ih =>
    refine ⟨?_, ih hnone⟩
    rw [KeepsTable, hnone]
    simp

/-- The 64th START panics in `main`. -/
theorem completes_iff_starts :
    ((List.range 64).map Op.start).foldlM mainStep (boot fun _ => 0) = .error outOfMemory := by
  have hnone : runningCount [] = 0 := by simp [runningCount, tally, running]
  obtain ⟨hallowed, hiff⟩ := @starts_fit [] (List.range 64)
    (fun p hp => (List.mem_range.mp hp).trans (by decide)) List.nodup_range fun _ _ => rfl
  obtain ⟨-, hpanics, hmain⟩ := completes_iff (fun _ => 0) hallowed
  rw [hmain (starts_keepTable rfl)]
  refine hpanics fun hall => ?_
  rcases hiff.mp hall with hnil | hlt
  · simp at hnil
  · rw [hnone, List.length_range] at hlt
    exact absurd hlt (by decide)

end ECE3056.Vm
