import ECE3056.Vm.Transparency

/-!
# check_validity

The consistency checks of `pagesim.c`, and the agreement between the frame table
and the page tables that makes them pass in every reachable state.
-/

namespace ECE3056.Vm

open ECE3056.Fallible

/-- One of the arrays of `check_validity`: the frames accounted for. -/
abbrev Accounted := Nat → Bool

/-- `accounted[pfn] = 1`, into an array of NUM_FRAMES. -/
def Accounted.mark (accounted : Accounted) (pfn : Nat) : Except Fault Accounted :=
  if pfn < numFrames then .ok (Function.update accounted pfn true) else .error .undefined

/-- `accounted[pfn]` -/
def Accounted.get (accounted : Accounted) (pfn : Nat) : Except Fault Bool :=
  if pfn < numFrames then .ok (accounted pfn) else .error .undefined

/-- `if (bad) panic(message)` -/
def panicIf (bad : Bool) (message : String) : Except Fault Unit :=
  if bad then throw (.panic message) else return

/-- The loop over the processes that validates the PTBRs. -/
def checkPtbr (s : State) (accounted : Accounted) (pid : Nat) : Except Fault Accounted := do
  let proc ← s.pcb pid
  if proc.state = .running then
    let foundPtbr := proc.savedPtbr
    panicIf (foundPtbr ≤ 0 || foundPtbr > numFrames)
      "PTBR of running process cannot be zero or >= the number of frames in the system"
    panicIf ((← s.fte foundPtbr).isProtected = 0)
      "Frames corresponding to the page tables of running processes must be marked as protected"
    accounted.mark foundPtbr
  else return accounted

/-- The loop over the frames that looks for stray protected frames. -/
def checkProtected (s : State) (accounted : Accounted) (pfn : Nat) : Except Fault Unit := do
  panicIf ((← s.fte pfn).isProtected ≠ 0 && !(← accounted.get pfn))
    "Found frame marked as protected that should not be protected"

/-- The checks on the frame of a valid entry. -/
def checkMapping (s : State) (protectedFrames : Accounted) (pid vpn foundPfn : Nat)
    (mappedFrames : Accounted) : Except Fault Accounted := do
  panicIf (foundPfn ≤ 0 || foundPfn > numFrames - 1)
    "PFN of page table entry cannot be zero or >= the number of frames in the system"
  panicIf (← protectedFrames.get foundPfn) "Page table entry should not map to a protected frame"
  panicIf (← mappedFrames.get foundPfn) "Duplicate PFN found in page table"
  let frame ← s.fte foundPfn
  match frame.process with
  | none => throw (.panic "Mapped frame table entry contains invalid process pointer")
  | some process =>
    panicIf (process ≥ maxPid) "Mapped frame table entry contains invalid process pointer"
    panicIf (frame.mapped = 0 || (s.procs process).pid ≠ pid || frame.vpn ≠ vpn)
      "Frame table is inconsistent with page table entry"
    mappedFrames.mark foundPfn

/-- The check on the swap entry of a page. -/
def checkSwap (s : State) (swap : Nat) : Except Fault Unit := do
  if swap ≠ 0 then
    panicIf (← swapQueueFind s.swapQueue swap).isNone
      "Page table entry points to swap entry that does not exist"
  else return

/-- The body of the loop over a page table. -/
def checkEntry (s : State) (protectedFrames : Accounted) (pid foundPtbr : Nat)
    (mappedFrames : Accounted) (vpn : Nat) : Except Fault Accounted := do
  let entry ← s.pte foundPtbr vpn
  panicIf (entry.valid ≠ 0 && entry.valid ≠ 1)
    "Page table entry valid bit should either be zero or one"
  panicIf (entry.dirty ≠ 0 && entry.dirty ≠ 1)
    "Page table entry dirty bit should either be zero or one"
  if entry.valid ≠ 0 then
    let mappedFrames ← checkMapping s protectedFrames pid vpn entry.pfn mappedFrames
    checkSwap s entry.swap
    return mappedFrames
  else
    checkSwap s entry.swap
    return mappedFrames

/-- The loop over the processes that validates the page tables. -/
def checkPageTable (s : State) (protectedFrames mappedFrames : Accounted) (pid : Nat) :
    Except Fault Accounted := do
  let proc ← s.pcb pid
  if proc.state = .running then
    (List.range numPages).foldlM (checkEntry s protectedFrames pid proc.savedPtbr) mappedFrames
  else return mappedFrames

/-- The last loop, over the frames that are marked mapped. -/
def checkMapped (s : State) (mappedFrames : Accounted) (pfn : Nat) : Except Fault Unit := do
  let frame ← s.fte pfn
  panicIf (frame.isProtected = 0 && frame.mapped ≠ 0 && !(← mappedFrames.get pfn))
    "Found frame table entry marked as mapped with no corresponding page table entry"

/-- The checks that `check_validity(1)` makes after those of `check_validity(0)`. -/
def checkTables (s : State) (protectedFrames : Accounted) : Except Fault Unit := do
  let protectedFrames ← (List.range maxPid).foldlM (checkPtbr s) protectedFrames
  (List.range numFrames).foldlM (fun _ => checkProtected s protectedFrames) ()
  let mappedFrames ← (List.range maxPid).foldlM (checkPageTable s protectedFrames) fun _ => false
  (List.range numFrames).foldlM (fun _ => checkMapped s mappedFrames) ()

/-- `check_validity` -/
def checkValidity (s : State) (checks : Nat) : Except Fault Unit := do
  panicIf (s.frameTablePtr ≠ some 0) "Frame table should begin at the first frame in memory"
  panicIf ((← s.fte 0).isProtected = 0) "Frame 0 should be marked as protected"
  let protectedFrames ← Accounted.mark (fun _ => false) 0
  if checks < 1 then return else checkTables s protectedFrames

/-! ## The checks pass -/

theorem panicIf_eq {bad : Bool} (h : bad = false) (message : String) :
    panicIf bad message = .ok () := by
  rw [panicIf, h]
  rfl

theorem panicIf_error {bad : Bool} (h : bad = true) (message : String) :
    panicIf bad message = .error (.panic message) := by
  rw [panicIf, h]
  rfl

theorem Accounted.mark_eq {accounted : Accounted} {f : Nat} (hf : f < numFrames) :
    accounted.mark f = .ok (Function.update accounted f true) := if_pos hf

theorem Accounted.get_eq {accounted : Accounted} {f : Nat} (hf : f < numFrames) :
    accounted.get f = .ok (accounted f) := if_pos hf

variable {past : List Op} {s : State} {prng : Nat → Nat} {G : Layout}

theorem Realizes.pos_of_role (hR : Realizes s G) {f : Nat} {r : Role} (h : G.role f = r)
    (hr : r ≠ .reserved) : 0 < f := by
  apply Nat.pos_of_ne_zero
  intro hz
  exact hr (h ▸ (hR.reserved_iff f).mpr (.inl hz))

/-- The PTBR of the process is the number of a protected frame other than frame 0. -/
def PtbrOk (s : State) (pid : Nat) : Prop :=
  0 < (s.procs pid).savedPtbr ∧ (s.procs pid).savedPtbr < numFrames ∧
    (s.frameTable (s.procs pid).savedPtbr).isProtected ≠ 0

theorem checkPtbr_eq {accounted : Accounted} {p : Nat} (hp : p < maxPid)
    (hrun : (s.procs p).state = .running) (hok : PtbrOk s p) :
    checkPtbr s accounted p = .ok (Function.update accounted (s.procs p).savedPtbr true) := by
  obtain ⟨hpos, hlt, hprot⟩ := hok
  have hrange : (decide ((s.procs p).savedPtbr ≤ 0) ||
      decide ((s.procs p).savedPtbr > numFrames)) = false := by
    simp only [Bool.or_eq_false_iff, decide_eq_false_iff_not]
    omega
  have hbit : decide ((s.frameTable (s.procs p).savedPtbr).isProtected = 0) = false := by
    simp [hprot]
  simp only [checkPtbr, Realizes.pcb_eq hp, ok_bind, if_pos hrun, panicIf_eq hrange,
    Realizes.fte_eq hlt, panicIf_eq hbit, Accounted.mark_eq hlt]

theorem checkPtbr_skip {accounted : Accounted} {p : Nat} (hp : p < maxPid)
    (hrun : (s.procs p).state ≠ .running) : checkPtbr s accounted p = .ok accounted := by
  rw [checkPtbr, Realizes.pcb_eq hp, ok_bind, if_neg hrun]
  rfl

theorem checkPtbr_spec (h : Serves past s G) {accounted : Accounted} {p : Nat} (hp : p < maxPid)
    (hacc : ∀ f, accounted f = true ↔ f = 0 ∨ ∃ q, q < p ∧ G.role f = .table q) :
    ∃ accounted', checkPtbr s accounted p = .ok accounted' ∧
      ∀ f, accounted' f = true ↔ f = 0 ∨ ∃ q, q < p + 1 ∧ G.role f = .table q := by
  by_cases hrun : running past p
  · have hG := (h.running_iff p).mpr hrun
    obtain ⟨-, -, hg⟩ := h.realizes.table_of_running p hG
    have hprot := (h.realizes.holds_of_role hg (by simp)).2.1
    have hok : PtbrOk s p := by
      refine ⟨h.realizes.pos_of_role hg (by simp), h.realizes.lt_of_role hg (by simp), ?_⟩
      rw [hprot]
      decide
    refine ⟨_, checkPtbr_eq hp ((h.state_iff p).mpr hrun) hok, ?_⟩
    intro f
    have htable : G.role f = .table p ↔ f = (s.procs p).savedPtbr := by
      constructor
      · intro hrole
        exact (h.realizes.running_of_table f p hrole).2.symm
      · intro hf
        rw [hf]
        exact hg
    rw [Nat.exists_lt_succ_right, ← or_assoc, ← hacc, htable]
    by_cases hf : f = (s.procs p).savedPtbr
    · rw [hf, Function.update_self]
      simp
    · rw [Function.update_of_ne hf]
      simp [hf]
  · refine ⟨accounted, checkPtbr_skip hp (mt (h.state_iff p).mp hrun), ?_⟩
    intro f
    have hnone : G.role f ≠ .table p := by
      intro hrole
      exact hrun ((h.running_iff p).mp (h.realizes.running_of_table f p hrole).1)
    rw [Nat.exists_lt_succ_right, ← or_assoc, ← hacc]
    simp [hnone]

/-- After the first loop exactly frame 0 and the page tables are accounted for. -/
def ProtectedFrames (G : Layout) (accounted : Accounted) : Prop :=
  ∀ f, accounted f = true ↔ f = 0 ∨ ∃ p, p < maxPid ∧ G.role f = .table p

theorem checkProtected_spec (h : Serves past s G) {accounted : Accounted}
    (hacc : ProtectedFrames G accounted) {f : Nat} (hf : f < numFrames) :
    checkProtected s accounted f = .ok () := by
  have hholds := h.realizes.holds f hf
  rw [checkProtected, Realizes.fte_eq hf, ok_bind, Accounted.get_eq hf, ok_bind]
  apply panicIf_eq
  cases hrole : G.role f with
  | reserved =>
    have hz := (h.realizes.reserved_iff f).mp hrole
    have hmarked : accounted f = true := (hacc f).mpr (.inl (by omega))
    simp [hmarked]
  | table p =>
    have hG := (h.realizes.running_of_table f p hrole).1
    have hmax := (h.realizes.table_of_running p hG).1
    have hmarked : accounted f = true := (hacc f).mpr (.inr ⟨p, hmax, hrole⟩)
    simp [hmarked]
  | free =>
    rw [hrole] at hholds
    simp [hholds.1]
  | page p v =>
    rw [hrole] at hholds
    simp [hholds.2.1]

/-- The valid entries visited so far, by their frames. -/
def MappedFrames (G : Layout) (mapped : Accounted) (visited : Nat → Nat → Prop) : Prop :=
  ∀ f, mapped f = true ↔ ∃ q w, visited q w ∧ G.role f = .page q w

theorem MappedFrames.congr {mapped : Accounted} {visited visited' : Nat → Nat → Prop}
    (hm : MappedFrames G mapped visited)
    (hiff : ∀ f q w, G.role f = .page q w → (visited' q w ↔ visited q w)) :
    MappedFrames G mapped visited' := by
  intro f
  rw [hm]
  constructor
  · intro hf
    obtain ⟨q, w, hvis, hq⟩ := hf
    exact ⟨q, w, (hiff f q w hq).mpr hvis, hq⟩
  · intro hf
    obtain ⟨q, w, hvis, hq⟩ := hf
    exact ⟨q, w, (hiff f q w hq).mp hvis, hq⟩

theorem MappedFrames.mark {mapped : Accounted} {visited : Nat → Nat → Prop}
    (hm : MappedFrames G mapped visited) (hG : G.Valid) {f p v : Nat}
    (hrole : G.role f = .page p v) :
    MappedFrames G (Function.update mapped f true) fun q w => visited q w ∨ q = p ∧ w = v := by
  intro g
  by_cases hg : g = f
  · rw [hg, Function.update_self]
    exact iff_of_true rfl ⟨p, v, .inr ⟨rfl, rfl⟩, hrole⟩
  · rw [Function.update_of_ne hg, hm]
    constructor
    · intro hmarked
      obtain ⟨q, w, hvis, hq⟩ := hmarked
      exact ⟨q, w, .inl hvis, hq⟩
    · intro hmarked
      obtain ⟨q, w, hvis | ⟨rfl, rfl⟩, hq⟩ := hmarked
      · exact ⟨q, w, hvis, hq⟩
      · have hpfn := (hG.valid_of_role hq).2.2
        exact absurd (hpfn.symm.trans (hG.valid_of_role hrole).2.2) hg

theorem checkMapping_spec (h : Serves past s G) {protectedFrames mapped : Accounted}
    (hprot : ProtectedFrames G protectedFrames) {f p v : Nat} (hrole : G.role f = .page p v)
    {visited : Nat → Nat → Prop} (hnew : ¬ visited p v) (hm : MappedFrames G mapped visited) :
    checkMapping s protectedFrames p v f mapped = .ok (Function.update mapped f true) := by
  obtain ⟨-, -, hmapped, hprocess, hvpn⟩ := h.realizes.holds_of_role hrole (by simp)
  have hrun := (h.valid.live_running (h.valid.valid_of_role hrole).1).1
  obtain ⟨hmax, hpid, -⟩ := h.realizes.table_of_running p hrun
  have hlt := h.realizes.lt_of_role hrole (by simp)
  have hpos : 0 < f := h.realizes.pos_of_role hrole (by simp)
  have hrange : (decide (f ≤ 0) || decide (f > numFrames - 1)) = false := by
    simp only [Bool.or_eq_false_iff, decide_eq_false_iff_not]
    omega
  have hunprotected : protectedFrames f = false := by
    rw [Bool.eq_false_iff]
    intro hacc
    rcases (hprot f).mp hacc with hz | ⟨q, -, hq⟩
    · exact Nat.ne_of_gt hpos hz
    · rw [hrole] at hq
      simp at hq
  have hfirst : mapped f = false := by
    rw [Bool.eq_false_iff]
    intro hacc
    obtain ⟨q, w, hvis, hq⟩ := (hm f).mp hacc
    rw [hrole] at hq
    obtain ⟨rfl, rfl⟩ := Role.page.inj hq
    exact hnew hvis
  have hprocmax : decide (p ≥ maxPid) = false := by
    simp only [decide_eq_false_iff_not]
    omega
  have hagree : (decide ((s.frameTable f).mapped = 0) || decide ((s.procs p).pid ≠ p) ||
      decide ((s.frameTable f).vpn ≠ v)) = false := by
    simp [hmapped, hpid, hvpn]
  simp only [checkMapping, panicIf_eq hrange, ok_bind, Accounted.get_eq hlt,
    panicIf_eq hunprotected, panicIf_eq hfirst, Realizes.fte_eq hlt, hprocess,
    panicIf_eq hprocmax, panicIf_eq hagree, Accounted.mark_eq hlt]

theorem checkSwap_spec (h : Serves past s G) {p v : Nat} (hl : G.live p v) :
    checkSwap s (G.entry p v).swap = .ok () := by
  by_cases hs : (G.entry p v).swap = 0
  · rw [checkSwap, if_neg (not_not_intro hs)]
    rfl
  · obtain ⟨tokens, hq⟩ := h.realizes.queue
    have hmem : (G.entry p v).swap ∈ tokens := by
      rw [hq.mem_iff_stored, h.realizes.stored_eq]
      exact h.valid.stored_of_swap hl hs
    rw [checkSwap, if_pos hs, hq.find_eq, if_pos hmem]
    rfl

theorem checkEntry_spec (h : Serves past s G) {protectedFrames mapped : Accounted}
    (hprot : ProtectedFrames G protectedFrames) {p v : Nat} (hp : running past p)
    (hv : v < numPages) {visited : Nat → Nat → Prop} (hnew : ¬ visited p v)
    (hm : MappedFrames G mapped visited) :
    ∃ mapped', checkEntry s protectedFrames p (s.procs p).savedPtbr mapped v = .ok mapped' ∧
      MappedFrames G mapped' fun q w => visited q w ∨ q = p ∧ w = v := by
  obtain ⟨-, -, hg⟩ := h.realizes.table_of_running p ((h.running_iff p).mpr hp)
  have hl : G.live p v := (h.live_iff p v).mpr ⟨hp, hv⟩
  have hvalid : (decide ((G.entry p v).valid ≠ 0) && decide ((G.entry p v).valid ≠ 1)) = false := by
    rcases h.valid.valid_bit hl with hd | hd <;> simp [hd]
  have hdirty : (decide ((G.entry p v).dirty ≠ 0) && decide ((G.entry p v).dirty ≠ 1)) = false := by
    rcases h.valid.dirty_bit hl with hd | hd <;> simp [hd]
  have hswap := checkSwap_spec h hl
  rcases h.valid.valid_bit hl with hval | hval
  · refine ⟨mapped, ?_, ?_⟩
    · simp only [checkEntry, h.realizes.pte_eq hg hv, ok_bind, panicIf_eq hvalid,
        panicIf_eq hdirty, if_neg (not_not_intro hval), hswap, pure_eq_ok]
    · apply hm.congr
      intro f q w hq
      refine or_iff_left ?_
      intro hpv
      obtain ⟨rfl, rfl⟩ := hpv
      have hone := (h.valid.valid_of_role hq).2.1
      rw [hval] at hone
      exact absurd hone (by decide)
  · have hrole := h.valid.role_of_valid hl hval
    have hne : (G.entry p v).valid ≠ 0 := by
      rw [hval]
      decide
    refine ⟨Function.update mapped (G.entry p v).pfn true, ?_, hm.mark h.valid hrole⟩
    simp only [checkEntry, h.realizes.pte_eq hg hv, ok_bind, panicIf_eq hvalid,
      panicIf_eq hdirty, if_pos hne, checkMapping_spec h hprot hrole hnew hm, hswap, pure_eq_ok]

/-- Checking the table of one process marks the frames of its valid pages. -/
theorem checkPageTable_spec (h : Serves past s G) {protectedFrames mapped : Accounted}
    (hprot : ProtectedFrames G protectedFrames) {p : Nat} (hmax : p < maxPid)
    (hm : MappedFrames G mapped fun q _ => q < p) :
    ∃ mapped', checkPageTable s protectedFrames mapped p = .ok mapped' ∧
      MappedFrames G mapped' fun q _ => q < p + 1 := by
  by_cases hp : running past p
  · obtain ⟨mapped', hrun, hm'⟩ := foldlM_range_invariant
      (checkEntry s protectedFrames p (s.procs p).savedPtbr)
      (fun i m => MappedFrames G m fun q w => q < p ∨ q = p ∧ w < i) (s := mapped) numPages
      (by
        intro i m hi hmi
        obtain ⟨m', hstep, hm'⟩ := checkEntry_spec h hprot hp hi (by omega) hmi
        refine ⟨m', hstep, hm'.congr ?_⟩
        intro f q w _
        omega)
      (by simpa using hm)
    refine ⟨mapped', ?_, hm'.congr ?_⟩
    · rw [checkPageTable, Realizes.pcb_eq hmax, ok_bind, if_pos ((h.state_iff p).mpr hp)]
      exact hrun
    · intro f q w hq
      have hw := (h.valid.live_running (h.valid.valid_of_role hq).1).2
      omega
  · refine ⟨mapped, ?_, hm.congr ?_⟩
    · rw [checkPageTable, Realizes.pcb_eq hmax, ok_bind, if_neg (mt (h.state_iff p).mp hp)]
      rfl
    · intro f q w hq
      have hrun := (h.valid.live_running (h.valid.valid_of_role hq).1).1
      have hqp : q ≠ p := fun hqp => hp ((h.running_iff p).mp (hqp ▸ hrun))
      omega

theorem checkMapped_spec (h : Serves past s G) {mapped : Accounted}
    (hm : MappedFrames G mapped fun q _ => q < maxPid) {f : Nat} (hf : f < numFrames) :
    checkMapped s mapped f = .ok () := by
  have hholds := h.realizes.holds f hf
  rw [checkMapped, Realizes.fte_eq hf, ok_bind, Accounted.get_eq hf, ok_bind]
  apply panicIf_eq
  cases hrole : G.role f with
  | page p v =>
    have hrun := (h.valid.live_running (h.valid.valid_of_role hrole).1).1
    have hmax := (h.realizes.table_of_running p hrun).1
    have hmarked : mapped f = true := (hm f).mpr ⟨p, v, hmax, hrole⟩
    simp [hmarked]
  | reserved =>
    rw [hrole] at hholds
    simp [hholds.2.1]
  | table p =>
    rw [hrole] at hholds
    simp [hholds.2.1]
  | free =>
    rw [hrole] at hholds
    simp [hholds.2]

/-- A loop of checks passes when every check does. -/
theorem checkLoop_eq {check : Nat → Except Fault Unit} (n : Nat)
    (hc : ∀ i, i < n → check i = .ok ()) :
    (List.range n).foldlM (fun _ => check) () = .ok () := by
  obtain ⟨u, hrun, -⟩ := foldlM_range_invariant (fun (_ : Unit) => check) (fun _ _ => True)
    (s := ()) n (fun i _ hi _ => ⟨(), hc i hi, trivial⟩) trivial
  exact hrun

/-- `check_validity(1)` finds nothing wrong. -/
theorem Serves.checkValidity_eq (h : Serves past s G) : checkValidity s 1 = .ok () := by
  have hzero : (0 : Nat) < numFrames := by decide
  have hframe₀ := h.realizes.holds 0 hzero
  rw [(h.realizes.reserved_iff 0).mpr (.inl rfl)] at hframe₀
  have hptr : decide (s.frameTablePtr ≠ some 0) = false := by
    simp [h.realizes.frameTablePtr_eq]
  have hbit : decide ((s.frameTable 0).isProtected = 0) = false := by
    simp [hframe₀.2.1]
  obtain ⟨protectedFrames, hloop₁, hprot⟩ := foldlM_range_invariant (checkPtbr s)
    (fun i (accounted : Accounted) => ∀ f, accounted f = true ↔
      f = 0 ∨ ∃ q, q < i ∧ G.role f = .table q)
    (s := Function.update (fun _ => false) 0 true) maxPid
    (fun i _ hi hacc => checkPtbr_spec h hi hacc)
    (by
      intro f
      by_cases hf : f = 0 <;> simp [hf])
  obtain ⟨mappedFrames, hloop₂, hm⟩ := foldlM_range_invariant
    (checkPageTable s protectedFrames) (fun i mapped => MappedFrames G mapped fun q _ => q < i)
    (s := fun _ => false) maxPid
    (fun i _ hi hmi => checkPageTable_spec h hprot hi hmi)
    (by
      intro f
      simp)
  have hprotected := checkLoop_eq numFrames fun f hf => checkProtected_spec h hprot hf
  have hmapped := checkLoop_eq numFrames fun f hf => checkMapped_spec h hm hf
  simp only [checkValidity, panicIf_eq hptr, ok_bind, Realizes.fte_eq hzero, panicIf_eq hbit,
    Accounted.mark_eq hzero, checkTables]
  rw [if_neg (by decide), hloop₁, ok_bind, hprotected, ok_bind, hloop₂, ok_bind, hmapped]

/-! ## The agreement the checks look for -/

/-- The protected frames are frame 0 and the page tables of the running processes, which are
distinct and unmapped; valid entries and mapped frames name each other. -/
structure TablesAgree (past : List Op) (s : State) : Prop where
  protected_iff : ∀ f < numFrames, (s.frameTable f).isProtected ≠ 0 ↔
    f = 0 ∨ ∃ p, running past p ∧ (s.procs p).savedPtbr = f
  table_frame : ∀ p, running past p → 0 < (s.procs p).savedPtbr ∧
    (s.procs p).savedPtbr < numFrames ∧ (s.frameTable (s.procs p).savedPtbr).mapped = 0
  table_inj : ∀ p q, running past p → running past q →
    (s.procs p).savedPtbr = (s.procs q).savedPtbr → p = q
  mapped_of_valid : ∀ p v, running past p → v < numPages →
    ∃ e, s.pte (s.procs p).savedPtbr v = .ok e ∧
      (e.valid ≠ 0 → e.pfn < numFrames ∧ (s.frameTable e.pfn).isProtected = 0 ∧
        (s.frameTable e.pfn).mapped = 1 ∧ (s.frameTable e.pfn).process = some p ∧
        (s.frameTable e.pfn).vpn = v)
  valid_of_mapped : ∀ f < numFrames, (s.frameTable f).isProtected = 0 →
    (s.frameTable f).mapped ≠ 0 → ∃ p e, (s.frameTable f).process = some p ∧ running past p ∧
      (s.frameTable f).vpn < numPages ∧
      s.pte (s.procs p).savedPtbr (s.frameTable f).vpn = .ok e ∧ e.valid = 1 ∧ e.pfn = f

theorem Serves.tablesAgree (h : Serves past s G) : TablesAgree past s where
  protected_iff f hf := by
    have hholds := h.realizes.holds f hf
    have htable : (∃ p, running past p ∧ (s.procs p).savedPtbr = f) ↔ ∃ p, G.role f = .table p := by
      constructor
      · intro ho
        obtain ⟨p, hp, rfl⟩ := ho
        exact ⟨p, (h.realizes.table_of_running p ((h.running_iff p).mpr hp)).2.2⟩
      · intro ho
        obtain ⟨p, hrole⟩ := ho
        obtain ⟨hrun, hsaved⟩ := h.realizes.running_of_table f p hrole
        exact ⟨p, (h.running_iff p).mp hrun, hsaved⟩
    have hzero : f = 0 ↔ G.role f = .reserved := by
      rw [h.realizes.reserved_iff]
      omega
    rw [htable, hzero]
    cases hrole : G.role f <;> rw [hrole] at hholds <;> simp [Holds] at hholds <;> simp [hholds]
  table_frame p hp := by
    have hg := (h.realizes.table_of_running p ((h.running_iff p).mpr hp)).2.2
    exact ⟨h.realizes.pos_of_role hg (by simp), h.realizes.lt_of_role hg (by simp),
      (h.realizes.holds_of_role hg (by simp)).2.2⟩
  table_inj p q hp hq heq := by
    have hgp := (h.realizes.table_of_running p ((h.running_iff p).mpr hp)).2.2
    have hgq := (h.realizes.table_of_running q ((h.running_iff q).mpr hq)).2.2
    rw [heq, hgq] at hgp
    exact (Role.table.inj hgp).symm
  mapped_of_valid p v hp hv := by
    have hg := (h.realizes.table_of_running p ((h.running_iff p).mpr hp)).2.2
    have hl : G.live p v := (h.live_iff p v).mpr ⟨hp, hv⟩
    refine ⟨_, h.realizes.pte_eq hg hv, ?_⟩
    intro hval
    have hrole := h.valid.role_of_valid hl ((h.valid.valid_bit hl).resolve_left hval)
    exact ⟨h.realizes.lt_of_role hrole (by simp), (h.realizes.holds_of_role hrole (by simp)).2⟩
  valid_of_mapped f hf hprot hmapped := by
    have hholds := h.realizes.holds f hf
    cases hrole : G.role f with
    | page p v =>
      rw [hrole] at hholds
      obtain ⟨-, -, -, hprocess, hvpn⟩ := hholds
      obtain ⟨hl, hval, hpfn⟩ := h.valid.valid_of_role hrole
      obtain ⟨hp, hv⟩ := (h.live_iff p v).mp hl
      have hg := (h.realizes.table_of_running p ((h.running_iff p).mpr hp)).2.2
      rw [hvpn]
      exact ⟨p, _, hprocess, hp, hv, h.realizes.pte_eq hg hv, hval, hpfn⟩
    | _ =>
      rw [hrole] at hholds
      simp [Holds, hprot, hmapped] at hholds

/-- The physical address of an access lies in the frame of a page. -/
theorem Serves.translate_frame (h : Serves past s G) {p address a : Nat} {s' : State}
    (hp : running past p) (hlt : address < 2 ^ 24)
    (ht : (do
      let s ← contextSwitch s p
      translate { s with currentProcess := some p } address) = .ok (a, s')) :
    0 < a / pageSize ∧ a / pageSize < numFrames ∧
      ∀ q, running past q → a / pageSize ≠ (s'.procs q).savedPtbr := by
  obtain ⟨s₁, hsw, hR₁, hc, hprocs₁, -⟩ := h.switch hp
  have hl : G.live p (vaddrVpn address) := (h.live_iff ..).mpr ⟨hp, vaddrVpn_lt hlt⟩
  rw [hsw, ok_bind] at ht
  rcases translate_spec hR₁ h.valid hc hl with
      hoom | ⟨f, s₂, G₂, n, -, hok, hrole, hR₂, -, hkept, -⟩
  · rw [ht] at hoom
    simp at hoom
  · rw [ht] at hok
    obtain ⟨rfl, rfl⟩ := Prod.mk.inj (Except.ok.inj hok)
    rw [(physicalAddress_split f address).1]
    refine ⟨hR₂.pos_of_role hrole (by simp), hR₂.lt_of_role hrole (by simp), ?_⟩
    intro q hq hfq
    have hrun : G₂.running q := by
      rw [hkept.running]
      exact (h.running_iff q).mpr hq
    have hg := (hR₂.table_of_running q hrun).2.2
    rw [← hfq, hrole] at hg
    simp at hg

theorem Serves.all_free (h : Serves past s G) (hstopped : ∀ p, running past p = false) {f : Nat}
    (hf : f < numFrames) (hpos : f ≠ 0) :
    (s.frameTable f).isProtected = 0 ∧ (s.frameTable f).mapped = 0 := by
  have hholds := h.realizes.holds f hf
  have hnone : ∀ p, ¬ G.running p := by
    intro p hp
    have hrun := (h.running_iff p).mp hp
    rw [hstopped p] at hrun
    simp at hrun
  cases hrole : G.role f with
  | free =>
    rw [hrole] at hholds
    exact hholds
  | reserved =>
    have hz := (h.realizes.reserved_iff f).mp hrole
    omega
  | table p => exact absurd (h.realizes.running_of_table f p hrole).1 (hnone p)
  | page p v =>
    exact absurd (h.valid.live_running (h.valid.valid_of_role hrole).1).1 (hnone p)

/-- In every reachable state the tables agree, so the checks pass, data is written neither to
frame 0 nor to a page table, and every frame but the first is free when all processes have
stopped. -/
theorem frame_tables_agree (h : Reachable prng past s) :
    TablesAgree past s ∧ checkValidity s 1 = .ok () ∧
      (∀ p address a s', running past p → address < 2 ^ 24 →
        (do
          let s ← contextSwitch s p
          translate { s with currentProcess := some p } address) = .ok (a, s') →
        0 < a / pageSize ∧ a / pageSize < numFrames ∧
          ∀ q, running past q → a / pageSize ≠ (s'.procs q).savedPtbr) ∧
      ((∀ p, running past p = false) → ∀ f < numFrames, f ≠ 0 →
        (s.frameTable f).isProtected = 0 ∧ (s.frameTable f).mapped = 0) := by
  obtain ⟨G, hserves⟩ := h.serves
  refine ⟨hserves.tablesAgree, hserves.checkValidity_eq, ?_, ?_⟩
  · intro p address a s' hp hlt ht
    exact hserves.translate_frame hp hlt ht
  · intro hstopped f hf hpos
    exact hserves.all_free hstopped hf hpos

/-- The state after process 1 has written one byte passes the checks. -/
theorem frame_tables_agree_write : ∃ s,
    Reachable (fun _ => 1) [.access 1 5 'w' 7, .start 1] s ∧ checkValidity s 1 = .ok () := by
  obtain ⟨s, hs⟩ := reachable_write
  exact ⟨s, hs, (frame_tables_agree hs).2.1⟩

end ECE3056.Vm
