import ECE3056.Vm.CheckValidity

/-!
# What check_validity establishes

On every state of the tables and the swap queue, corrupted ones included: when
`check_validity(1)` does not panic the tables are consistent, and nothing outside the
arrays is used. The exception is a running process whose PTBR is NUM_FRAMES, which the
range test lets through. A swap queue of any length is that of a state with a `TOKEN`
large enough for the walk along it.
-/

namespace ECE3056.Vm

open ECE3056.LinkedList ECE3056.Fallible

/-! ## swap_queue_find -/

/-- The links lead from the head to a cell with the token. -/
def SwapQueue.HasToken (q : SwapQueue) (token : Nat) : Prop :=
  ∃ a info, Reaches q.nextOf q.head a ∧ q.cells a = some info ∧ info.token = token

theorem findLoop_some {q : SwapQueue} {token fuel a : Nat} {h : Option Nat}
    (hfind : findLoop q token fuel h = .ok (some a)) :
    ∃ info, Reaches q.nextOf h a ∧ q.cells a = some info ∧ info.token = token := by
  induction fuel generalizing h with
  | zero => cases h <;> simp [findLoop] at hfind
  | succ fuel ih =>
    cases h with
    | none => simp [findLoop] at hfind
    | some curr =>
      obtain ⟨info, hderef, hrest⟩ := bind_eq_ok_iff.mp hfind
      have hcell : q.cells curr = some info := by
        rw [SwapQueue.deref] at hderef
        split at hderef
        · rename_i hcell
          rw [hcell, Except.ok.inj hderef]
        · simp at hderef
      by_cases ht : info.token = token
      · rw [if_pos ht] at hrest
        obtain rfl := Option.some_inj.mp (Except.ok.inj hrest)
        exact ⟨info, .head rfl, hcell, ht⟩
      · rw [if_neg ht] at hrest
        obtain ⟨found, hreach, hfound⟩ := ih hrest
        have hnext : q.nextOf curr = info.next := by rw [SwapQueue.nextOf, hcell, Option.bind_some]
        rw [← hnext] at hreach
        exact ⟨found, hreach.cons rfl, hfound⟩

/-! ## Consistent tables -/

/-- An entry in the page table of a running process. -/
structure TableEntry (s : State) (pid vpn : Nat) (entry : Pte) : Prop where
  pid_lt : pid < maxPid
  running : (s.procs pid).state = .running
  vpn_lt : vpn < numPages
  pte_eq : s.pte (s.procs pid).savedPtbr vpn = .ok entry

/-- The frame table has the frame mapped to the page. -/
def MapsBack (s : State) (pid vpn pfn : Nat) : Prop :=
  (s.frameTable pfn).mapped ≠ 0 ∧
    (∃ process < maxPid, (s.frameTable pfn).process = some process ∧
      (s.procs process).pid = pid) ∧
    (s.frameTable pfn).vpn = vpn

structure Consistent (s : State) : Prop where
  ptbr_ok : ∀ p < maxPid, (s.procs p).state = .running → PtbrOk s p
  protected_only : ∀ f < numFrames, (s.frameTable f).isProtected ≠ 0 →
    f = 0 ∨ ∃ p < maxPid, (s.procs p).state = .running ∧ (s.procs p).savedPtbr = f
  mapped_of_valid : ∀ p v e, TableEntry s p v e → e.valid ≠ 0 →
    0 < e.pfn ∧ e.pfn < numFrames ∧ (s.frameTable e.pfn).isProtected = 0 ∧ MapsBack s p v e.pfn
  pfn_inj : ∀ p v e q w e', TableEntry s p v e → e.valid ≠ 0 → TableEntry s q w e' →
    e'.valid ≠ 0 → e.pfn = e'.pfn → p = q ∧ v = w
  valid_of_mapped : ∀ f < numFrames, (s.frameTable f).isProtected = 0 →
    (s.frameTable f).mapped ≠ 0 → ∃ p v e, TableEntry s p v e ∧ e.valid ≠ 0 ∧ e.pfn = f
  swap_present : ∀ p v e, TableEntry s p v e → e.swap ≠ 0 → s.swapQueue.HasToken e.swap

/-- The checks depend on no frame table entry from NUM_FRAMES on, and use nothing else out of
bounds either: whatever the swap queue is, only its links can lead astray. -/
structure StaysInside (s : State) : Prop where
  blind : ∀ frameTable, (∀ f < numFrames, frameTable f = s.frameTable f) →
    checkValidity { s with frameTable := frameTable } 1 = checkValidity s 1
  defined : ∀ queue, checkValidity { s with swapQueue := queue } 1 = .error .undefined →
    ∃ token, swapQueueFind queue token = .error .undefined

structure ChecksSound (s : State) : Prop where
  inside : StaysInside s
  consistent : checkValidity s 1 = .ok () → Consistent s

/-- The first loop comes to a running process whose PTBR is NUM_FRAMES. -/
def ReachesNumFrames (s : State) : Prop :=
  s.frameTablePtr = some 0 ∧ (s.frameTable 0).isProtected ≠ 0 ∧
    ∃ p < maxPid, (s.procs p).state = .running ∧ (s.procs p).savedPtbr = numFrames ∧
      ∀ q < p, (s.procs q).state = .running → PtbrOk s q

/-- Simulated memory as the checks see it: whatever the bytes of a frame are, they can be read
as page table entries. -/
def State.asTables (s : State) (read : Nat → Nat → Pte) : State :=
  { s with mem := fun frame => .pageTable (read frame) }

/-! ## The loop over the PTBRs -/

/-- How the checks stop early: they panic, or a lookup in the swap queue fails. -/
def Alarm (s : State) (fault : Fault) : Prop :=
  (∃ message, fault = .panic message) ∨ ∃ token, swapQueueFind s.swapQueue token = .error fault

variable {s : State}

theorem panicIf_ends (bad : Bool) (message : String) :
    Ends (Alarm s) (panicIf bad message) fun _ => bad = false := by
  cases bad with
  | true => exact .error (.inl ⟨message, rfl⟩)
  | false => exact .ok rfl

/-- The PTBRs of the processes below `n` were found right; only they and frame 0 are accounted
for. -/
structure PtbrsChecked (s : State) (n : Nat) (accounted : Accounted) : Prop where
  ptbr_ok : ∀ p < n, (s.procs p).state = .running → PtbrOk s p
  accounted_only : ∀ f, accounted f = true →
    f = 0 ∨ ∃ p < n, (s.procs p).state = .running ∧ (s.procs p).savedPtbr = f

theorem PtbrsChecked.skip {p : Nat} {accounted : Accounted} (h : PtbrsChecked s p accounted)
    (hp : (s.procs p).state ≠ .running) : PtbrsChecked s (p + 1) accounted where
  ptbr_ok q hq hrun := by
    rcases Nat.lt_succ_iff_lt_or_eq.mp hq with hlt | rfl
    · exact h.ptbr_ok q hlt hrun
    · exact absurd hrun hp
  accounted_only f hf := by
    rcases h.accounted_only f hf with hz | ⟨q, hq, hrun⟩
    · exact .inl hz
    · exact .inr ⟨q, Nat.lt_succ_of_lt hq, hrun⟩

theorem PtbrsChecked.mark {p : Nat} {accounted : Accounted} (h : PtbrsChecked s p accounted)
    (hrun : (s.procs p).state = .running) (hok : PtbrOk s p) :
    PtbrsChecked s (p + 1) (Function.update accounted (s.procs p).savedPtbr true) where
  ptbr_ok q hq hrunq := by
    rcases Nat.lt_succ_iff_lt_or_eq.mp hq with hlt | rfl
    · exact h.ptbr_ok q hlt hrunq
    · exact hok
  accounted_only f hf := by
    by_cases hfp : f = (s.procs p).savedPtbr
    · exact .inr ⟨p, Nat.lt_succ_self p, hrun, hfp.symm⟩
    · rw [Function.update_of_ne hfp] at hf
      rcases h.accounted_only f hf with hz | ⟨q, hq, hrunq⟩
      · exact .inl hz
      · exact .inr ⟨q, Nat.lt_succ_of_lt hq, hrunq⟩

theorem checkPtbr_ends {p : Nat} {accounted : Accounted} (hp : p < maxPid)
    (h : PtbrsChecked s p accounted)
    (hne : (s.procs p).state = .running → (s.procs p).savedPtbr ≠ numFrames) :
    Ends (Alarm s) (checkPtbr s accounted p) (PtbrsChecked s (p + 1)) := by
  rw [checkPtbr, Realizes.pcb_eq hp, ok_bind]
  by_cases hrun : (s.procs p).state = .running
  · rw [if_pos hrun]
    refine (panicIf_ends _ _).bind fun _ hrange => ?_
    have hbounds : 0 < (s.procs p).savedPtbr ∧ (s.procs p).savedPtbr < numFrames := by
      have hnot := hne hrun
      simp only [Bool.or_eq_false_iff, decide_eq_false_iff_not] at hrange
      omega
    rw [Realizes.fte_eq hbounds.2, ok_bind]
    refine (panicIf_ends _ _).bind fun _ hprot => ?_
    rw [Accounted.mark_eq hbounds.2]
    refine .ok (h.mark hrun ⟨hbounds.1, hbounds.2, ?_⟩)
    simpa using hprot
  · rw [if_neg hrun]
    exact .ok (h.skip hrun)

/-! ## The loops over the frames and the page tables -/

/-- A loop of checks that ends has made every check. -/
theorem checkLoop_ends {E : Fault → Prop} {check : Nat → Except Fault Unit} {P : Nat → Prop}
    (n : Nat) (hc : ∀ i, i < n → Ends E (check i) fun _ => P i) :
    Ends E ((List.range n).foldlM (fun _ => check) ()) fun _ => ∀ i < n, P i := by
  refine Ends.foldlM_range (fun (_ : Unit) => check) (fun n _ => ∀ i < n, P i) n ?_ ?_
  · intro i _ hi hbelow
    refine (hc i hi).mono fun _ _ hPi => ?_
    intro j hj
    rcases Nat.lt_succ_iff_lt_or_eq.mp hj with hlt | rfl
    · exact hbelow j hlt
    · exact hPi
  · intro i hi
    exact absurd hi (Nat.not_lt_zero i)

theorem checkProtected_ends (accounted : Accounted) {f : Nat} (hf : f < numFrames) :
    Ends (Alarm s) (checkProtected s accounted f) fun _ =>
      (s.frameTable f).isProtected ≠ 0 → accounted f = true := by
  rw [checkProtected, Realizes.fte_eq hf, ok_bind, Accounted.get_eq hf, ok_bind]
  refine (panicIf_ends _ _).mono fun _ _ hbad => ?_
  intro hprot
  simpa [hprot] using hbad

theorem checkMapped_ends (accounted : Accounted) {f : Nat} (hf : f < numFrames) :
    Ends (Alarm s) (checkMapped s accounted f) fun _ =>
      (s.frameTable f).isProtected = 0 → (s.frameTable f).mapped ≠ 0 → accounted f = true := by
  rw [checkMapped, Realizes.fte_eq hf, ok_bind, Accounted.get_eq hf, ok_bind]
  refine (panicIf_ends _ _).mono fun _ _ hbad => ?_
  intro hprot hmapped
  simpa [hprot, hmapped] using hbad

theorem checkMapping_ends (protectedFrames mapped : Accounted) (p v f : Nat) :
    Ends (Alarm s) (checkMapping s protectedFrames p v f mapped) fun mapped' =>
      0 < f ∧ f < numFrames ∧ protectedFrames f = false ∧ MapsBack s p v f ∧
        mapped' = Function.update mapped f true := by
  refine (panicIf_ends _ _).bind fun _ hrange => ?_
  have hbounds : 0 < f ∧ f < numFrames := by
    simp only [Bool.or_eq_false_iff, decide_eq_false_iff_not] at hrange
    omega
  rw [Accounted.get_eq hbounds.2, ok_bind]
  refine (panicIf_ends _ _).bind fun _ hprot => ?_
  rw [Accounted.get_eq hbounds.2, ok_bind]
  refine (panicIf_ends _ _).bind fun _ hnew => ?_
  rw [Realizes.fte_eq hbounds.2, ok_bind]
  cases hprocess : (s.frameTable f).process with
  | none => exact .error (.inl ⟨_, rfl⟩)
  | some process =>
    refine (panicIf_ends _ _).bind fun _ hmax => ?_
    refine (panicIf_ends _ _).bind fun _ hagree => ?_
    rw [Accounted.mark_eq hbounds.2]
    simp only [Bool.or_eq_false_iff, decide_eq_false_iff_not, not_not, Nat.not_le] at hmax hagree
    exact .ok ⟨hbounds.1, hbounds.2, hprot,
      ⟨hagree.1.1, ⟨process, hmax, hprocess, hagree.1.2⟩, hagree.2⟩, rfl⟩

theorem checkSwap_ends (swap : Nat) :
    Ends (Alarm s) (checkSwap s swap) fun _ => swap ≠ 0 → s.swapQueue.HasToken swap := by
  by_cases hs : swap = 0
  · rw [checkSwap, if_neg (not_not_intro hs)]
    exact .ok fun hne => absurd hs hne
  · rw [checkSwap, if_pos hs]
    cases hfind : swapQueueFind s.swapQueue swap with
    | error fault => exact .error (.inr ⟨swap, hfind⟩)
    | ok found =>
      refine (panicIf_ends _ _).mono fun _ _ hfound => ?_
      intro _
      cases found with
      | none => simp at hfound
      | some a =>
        obtain ⟨info, h⟩ := findLoop_some hfind
        exact ⟨a, info, h⟩

/-- What the checks establish of one entry. -/
structure EntryOk (s : State) (pid vpn : Nat) (entry : Pte) : Prop where
  mapped : entry.valid ≠ 0 → 0 < entry.pfn ∧ entry.pfn < numFrames ∧
    (s.frameTable entry.pfn).isProtected = 0 ∧ MapsBack s pid vpn entry.pfn
  swapped : entry.swap ≠ 0 → s.swapQueue.HasToken entry.swap

/-- Every protected frame is accounted for. -/
def Accounts (s : State) (accounted : Accounted) : Prop :=
  ∀ f < numFrames, (s.frameTable f).isProtected ≠ 0 → accounted f = true

theorem checkEntry_ends {protectedFrames mapped : Accounted} (hall : Accounts s protectedFrames)
    {p v ptbr : Nat} {e : Pte} (he : s.pte ptbr v = .ok e) :
    Ends (Alarm s) (checkEntry s protectedFrames p ptbr mapped v) fun mapped' =>
      EntryOk s p v e ∧ ∀ f, mapped' f = true → mapped f = true ∨ e.valid ≠ 0 ∧ e.pfn = f := by
  rw [checkEntry, he, ok_bind]
  refine (panicIf_ends _ _).bind fun _ _ => ?_
  refine (panicIf_ends _ _).bind fun _ _ => ?_
  by_cases hval : e.valid = 0
  · rw [if_neg (not_not_intro hval)]
    refine (checkSwap_ends e.swap).bind fun _ hswap => .ok ?_
    exact ⟨⟨fun hne => absurd hval hne, hswap⟩, fun f hf => .inl hf⟩
  · rw [if_pos hval]
    refine (checkMapping_ends protectedFrames mapped p v e.pfn).bind fun mapped' hmap => ?_
    refine (checkSwap_ends e.swap).bind fun _ hswap => .ok ?_
    obtain ⟨hpos, hlt, hfree, hback, rfl⟩ := hmap
    have hprot : (s.frameTable e.pfn).isProtected = 0 := by
      by_contra hne
      rw [hall e.pfn hlt hne] at hfree
      simp at hfree
    refine ⟨⟨fun _ => ⟨hpos, hlt, hprot, hback⟩, hswap⟩, ?_⟩
    intro f hf
    by_cases hfe : f = e.pfn
    · exact .inr ⟨hval, hfe.symm⟩
    · rw [Function.update_of_ne hfe] at hf
      exact .inl hf

/-- The entries visited so far were found right; only frames of valid entries are accounted
for. -/
structure EntriesChecked (s : State) (visited : Nat → Nat → Prop) (accounted : Accounted) :
    Prop where
  entry_ok : ∀ p v e, visited p v → TableEntry s p v e → EntryOk s p v e
  accounted_only : ∀ f, accounted f = true →
    ∃ p v e, TableEntry s p v e ∧ e.valid ≠ 0 ∧ e.pfn = f

theorem EntriesChecked.mono {accounted : Accounted} {visited visited' : Nat → Nat → Prop}
    (h : EntriesChecked s visited accounted)
    (himp : ∀ p v e, TableEntry s p v e → visited' p v → visited p v) :
    EntriesChecked s visited' accounted where
  entry_ok p v e hvis he := h.entry_ok p v e (himp p v e he hvis) he
  accounted_only := h.accounted_only

theorem EntriesChecked.visit {accounted accounted' : Accounted} {visited : Nat → Nat → Prop}
    (h : EntriesChecked s visited accounted) {p v : Nat} {e : Pte} (he : TableEntry s p v e)
    (hok : EntryOk s p v e)
    (hmark : ∀ f, accounted' f = true → accounted f = true ∨ e.valid ≠ 0 ∧ e.pfn = f) :
    EntriesChecked s (fun q w => visited q w ∨ q = p ∧ w = v) accounted' where
  entry_ok q w e' hvis he' := by
    rcases hvis with hvis | ⟨rfl, rfl⟩
    · exact h.entry_ok q w e' hvis he'
    · obtain rfl := Except.ok.inj (he.pte_eq.symm.trans he'.pte_eq)
      exact hok
  accounted_only f hf := by
    rcases hmark f hf with hold | ⟨hval, hpfn⟩
    · exact h.accounted_only f hold
    · exact ⟨p, v, e, he, hval, hpfn⟩

theorem checkPageTable_ends {protectedFrames mapped : Accounted}
    (hall : Accounts s protectedFrames) {p : Nat} (hp : p < maxPid)
    (htable : (s.procs p).state = .running →
      ∃ entries, s.pageTable (s.procs p).savedPtbr = .ok entries)
    (h : EntriesChecked s (fun q _ => q < p) mapped) :
    Ends (Alarm s) (checkPageTable s protectedFrames mapped p)
      (EntriesChecked s fun q _ => q < p + 1) := by
  rw [checkPageTable, Realizes.pcb_eq hp, ok_bind]
  by_cases hrun : (s.procs p).state = .running
  · rw [if_pos hrun]
    obtain ⟨entries, hentries⟩ := htable hrun
    have hloop := Ends.foldlM_range (E := Alarm s)
      (checkEntry s protectedFrames p (s.procs p).savedPtbr)
      (fun i => EntriesChecked s fun q w => q < p ∨ q = p ∧ w < i) (s := mapped) numPages
      (by
        intro i m hi hm
        have hpte : s.pte (s.procs p).savedPtbr i = .ok (entries i) := by
          rw [State.pte, hentries, ok_bind, if_pos hi]
          rfl
        refine (checkEntry_ends hall hpte).mono fun m' _ hm' => ?_
        refine (hm.visit ⟨hp, hrun, hi, hpte⟩ hm'.1 hm'.2).mono ?_
        intro q w e _ hvis
        omega)
      (h.mono fun q w e _ hvis => by omega)
    refine hloop.mono fun m' _ hm' => hm'.mono ?_
    intro q w e he hvis
    have hw := he.vpn_lt
    omega
  · rw [if_neg hrun]
    refine .ok (h.mono ?_)
    intro q w e he hvis
    have hqp : q ≠ p := by
      rintro rfl
      exact hrun he.running
    omega

/-! ## The whole of check_validity -/

/-- Frame 0 alone is accounted for before the first loop. -/
theorem ptbrsChecked_zero : PtbrsChecked s 0 (Function.update (fun _ => false) 0 true) where
  ptbr_ok p hp := absurd hp (Nat.not_lt_zero p)
  accounted_only f hf := by
    by_cases hz : f = 0
    · exact .inl hz
    · rw [Function.update_of_ne hz] at hf
      simp at hf

/-- Away from the exception, a PTBR that the first loop comes to is not NUM_FRAMES. -/
theorem PtbrsChecked.ne_numFrames {p : Nat} {accounted : Accounted}
    (h : PtbrsChecked s p accounted) (hno : ¬ ReachesNumFrames s)
    (hptr : s.frameTablePtr = some 0) (hzero : (s.frameTable 0).isProtected ≠ 0) (hp : p < maxPid)
    (hrun : (s.procs p).state = .running) : (s.procs p).savedPtbr ≠ numFrames :=
  fun heq => hno ⟨hptr, hzero, p, hp, hrun, heq, h.ptbr_ok⟩

theorem Consistent.of_checked {accounted mapped : Accounted}
    (hptbrs : PtbrsChecked s maxPid accounted) (hall : Accounts s accounted)
    (hentries : EntriesChecked s (fun p _ => p < maxPid) mapped)
    (hmapped : ∀ f < numFrames, (s.frameTable f).isProtected = 0 → (s.frameTable f).mapped ≠ 0 →
      mapped f = true) : Consistent s where
  ptbr_ok := hptbrs.ptbr_ok
  protected_only f hf hprot := hptbrs.accounted_only f (hall f hf hprot)
  mapped_of_valid p v e he := (hentries.entry_ok p v e he.pid_lt he).mapped
  pfn_inj p v e q w e' he hval he' hval' hpfn := by
    -- the frame names its page
    obtain ⟨-, -, -, -, ⟨process, -, hprocess, hpid⟩, hvpn⟩ :=
      (hentries.entry_ok p v e he.pid_lt he).mapped hval
    obtain ⟨-, -, -, -, ⟨process', -, hprocess', hpid'⟩, hvpn'⟩ :=
      (hentries.entry_ok q w e' he'.pid_lt he').mapped hval'
    rw [← hpfn, hprocess] at hprocess'
    obtain rfl := Option.some_inj.mp hprocess'
    rw [← hpfn] at hvpn'
    exact ⟨hpid.symm.trans hpid', hvpn.symm.trans hvpn'⟩
  valid_of_mapped f hf hprot hmap := hentries.accounted_only f (hmapped f hf hprot hmap)
  swap_present p v e he := (hentries.entry_ok p v e he.pid_lt he).swapped

theorem checkTables_ends (htables : ∀ f, ∃ entries, s.mem f = .pageTable entries)
    (hptr : s.frameTablePtr = some 0)
    (hzero : (s.frameTable 0).isProtected ≠ 0) (hno : ¬ ReachesNumFrames s) :
    Ends (Alarm s) (checkTables s (Function.update (fun _ => false) 0 true)) fun _ =>
      Consistent s := by
  have hptbrs := Ends.foldlM_range (E := Alarm s) (checkPtbr s) (PtbrsChecked s) maxPid
    (fun p _ hp h => checkPtbr_ends hp h fun hrun => h.ne_numFrames hno hptr hzero hp hrun)
    ptbrsChecked_zero
  refine hptbrs.bind fun accounted haccounted => ?_
  refine (checkLoop_ends numFrames fun f hf => checkProtected_ends accounted hf).bind
    fun _ hall => ?_
  have hentries := Ends.foldlM_range (E := Alarm s) (checkPageTable s accounted)
    (fun p => EntriesChecked s fun q _ => q < p) (s := fun _ => false) maxPid
    (by
      intro p m hp hm
      refine checkPageTable_ends hall hp ?_ hm
      intro hrun
      obtain ⟨entries, hentries⟩ := htables (s.procs p).savedPtbr
      have hlt := (haccounted.ptbr_ok p hp hrun).2.1
      exact ⟨entries, by rw [State.pageTable, if_pos hlt, hentries]⟩)
    ⟨fun p _ _ hp => absurd hp (Nat.not_lt_zero p), fun f hf => absurd hf Bool.false_ne_true⟩
  refine hentries.bind fun mapped hm => ?_
  refine (checkLoop_ends numFrames fun f hf => checkMapped_ends mapped hf).mono
    fun _ _ hmapped => ?_
  exact .of_checked haccounted hall hm hmapped

theorem checkValidity_ends (htables : ∀ f, ∃ entries, s.mem f = .pageTable entries)
    (hno : ¬ ReachesNumFrames s) :
    Ends (Alarm s) (checkValidity s 1) fun _ => Consistent s := by
  have hlt : (0 : Nat) < numFrames := by decide
  refine (panicIf_ends _ _).bind fun _ hptr => ?_
  rw [Realizes.fte_eq hlt, ok_bind]
  refine (panicIf_ends _ _).bind fun _ hzero => ?_
  rw [Accounted.mark_eq hlt, ok_bind, if_neg (by decide)]
  exact checkTables_ends htables (by simpa using hptr) (by simpa using hzero) hno

/-! ## Behind the frame table -/

section Behind

variable {frameTable : Nat → Fte}

theorem fte_congr (hagree : ∀ f < numFrames, frameTable f = s.frameTable f) {f : Nat}
    (hf : f < numFrames) : State.fte { s with frameTable := frameTable } f = s.fte f := by
  rw [Realizes.fte_eq hf, Realizes.fte_eq hf]
  exact congrArg Except.ok (hagree f hf)

theorem checkPtbr_congr (hagree : ∀ f < numFrames, frameTable f = s.frameTable f) {p : Nat}
    (accounted : Accounted) (hp : p < maxPid)
    (hne : (s.procs p).state = .running → (s.procs p).savedPtbr ≠ numFrames) :
    checkPtbr { s with frameTable := frameTable } accounted p = checkPtbr s accounted p := by
  rw [checkPtbr, checkPtbr, Realizes.pcb_eq hp, Realizes.pcb_eq hp, ok_bind, ok_bind]
  by_cases hrun : (s.procs p).state = .running
  · rw [if_pos hrun, if_pos hrun]
    dsimp only
    have hnot := hne hrun
    by_cases hlt : (s.procs p).savedPtbr < numFrames
    · rw [fte_congr hagree hlt]
    · have hbad : (decide ((s.procs p).savedPtbr ≤ 0) ||
          decide ((s.procs p).savedPtbr > numFrames)) = true := by
        simp only [Bool.or_eq_true, decide_eq_true_eq]
        omega
      rw [panicIf_error hbad, error_bind, error_bind]
  · rw [if_neg hrun, if_neg hrun]

theorem checkProtected_congr (hagree : ∀ f < numFrames, frameTable f = s.frameTable f)
    (accounted : Accounted) {f : Nat} (hf : f < numFrames) :
    checkProtected { s with frameTable := frameTable } accounted f =
      checkProtected s accounted f := by
  rw [checkProtected, checkProtected, fte_congr hagree hf]

theorem checkMapped_congr (hagree : ∀ f < numFrames, frameTable f = s.frameTable f)
    (accounted : Accounted) {f : Nat} (hf : f < numFrames) :
    checkMapped { s with frameTable := frameTable } accounted f = checkMapped s accounted f := by
  rw [checkMapped, checkMapped, fte_congr hagree hf]

theorem checkMapping_congr (hagree : ∀ f < numFrames, frameTable f = s.frameTable f)
    (protectedFrames mapped : Accounted) (p v f : Nat) :
    checkMapping { s with frameTable := frameTable } protectedFrames p v f mapped =
      checkMapping s protectedFrames p v f mapped := by
  by_cases hlt : f < numFrames
  · rw [checkMapping, checkMapping, fte_congr hagree hlt]
  · have hbad : (decide (f ≤ 0) || decide (f > numFrames - 1)) = true := by
      simp only [Bool.or_eq_true, decide_eq_true_eq]
      omega
    rw [checkMapping, checkMapping, panicIf_error hbad, error_bind, error_bind]

theorem checkPageTable_congr (hagree : ∀ f < numFrames, frameTable f = s.frameTable f)
    (protectedFrames mapped : Accounted) (p : Nat) :
    checkPageTable { s with frameTable := frameTable } protectedFrames mapped p =
      checkPageTable s protectedFrames mapped p := by
  have hentry : checkEntry { s with frameTable := frameTable } = checkEntry s := by
    funext protectedFrames p ptbr mapped v
    simp only [checkEntry, checkMapping_congr hagree]
    rfl
  rw [checkPageTable, checkPageTable, hentry]
  rfl

theorem checkLoop_congr {check check' : Nat → Except Fault Unit} (n : Nat)
    (hc : ∀ i, i < n → check' i = check i) :
    (List.range n).foldlM (fun _ => check') () = (List.range n).foldlM (fun _ => check) () :=
  foldlM_range_congr (fun _ _ => True) n (fun i _ hi _ => ⟨Ends.total _, hc i hi⟩) trivial

theorem checkTables_congr (hagree : ∀ f < numFrames, frameTable f = s.frameTable f)
    (hptr : s.frameTablePtr = some 0) (hzero : (s.frameTable 0).isProtected ≠ 0)
    (hno : ¬ ReachesNumFrames s) :
    checkTables { s with frameTable := frameTable } (Function.update (fun _ => false) 0 true) =
      checkTables s (Function.update (fun _ => false) 0 true) := by
  have hptbrs := foldlM_range_congr (E := Alarm s) (PtbrsChecked s) maxPid
    (fun p accounted hp h => by
      have hne := h.ne_numFrames hno hptr hzero hp
      exact ⟨checkPtbr_ends hp h hne, checkPtbr_congr hagree accounted hp hne⟩)
    ptbrsChecked_zero
  have htables : ∀ accounted, checkPageTable { s with frameTable := frameTable } accounted =
      checkPageTable s accounted := by
    intro accounted
    funext mapped p
    exact checkPageTable_congr hagree accounted mapped p
  rw [checkTables, checkTables, hptbrs]
  refine bind_congr fun accounted => ?_
  rw [checkLoop_congr numFrames fun f hf => checkProtected_congr hagree accounted hf,
    htables accounted]
  refine bind_congr fun _ => bind_congr fun mapped => ?_
  exact checkLoop_congr numFrames fun f hf => checkMapped_congr hagree mapped hf

theorem checkValidity_congr (hagree : ∀ f < numFrames, frameTable f = s.frameTable f)
    (hno : ¬ ReachesNumFrames s) :
    checkValidity { s with frameTable := frameTable } 1 = checkValidity s 1 := by
  have hlt : (0 : Nat) < numFrames := by decide
  simp only [checkValidity, fte_congr hagree hlt, Realizes.fte_eq hlt, Accounted.mark_eq hlt,
    ok_bind, if_neg (Nat.lt_irrefl 1)]
  by_cases hptr : s.frameTablePtr = some 0
  · by_cases hzero : (s.frameTable 0).isProtected = 0
    · have hbad : decide ((s.frameTable 0).isProtected = 0) = true := decide_eq_true hzero
      rw [panicIf_error hbad, error_bind, error_bind]
    · rw [checkTables_congr hagree hptr hzero hno]
  · have hbad : decide (s.frameTablePtr ≠ some 0) = true := decide_eq_true hptr
    rw [panicIf_error hbad, error_bind, error_bind]

end Behind

/-! ## The exception -/

/-- The bytes behind the frame table decide between a panic and a store behind the array of the
accounted frames. -/
def behindTable (s : State) : Fault :=
  if (s.frameTable numFrames).isProtected = 0 then .panic
    "Frames corresponding to the page tables of running processes must be marked as protected"
  else .undefined

theorem ReachesNumFrames.checkValidity_eq (h : ReachesNumFrames s) :
    checkValidity s 1 = .error (behindTable s) := by
  obtain ⟨hptr, hzero, p, hp, hrun, heq, hbefore⟩ := h
  have hlt : (0 : Nat) < numFrames := by decide
  obtain ⟨accounted, hloop, -⟩ := foldlM_range_invariant (checkPtbr s) (fun _ _ => True)
    (s := Function.update (fun _ => false) 0 true) p
    (by
      intro q accounted hq _
      by_cases hrunq : (s.procs q).state = .running
      · exact ⟨_, checkPtbr_eq (hq.trans hp) hrunq (hbefore q hq hrunq), trivial⟩
      · exact ⟨_, checkPtbr_skip (hq.trans hp) hrunq, trivial⟩)
    trivial
  have hfte : s.fte numFrames = .ok (s.frameTable numFrames) := if_pos (by decide)
  have hmark : accounted.mark numFrames = .error .undefined := if_neg (Nat.lt_irrefl numFrames)
  have hat : checkPtbr s accounted p = .error (behindTable s) := by
    rw [checkPtbr, Realizes.pcb_eq hp, ok_bind, if_pos hrun, behindTable]
    dsimp only
    rw [heq, panicIf_eq (by decide), ok_bind, hfte, ok_bind]
    by_cases hprot : (s.frameTable numFrames).isProtected = 0
    · rw [if_pos hprot, panicIf_error (decide_eq_true hprot), error_bind]
    · rw [if_neg hprot, panicIf_eq (decide_eq_false hprot), ok_bind, hmark]
  have hgood : decide (s.frameTablePtr ≠ some 0) = false := decide_eq_false (not_not_intro hptr)
  simp only [checkValidity, panicIf_eq hgood, Realizes.fte_eq hlt,
    panicIf_eq (decide_eq_false hzero), Accounted.mark_eq hlt, ok_bind,
    if_neg (Nat.lt_irrefl 1), checkTables, foldlM_range_error hp hloop hat, error_bind]

theorem ReachesNumFrames.congr (h : ReachesNumFrames s) {frameTable : Nat → Fte}
    (hagree : ∀ f < numFrames, frameTable f = s.frameTable f) :
    ReachesNumFrames { s with frameTable := frameTable } := by
  obtain ⟨hptr, hzero, p, hp, hrun, heq, hbefore⟩ := h
  refine ⟨hptr, ?_, p, hp, hrun, heq, ?_⟩
  · show (frameTable 0).isProtected ≠ 0
    rw [hagree 0 (by decide)]
    exact hzero
  · intro q hq hrunq
    obtain ⟨hpos, hlt, hprot⟩ := hbefore q hq hrunq
    refine ⟨hpos, hlt, ?_⟩
    show (frameTable (s.procs q).savedPtbr).isProtected ≠ 0
    rw [hagree _ hlt]
    exact hprot

theorem ReachesNumFrames.not_inside (h : ReachesNumFrames s) : ¬ StaysInside s := by
  intro hinside
  have hagree : ∀ e : Fte, ∀ f < numFrames,
      Function.update s.frameTable numFrames e f = s.frameTable f :=
    fun e f hf => Function.update_of_ne (Nat.ne_of_lt hf) ..
  have hclear := (h.congr (hagree {})).checkValidity_eq
  have hset := (h.congr (hagree { isProtected := 1 })).checkValidity_eq
  rw [hinside.blind _ (hagree _)] at hclear hset
  rw [hclear] at hset
  simp [behindTable] at hset

/-- On every state of the tables and the swap queue, `check_validity(1)` is sound unless it
comes to a running process whose PTBR is NUM_FRAMES. -/
theorem checks_sound_iff (s : State) (read : Nat → Nat → Pte) :
    ChecksSound (s.asTables read) ↔ ¬ ReachesNumFrames (s.asTables read) := by
  constructor
  · intro hsound hreach
    exact hreach.not_inside hsound.inside
  · intro hno
    refine ⟨⟨fun frameTable hagree => checkValidity_congr hagree hno, ?_⟩, ?_⟩
    · intro queue hundef
      have hends : Ends (Alarm { s.asTables read with swapQueue := queue }) _ _ :=
        checkValidity_ends (fun f => ⟨read f, rfl⟩) hno
      rcases hends with ⟨fault, hfault, halarm⟩ | ⟨_, hok, -⟩
      · rw [hundef] at hfault
        obtain rfl := Except.error.inj hfault
        rcases halarm with ⟨message, hpanic⟩ | hlookup
        · simp at hpanic
        · exact hlookup
      · rw [hundef] at hok
        simp at hok
    · intro hpass
      rcases checkValidity_ends (fun f => ⟨read f, rfl⟩) hno with
          ⟨fault, hfault, -⟩ | ⟨_, -, hconsistent⟩
      · rw [hpass] at hfault
        simp at hfault
      · exact hconsistent

/-- Process 5 runs with PTBR 64, and the bytes behind the frame table happen to mark its
entry protected. -/
def overshotState : State :=
  { boot fun _ => 0 with
    procs := Function.update (fun _ => {}) 5 { pid := 5, state := .running, savedPtbr := 64 }
    frameTable := fun f => if f = 0 ∨ f = 64 then { isProtected := 1 } else {} }

/-- There the checks write outside the array of accounted frames. -/
theorem ptbr_overshoots : ¬ ChecksSound (overshotState.asTables fun _ _ => {}) := by
  intro hsound
  have hundef : checkValidity (overshotState.asTables fun _ _ => {}) 1 = .error .undefined := by
    decide +kernel
  obtain ⟨token, hfind⟩ := hsound.inside.defined .empty hundef
  have hnone : swapQueueFind .empty token = .ok none := rfl
  rw [hnone] at hfind
  simp at hfind

end ECE3056.Vm
