import ECE3056.Vm.Realizes

/-!
# Memory in which no table is taken for another

`Sound` says less than that memory realizes a layout: page tables lie in protected
frames other than frame 0, and a valid entry names a mapped frame that the frame
table gives to its page. It leaves open whether the contents of pages are right,
so it also holds when a process has been started twice.
-/

namespace ECE3056.Vm

open ECE3056.Fallible

/-- The frame is mapped, and given to page `v` of process `p`. -/
structure PageFrame (s : State) (f p v : Nat) : Prop where
  lt : f < numFrames
  isProtected : (s.frameTable f).isProtected = 0
  mapped : (s.frameTable f).mapped = 1
  process : (s.frameTable f).process = some p
  vpn : (s.frameTable f).vpn = v
  data : ∃ page, s.mem f = .data page

/-- The process has a page table, with these entries. -/
structure HasTable (s : State) (p : Nat) (entries : Nat → Pte) : Prop where
  ne_zero : (s.procs p).savedPtbr ≠ 0
  lt : (s.procs p).savedPtbr < numFrames
  isProtected : (s.frameTable (s.procs p).savedPtbr).isProtected ≠ 0
  mem_eq : s.mem (s.procs p).savedPtbr = .pageTable entries

/-- The page table entries spoken of are those of the live pages. -/
structure Sound (live : Nat → Nat → Prop) (s : State) : Prop where
  mem_zero : s.mem 0 = .frameTable
  zero_protected : (s.frameTable 0).isProtected ≠ 0
  table : ∀ p, (s.procs p).savedPtbr ≠ 0 →
    p < maxPid ∧ (s.procs p).pid = p ∧ ∃ entries, HasTable s p entries
  table_inj : ∀ p q, (s.procs p).savedPtbr ≠ 0 → (s.procs p).savedPtbr = (s.procs q).savedPtbr →
    p = q
  entry : ∀ p entries v, HasTable s p entries → live p v → v < numPages →
    (entries v).valid ≠ 0 → PageFrame s (entries v).pfn p v
  frame : ∀ f, f < numFrames → (s.frameTable f).isProtected = 0 → (s.frameTable f).mapped = 1 →
    ∃ p v, p < maxPid ∧ v < numPages ∧ PageFrame s f p v
  current : ∀ p, s.currentProcess = some p → p < maxPid ∧ (s.procs p).pid = p
  queue : ∃ tokens, s.swapQueue.Represents tokens

/-- Every page is spoken of, as it is between two lines. -/
abbrev Sound.Whole (s : State) : Prop := Sound (fun _ _ => True) s

variable {s s' : State} {live : Nat → Nat → Prop} {p v f : Nat} {entries : Nat → Pte}

/-! ## Reading -/

theorem HasTable.pageTable_eq (h : HasTable s p entries) :
    s.pageTable (s.procs p).savedPtbr = .ok entries := by
  rw [State.pageTable, if_pos h.lt, h.mem_eq]

theorem HasTable.pte_eq (h : HasTable s p entries) (hv : v < numPages) :
    s.pte (s.procs p).savedPtbr v = .ok (entries v) := by
  rw [State.pte, h.pageTable_eq, ok_bind, if_pos hv]
  rfl

theorem HasTable.setPte_eq (h : HasTable s p entries) (hv : v < numPages) (e : Pte) :
    s.setPte (s.procs p).savedPtbr v e = .ok { s with
      mem := Function.update s.mem (s.procs p).savedPtbr
        (.pageTable (Function.update entries v e)) } := by
  rw [State.setPte, h.pageTable_eq, ok_bind, if_pos hv]
  rfl

theorem HasTable.unique {entries' : Nat → Pte} (h : HasTable s p entries)
    (h' : HasTable s p entries') : entries' = entries :=
  Frame.pageTable.inj (h'.mem_eq.symm.trans h.mem_eq)

/-- A page is not in a frame that holds a page table. -/
theorem HasTable.ne_frame {q w : Nat} (h : HasTable s p entries) (hf : PageFrame s f q w) :
    f ≠ (s.procs p).savedPtbr := by
  rintro rfl
  exact h.isProtected hf.isProtected

theorem HasTable.update_self (h : HasTable s p entries) (entries' : Nat → Pte) :
    HasTable { s with mem := Function.update s.mem (s.procs p).savedPtbr (.pageTable entries') } p
      entries' :=
  ⟨h.ne_zero, h.lt, h.isProtected, Function.update_self ..⟩

theorem PageFrame.page_eq (h : PageFrame s f p v) : ∃ page, s.page f = .ok page := by
  obtain ⟨page, hpage⟩ := h.data
  exact ⟨page, by rw [State.page, if_pos h.lt, hpage]⟩

/-- A frame is given to one page. -/
theorem PageFrame.owner_unique {q w : Nat} (h : PageFrame s f p v) (h' : PageFrame s f q w) :
    q = p ∧ w = v :=
  ⟨Option.some_inj.mp (h'.process.symm.trans h.process), h'.vpn.symm.trans h.vpn⟩

/-! ## What leaves a frame as it is -/

/-- Only the `referenced` bit of the frame table entry may change. -/
def SameFrame (s s' : State) (f : Nat) : Prop :=
  s'.mem f = s.mem f ∧
    { s'.frameTable f with referenced := 0 } = { s.frameTable f with referenced := 0 }

theorem SameFrame.of_eq (hmem : s'.mem f = s.mem f) (hft : s'.frameTable f = s.frameTable f) :
    SameFrame s s' f := ⟨hmem, by rw [hft]⟩

theorem PageFrame.congr (h : PageFrame s f p v) (hsame : SameFrame s s' f) :
    PageFrame s' f p v := by
  obtain ⟨hmem, hft⟩ := hsame
  simp only [Fte.mk.injEq, true_and] at hft
  obtain ⟨hprot, hmap, hproc, hvpn⟩ := hft
  exact ⟨h.lt, hprot.trans h.isProtected, hmap.trans h.mapped, hproc.trans h.process,
    hvpn.trans h.vpn, hmem ▸ h.data⟩

theorem HasTable.congr (h : HasTable s p entries) (hprocs : s'.procs p = s.procs p)
    (hsame : SameFrame s s' (s.procs p).savedPtbr) : HasTable s' p entries := by
  obtain ⟨hmem, hft⟩ := hsame
  simp only [Fte.mk.injEq, true_and] at hft
  refine ⟨?_, ?_, ?_, ?_⟩ <;> rw [hprocs]
  · exact h.ne_zero
  · exact h.lt
  · rw [hft.1]
    exact h.isProtected
  · exact hmem.trans h.mem_eq

theorem sameFrame_setReferenced (s : State) (f : Nat) (b : UInt8) (g : Nat) :
    SameFrame s { s with
      frameTable := Function.update s.frameTable f { s.frameTable f with referenced := b } } g := by
  refine ⟨rfl, ?_⟩
  by_cases hg : g = f
  · subst hg
    simp
  · simp [Function.update_of_ne hg]

namespace Sound

theorem hasTable (h : Sound live s) (hp : (s.procs p).savedPtbr ≠ 0) :
    ∃ entries, HasTable s p entries := (h.table p hp).2.2

/-! ## Writing -/

/-- The page tables stay as they are, and so do the frames that live entries name. -/
theorem of_tables (h : Sound live s) (hmem : s'.mem 0 = s.mem 0)
    (hzero : (s'.frameTable 0).isProtected = (s.frameTable 0).isProtected)
    (hprocs : s'.procs = s.procs)
    (hcur : ∀ p, s'.currentProcess = some p → p < maxPid ∧ (s.procs p).pid = p)
    (hqueue : ∃ tokens, s'.swapQueue.Represents tokens)
    (htable : ∀ p entries, HasTable s p entries → HasTable s' p entries)
    (hentry : ∀ p entries v, HasTable s p entries → live p v → v < numPages →
      (entries v).valid ≠ 0 → PageFrame s' (entries v).pfn p v)
    (hframe : ∀ f, f < numFrames → (s'.frameTable f).isProtected = 0 →
      (s'.frameTable f).mapped = 1 → ∃ p v, p < maxPid ∧ v < numPages ∧ PageFrame s' f p v) :
    Sound live s' where
  mem_zero := hmem.trans h.mem_zero
  zero_protected := by
    rw [hzero]
    exact h.zero_protected
  table p hp := by
    rw [hprocs] at hp ⊢
    obtain ⟨hlt, hpid, entries, ht⟩ := h.table p hp
    exact ⟨hlt, hpid, entries, htable p entries ht⟩
  table_inj := by
    rw [hprocs]
    exact h.table_inj
  entry p entries' v ht' := by
    have hp := ht'.ne_zero
    rw [hprocs] at hp
    obtain ⟨entries, ht⟩ := h.hasTable hp
    rw [(htable p entries ht).unique ht']
    exact hentry p entries v ht
  frame := hframe
  current := by
    rw [hprocs]
    exact hcur
  queue := hqueue

/-- What `Sound` does not speak of may change. -/
theorem congr (h : Sound live s) (hsame : ∀ f, SameFrame s s' f) (hprocs : s'.procs = s.procs)
    (hcur : ∀ p, s'.currentProcess = some p → p < maxPid ∧ (s.procs p).pid = p)
    (hqueue : ∃ tokens, s'.swapQueue.Represents tokens) : Sound live s' := by
  have hft : ∀ f, (s'.frameTable f).isProtected = (s.frameTable f).isProtected ∧
      (s'.frameTable f).mapped = (s.frameTable f).mapped := by
    intro f
    have hf := (hsame f).2
    simp only [Fte.mk.injEq] at hf
    exact ⟨hf.1, hf.2.1⟩
  refine h.of_tables (hsame 0).1 (hft 0).1 hprocs hcur hqueue ?_ ?_ ?_
  · intro p entries ht
    exact ht.congr (congrFun hprocs p) (hsame _)
  · intro p entries v ht hl hv hval
    exact (h.entry p entries v ht hl hv hval).congr (hsame _)
  · intro f hf hprot hmap
    rw [(hft f).1] at hprot
    rw [(hft f).2] at hmap
    obtain ⟨p, v, hp, hv, hpf⟩ := h.frame f hf hprot hmap
    exact ⟨p, v, hp, hv, hpf.congr (hsame f)⟩

theorem setReferenced (h : Sound live s) (f : Nat) (b : UInt8) :
    Sound live { s with
      frameTable := Function.update s.frameTable f { s.frameTable f with referenced := b } } :=
  h.congr (sameFrame_setReferenced s f b) rfl h.current h.queue

/-- Pages are no longer spoken of. -/
theorem mono {live' : Nat → Nat → Prop} (h : Sound live s) (himp : ∀ p v, live' p v → live p v) :
    Sound live' s :=
  { h with entry := fun p entries v ht hl => h.entry p entries v ht (himp p v hl) }

/-- A page is spoken of again. -/
theorem revive (h : Sound (fun q w => ¬ (q = p ∧ w = v)) s)
    (he : ∀ entries, HasTable s p entries → (entries v).valid ≠ 0 →
      PageFrame s (entries v).pfn p v) : Whole s := by
  refine { h with entry := ?_ }
  intro q entries w ht _ hw hval
  by_cases hqw : q = p ∧ w = v
  · obtain ⟨rfl, rfl⟩ := hqw
    exact he entries ht hval
  · exact h.entry q entries w ht hqw hw hval

/-- Storing a page table entry that is invalid, or names the frame of its page. -/
theorem setEntry (h : Sound live s) (ht : HasTable s p entries) {e : Pte}
    (he : live p v → e.valid ≠ 0 → PageFrame s e.pfn p v) :
    Sound live { s with
      mem := Function.update s.mem (s.procs p).savedPtbr
        (.pageTable (Function.update entries v e)) } := by
  have hpage : ∀ {f q w}, PageFrame s f q w → PageFrame { s with
      mem := Function.update s.mem (s.procs p).savedPtbr
        (.pageTable (Function.update entries v e)) } f q w := by
    intro f q w hf
    exact hf.congr (.of_eq (Function.update_of_ne (ht.ne_frame hf) ..) rfl)
  have hother : ∀ {q}, (s.procs q).savedPtbr ≠ 0 → q ≠ p →
      (s.procs q).savedPtbr ≠ (s.procs p).savedPtbr :=
    fun hq hqp heq => hqp (h.table_inj _ _ hq heq)
  refine { h with
    mem_zero := (Function.update_of_ne (Ne.symm ht.ne_zero) ..).trans h.mem_zero
    table := ?_
    entry := ?_
    frame := ?_ }
  · intro q hq
    obtain ⟨hlt, hpid, entries', ht'⟩ := h.table q hq
    refine ⟨hlt, hpid, ?_⟩
    by_cases hqp : q = p
    · subst hqp
      exact ⟨_, ht.update_self _⟩
    · exact ⟨entries', { ht' with
        mem_eq := (Function.update_of_ne (hother hq hqp) ..).trans ht'.mem_eq }⟩
  · intro q entries' w ht' hl hw hval
    by_cases hqp : q = p
    · subst hqp
      rw [(ht.update_self _).unique ht'] at hval ⊢
      by_cases hwv : w = v
      · subst hwv
        rw [Function.update_self] at hval ⊢
        exact hpage (he hl hval)
      · rw [Function.update_of_ne hwv] at hval ⊢
        exact hpage (h.entry q entries w ht hl hw hval)
    · have hq := hother ht'.ne_zero hqp
      have hmem : s.mem (s.procs q).savedPtbr = .pageTable entries' :=
        (Function.update_of_ne hq ..).symm.trans ht'.mem_eq
      exact hpage (h.entry q entries' w { ht' with mem_eq := hmem } hl hw hval)
  · intro g hg hprot hmap
    obtain ⟨q, w, hq, hw, hpf⟩ := h.frame g hg hprot hmap
    exact ⟨q, w, hq, hw, hpage hpf⟩

/-- A frame that no live entry names is unmapped. -/
theorem unmap (h : Sound live s)
    (hnone : ∀ p entries v, HasTable s p entries → live p v → v < numPages →
      (entries v).valid ≠ 0 → (entries v).pfn ≠ f) :
    Sound live { s with
      frameTable := Function.update s.frameTable f { s.frameTable f with mapped := 0 } } := by
  have hprot : ∀ g, (Function.update s.frameTable f
      { s.frameTable f with mapped := 0 } g).isProtected = (s.frameTable g).isProtected := by
    intro g
    by_cases hg : g = f
    · rw [hg, Function.update_self]
    · rw [Function.update_of_ne hg]
  have hpage : ∀ {g q w}, g ≠ f → PageFrame s g q w → PageFrame { s with
      frameTable := Function.update s.frameTable f { s.frameTable f with mapped := 0 } } g q w := by
    intro g q w hg hpf
    exact hpf.congr (.of_eq rfl (Function.update_of_ne hg ..))
  refine h.of_tables rfl (hprot 0) rfl h.current h.queue ?_ ?_ ?_
  · intro q entries ht
    refine { ht with isProtected := ?_ }
    rw [hprot]
    exact ht.isProtected
  · intro q entries w ht hl hw hval
    exact hpage (hnone q entries w ht hl hw hval) (h.entry q entries w ht hl hw hval)
  · intro g hg hgprot hmap
    have hgf : g ≠ f := by
      rintro rfl
      simp at hmap
    simp only [Function.update_of_ne hgf] at hgprot hmap
    obtain ⟨q, w, hq, hw, hpf⟩ := h.frame g hg hgprot hmap
    exact ⟨q, w, hq, hw, hpage hgf hpf⟩

/-- An unprotected frame holds no page table, and is not frame 0. -/
theorem ne_of_unprotected (h : Sound live s) (hf : (s.frameTable f).isProtected = 0) :
    f ≠ 0 ∧ ∀ {p entries}, HasTable s p entries → (s.procs p).savedPtbr ≠ f := by
  refine ⟨?_, ?_⟩
  · rintro rfl
    exact h.zero_protected hf
  · intro p entries ht heq
    exact ht.isProtected (heq ▸ hf)

/-- An unprotected frame gets the page `v` of `p`, unless it has another one. -/
theorem setPage (h : Sound live s) (hlt : f < numFrames) (hp : p < maxPid) (hv : v < numPages)
    (hprot : (s.frameTable f).isProtected = 0)
    (hfree : ∀ q w, PageFrame s f q w → q = p ∧ w = v) {e : Fte} (he : e.isProtected = 0 ∧
      e.mapped = 1 ∧ e.process = some p ∧ e.vpn = v) (page : Page) :
    Sound live { s with
        mem := Function.update s.mem f (.data page)
        frameTable := Function.update s.frameTable f e } ∧
      PageFrame { s with
        mem := Function.update s.mem f (.data page)
        frameTable := Function.update s.frameTable f e } f p v := by
  obtain ⟨hzero, htable⟩ := h.ne_of_unprotected hprot
  have hself : PageFrame { s with
      mem := Function.update s.mem f (.data page)
      frameTable := Function.update s.frameTable f e } f p v := by
    refine ⟨hlt, ?_, ?_, ?_, ?_, page, Function.update_self ..⟩ <;>
      simp only [Function.update_self]
    · exact he.1
    · exact he.2.1
    · exact he.2.2.1
    · exact he.2.2.2
  have hpage : ∀ {g q w}, PageFrame s g q w → PageFrame { s with
      mem := Function.update s.mem f (.data page)
      frameTable := Function.update s.frameTable f e } g q w := by
    intro g q w hpf
    by_cases hg : g = f
    · subst hg
      obtain ⟨rfl, rfl⟩ := hfree q w hpf
      exact hself
    · exact hpf.congr (.of_eq (Function.update_of_ne hg ..) (Function.update_of_ne hg ..))
  refine ⟨h.of_tables (Function.update_of_ne (Ne.symm hzero) ..) ?_ rfl h.current h.queue ?_ ?_ ?_,
    hself⟩
  · simp only [Function.update_of_ne (Ne.symm hzero)]
  · intro q entries ht
    have hne := htable ht
    exact ht.congr rfl (.of_eq (Function.update_of_ne hne ..) (Function.update_of_ne hne ..))
  · intro q entries w ht hl hw hval
    exact hpage (h.entry q entries w ht hl hw hval)
  · intro g hg hgprot hmap
    by_cases hgf : g = f
    · subst hgf
      exact ⟨p, v, hp, hv, hself⟩
    · simp only [Function.update_of_ne hgf] at hgprot hmap
      obtain ⟨q, w, hq, hw, hpf⟩ := h.frame g hg hgprot hmap
      exact ⟨q, w, hq, hw, hpage hpf⟩

/-- An unmapped frame is given to a page, in the page table, in the frame table and in memory. -/
theorem mapPage (h : Whole s) (ht : HasTable s p entries) (hlt : f < numFrames) (hv : v < numPages)
    (hprot : (s.frameTable f).isProtected = 0) (hmap : (s.frameTable f).mapped ≠ 1) {e : Pte}
    (hpfn : e.pfn = f) (fte : Fte) (hfte : fte.isProtected = 0 ∧ fte.mapped = 1 ∧
      fte.process = some p ∧ fte.vpn = v) (page : Page) :
    let s' : State := { s with
      mem := Function.update (Function.update s.mem (s.procs p).savedPtbr
        (.pageTable (Function.update entries v e))) f (.data page)
      frameTable := Function.update s.frameTable f fte }
    Whole s' ∧ HasTable s' p (Function.update entries v e) := by
  intro s'
  -- the page is left out until its frame is mapped
  have h₁ : Sound (fun q w => ¬ (q = p ∧ w = v)) s := h.mono fun _ _ _ => trivial
  let s₂ : State := { s with
    mem := Function.update s.mem (s.procs p).savedPtbr
      (.pageTable (Function.update entries v e)) }
  have h₂ : Sound (fun q w => ¬ (q = p ∧ w = v)) s₂ :=
    h₁.setEntry ht fun hl => absurd ⟨rfl, rfl⟩ hl
  have hfree : ∀ q w, PageFrame s₂ f q w → q = p ∧ w = v := fun q w hf => absurd hf.mapped hmap
  obtain ⟨h₃, hf₃⟩ := h₂.setPage hlt (h.table p ht.ne_zero).1 hv hprot hfree hfte page
  have hne : (s.procs p).savedPtbr ≠ f := (h.ne_of_unprotected hprot).2 ht
  have ht₂ : HasTable s₂ p (Function.update entries v e) := ht.update_self _
  have ht' : HasTable s' p (Function.update entries v e) :=
    ht₂.congr rfl (.of_eq (Function.update_of_ne hne ..) (Function.update_of_ne hne ..))
  refine ⟨h₃.revive ?_, ht'⟩
  intro entries' ht'' _
  rw [ht'.unique ht'', Function.update_self, hpfn]
  exact hf₃

/-- A process gets an empty page table in an unmapped frame, in place of the one it may have. -/
theorem addTable (h : Sound live s) (hlt : f < numFrames) (hp : p < maxPid)
    (hprot : (s.frameTable f).isProtected = 0) (hmap : (s.frameTable f).mapped ≠ 1) (pcb : Pcb)
    (hpcb : pcb.pid = p ∧ pcb.savedPtbr = f) {e : Fte} (he : e.isProtected = 1) :
    Sound live { s with
      mem := Function.update s.mem f (.pageTable fun _ => {})
      procs := Function.update s.procs p pcb
      frameTable := Function.update s.frameTable f e } := by
  obtain ⟨hzero, hne⟩ := h.ne_of_unprotected hprot
  have hpage : ∀ {g q w}, PageFrame s g q w → PageFrame { s with
      mem := Function.update s.mem f (.pageTable fun _ => {})
      procs := Function.update s.procs p pcb
      frameTable := Function.update s.frameTable f e } g q w := by
    intro g q w hpf
    have hg : g ≠ f := by
      rintro rfl
      exact hmap hpf.mapped
    exact hpf.congr (.of_eq (Function.update_of_ne hg ..) (Function.update_of_ne hg ..))
  have hself : HasTable { s with
      mem := Function.update s.mem f (.pageTable fun _ => {})
      procs := Function.update s.procs p pcb
      frameTable := Function.update s.frameTable f e } p fun _ => {} := by
    refine ⟨?_, ?_, ?_, ?_⟩ <;> simp only [Function.update_self, hpcb.2]
    · exact hzero
    · exact hlt
    · rw [he]
      decide
  have hother : ∀ {q}, q ≠ p → (s.procs q).savedPtbr ≠ 0 → (s.procs q).savedPtbr ≠ f := by
    intro q hqp hq
    obtain ⟨entries, ht⟩ := h.hasTable hq
    exact hne ht
  refine ⟨?_, ?_, ?_, ?_, ?_, ?_, ?_, h.queue⟩
  · exact (Function.update_of_ne (Ne.symm hzero) ..).trans h.mem_zero
  · simp only [Function.update_of_ne (Ne.symm hzero)]
    exact h.zero_protected
  · intro q hq
    by_cases hqp : q = p
    · subst hqp
      exact ⟨hp, by simp only [Function.update_self, hpcb.1], _, hself⟩
    · simp only [Function.update_of_ne hqp] at hq ⊢
      obtain ⟨hqlt, hpid, entries, ht⟩ := h.table q hq
      refine ⟨hqlt, hpid, entries, ?_⟩
      have hqf := hne ht
      exact ht.congr (Function.update_of_ne hqp ..)
        (.of_eq (Function.update_of_ne hqf ..) (Function.update_of_ne hqf ..))
  · intro q r hq heq
    by_cases hqp : q = p <;> by_cases hrp : r = p
    · rw [hqp, hrp]
    · subst hqp
      simp only [Function.update_self, Function.update_of_ne hrp, hpcb.2] at hq heq
      exact absurd heq.symm (hother hrp (heq ▸ hzero))
    · subst hrp
      simp only [Function.update_self, Function.update_of_ne hqp, hpcb.2] at hq heq
      exact absurd heq (hother hqp hq)
    · simp only [Function.update_of_ne hqp, Function.update_of_ne hrp] at hq heq
      exact h.table_inj q r hq heq
  · intro q entries w ht hl hw hval
    by_cases hqp : q = p
    · subst hqp
      rw [hself.unique ht] at hval
      exact absurd rfl hval
    · obtain ⟨h₁, h₂, h₃, h₄⟩ := ht
      simp only [Function.update_of_ne hqp] at h₁ h₂ h₃ h₄
      have hqf := hother hqp h₁
      simp only [Function.update_of_ne hqf] at h₃ h₄
      exact hpage (h.entry q entries w ⟨h₁, h₂, h₃, h₄⟩ hl hw hval)
  · intro g hg hgprot hgmap
    have hgf : g ≠ f := by
      rintro rfl
      simp only [Function.update_self, he] at hgprot
      exact absurd hgprot (by decide)
    simp only [Function.update_of_ne hgf] at hgprot hgmap
    obtain ⟨q, w, hq, hw, hpf⟩ := h.frame g hg hgprot hgmap
    exact ⟨q, w, hq, hw, hpage hpf⟩
  · intro q hq
    obtain ⟨hqlt, hpid⟩ := h.current q hq
    by_cases hqp : q = p
    · subst hqp
      exact ⟨hqlt, by simp only [Function.update_self, hpcb.1]⟩
    · exact ⟨hqlt, by simp only [Function.update_of_ne hqp, hpid]⟩

/-- A process gives up its page table, and its pages need no longer be spoken of. -/
theorem releaseTable (h : Sound (fun q _ => q ≠ p) s) (hp : (s.procs p).savedPtbr ≠ 0) (pcb : Pcb)
    (hpcb : pcb.pid = (s.procs p).pid ∧ pcb.savedPtbr = 0) {e : Fte} (he : e.mapped = 0) :
    Whole { s with
      procs := Function.update s.procs p pcb
      frameTable := Function.update s.frameTable (s.procs p).savedPtbr e } := by
  obtain ⟨table, htable⟩ := h.hasTable hp
  have hpage : ∀ {g q w}, PageFrame s g q w → PageFrame { s with
      procs := Function.update s.procs p pcb
      frameTable := Function.update s.frameTable (s.procs p).savedPtbr e } g q w := by
    intro g q w hpf
    have hg := htable.ne_frame hpf
    exact hpf.congr (.of_eq rfl (Function.update_of_ne hg ..))
  have hfield : ∀ {q}, (Function.update s.procs p pcb q).savedPtbr ≠ 0 →
      q ≠ p ∧ (s.procs q).savedPtbr ≠ (s.procs p).savedPtbr := by
    intro q hq
    have hqp : q ≠ p := by
      rintro rfl
      rw [Function.update_self, hpcb.2] at hq
      exact hq rfl
    rw [Function.update_of_ne hqp] at hq
    exact ⟨hqp, fun heq => hqp (h.table_inj q p hq heq)⟩
  refine ⟨h.mem_zero, ?_, ?_, ?_, ?_, ?_, ?_, h.queue⟩
  · simp only [Function.update_of_ne (Ne.symm hp)]
    exact h.zero_protected
  · intro q hq
    obtain ⟨hqp, hqf⟩ := hfield hq
    simp only [Function.update_of_ne hqp] at hq ⊢
    obtain ⟨hqlt, hpid, entries, ht⟩ := h.table q hq
    exact ⟨hqlt, hpid, entries, ht.congr (Function.update_of_ne hqp ..)
      (.of_eq rfl (Function.update_of_ne hqf ..))⟩
  · intro q r hq heq
    obtain ⟨hqp, -⟩ := hfield hq
    obtain ⟨hrp, -⟩ := hfield (heq ▸ hq)
    simp only [Function.update_of_ne hqp, Function.update_of_ne hrp] at hq heq
    exact h.table_inj q r hq heq
  · intro q entries w ht _ hw hval
    obtain ⟨hqp, hqf⟩ := hfield ht.ne_zero
    obtain ⟨h₁, h₂, h₃, h₄⟩ := ht
    simp only [Function.update_of_ne hqp] at h₁ h₂ h₃ h₄
    simp only [Function.update_of_ne hqf] at h₃
    exact hpage (h.entry q entries w ⟨h₁, h₂, h₃, h₄⟩ hqp hw hval)
  · intro g hg hgprot hgmap
    have hgf : g ≠ (s.procs p).savedPtbr := by
      rintro rfl
      simp only [Function.update_self, he] at hgmap
      exact absurd hgmap (by decide)
    simp only [Function.update_of_ne hgf] at hgprot hgmap
    obtain ⟨q, w, hq, hw, hpf⟩ := h.frame g hg hgprot hgmap
    exact ⟨q, w, hq, hw, hpage hpf⟩
  · intro q hq
    obtain ⟨hqlt, hpid⟩ := h.current q hq
    by_cases hqp : q = p
    · subst hqp
      exact ⟨hqlt, by simp only [Function.update_self, hpcb.1, hpid]⟩
    · exact ⟨hqlt, by simp only [Function.update_of_ne hqp, hpid]⟩

end Sound

end ECE3056.Vm
