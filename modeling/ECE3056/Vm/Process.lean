import ECE3056.Vm.PageFault

/-!
# Starting and stopping a process

`proc_init` and `proc_cleanup`, with the bookkeeping that `main` does around them.
-/

namespace ECE3056.Vm

open ECE3056.Fallible

variable {s : State} {G : Layout}

/-! ## START -/

/-- Starting a process panics or gives it an empty address space. -/
theorem start_spec (hR : Realizes s G) (hG : G.Valid) {p : Nat} (hmax : p < maxPid)
    (hp : ¬ G.running p) :
    start s p = .error outOfMemory ∨
      ∃ (f : Nat) (s' : State) (G₁ : Layout), start s p = .ok s' ∧
        Realizes s' (G₁.addTable f p) ∧ (G₁.addTable f p).Valid ∧
        s'.procs = Function.update s.procs p ⟨p, .running, f⟩ ∧
        G₁.running = G.running ∧ G₁.live = G.live ∧ G₁.content = G.content ∧
        s'.swapQueue.sizeMax = max s.swapQueue.sizeMax s'.swapQueue.size ∧
        Charged { evictions := 1 } (books s G) (books s' (G₁.addTable f p)) := by
  let s₀ : State := s.setPcb p { s.procs p with pid := p, state := .running }
  have hR₀ : Realizes s₀ G := by
    refine hR.congr rfl (fun _ => rfl) ?_ rfl rfl
    intro q hq
    have hqp : q ≠ p := fun h => hp (h ▸ hq)
    simp [s₀, State.setPcb, Function.update_of_ne hqp]
  rcases freeFrame_spec hR₀ hG with
      hoom | ⟨f, s₁, G₁, hfree, hR₁, hG₁, hf, -, hkept, hcharged⟩
  · left
    rw [start, Realizes.pcb_eq hmax, ok_bind, procInit]
    show (freeFrame s₀ >>= _) = _
    rw [hoom]
    rfl
  right
  have hlt := hR₁.lt_of_role hf (by simp)
  have hfte : (s₁.frameTable f).mapped = 0 := (hR₁.holds_of_role hf (by simp)).2
  have hp₁ : ¬ G₁.running p := hkept.running ▸ hp
  have hR₂ := hR₁.addTable hG₁ hf hp₁ hmax ⟨p, .running, f⟩ ⟨rfl, rfl⟩
    (e := { s₁.frameTable f with isProtected := 1 }) ⟨rfl, hfte⟩
  have htable : Charged {} (books s₁ G₁) (books s₁ (G₁.addTable f p)) :=
    .counted _ rfl rfl (Layout.dirtyPages_addTable ..)
  refine ⟨f, _, G₁, ?_, hR₂, hG₁.addTable hf hp₁, ?_, hkept.running, hkept.live, hkept.content,
    hkept.sizeMax, hcharged.trans htable⟩
  · rw [start, Realizes.pcb_eq hmax, ok_bind, procInit]
    show (freeFrame s₀ >>= _) = _
    rw [hfree, ok_bind]
    simp only [Realizes.setFrame_eq hlt, ok_bind, Realizes.pcb_eq hmax]
    have hpcb : ({ s₁.procs p with savedPtbr := f } : Pcb) = ⟨p, .running, f⟩ := by
      rw [hkept.procs]
      simp [s₀, State.setPcb]
    rw [hpcb, State.setPcb, Realizes.fte_eq hlt, ok_bind, Realizes.setFte_eq hlt]
  · show Function.update s₁.procs p _ = _
    rw [hkept.procs]
    simp [s₀, State.setPcb]

/-! ## STOP -/

/-- Unmapping the frame of an entry, if it has one. -/
theorem unmapEntry_spec (hR : Realizes s G) (hG : G.Valid) {p v : Nat} (hl : G.live p v) :
    ∃ s₁, unmapEntry s (G.entry p v) = .ok s₁ ∧
      Realizes s₁ { G with
        role := if (G.entry p v).valid = 1 then Function.update G.role (G.entry p v).pfn .free
          else G.role } ∧
      s₁.procs = s.procs ∧ s₁.swapQueue = s.swapQueue ∧ s₁.stats = s.stats := by
  rcases hG.valid_bit hl with hval | hval
  · refine ⟨s, ?_, ?_, rfl, rfl, rfl⟩
    · rw [unmapEntry, if_neg (not_not_intro hval)]
      rfl
    · rw [if_neg (by rw [hval]; decide)]
      exact hR
  · have hrole := hG.role_of_valid hl hval
    have hlt := hR.lt_of_role hrole (by simp)
    have hprot := (hR.holds_of_role hrole (by simp)).2.1
    let e : Fte := { s.frameTable (G.entry p v).pfn with mapped := 0 }
    refine ⟨{ s with frameTable := Function.update s.frameTable (G.entry p v).pfn e }, ?_, ?_,
      rfl, rfl, rfl⟩
    · rw [unmapEntry, if_pos (by rw [hval]; decide), Realizes.fte_eq hlt, ok_bind,
        Realizes.setFte_eq hlt]
    · rw [if_pos hval]
      exact hR.release hrole ⟨hprot, rfl⟩

/-- Cleaning up an entry unmaps the page and frees its swap entry. -/
theorem cleanupEntry_spec (hR : Realizes s G) (hG : G.Valid) {g p v : Nat}
    (hg : G.role g = .table p) (hl : G.live p v) :
    ∃ s', cleanupEntry g s v = .ok s' ∧ Realizes s' (G.forget p v) ∧ s'.procs = s.procs ∧
      s'.swapQueue.sizeMax = s.swapQueue.sizeMax ∧ s'.stats = s.stats := by
  have hv := (hG.live_running hl).2
  obtain ⟨s₁, hunmap, hR₁, hprocs₁, hqueue₁, hstats₁⟩ := unmapEntry_spec hR hG hl
  have hg₁ : (if (G.entry p v).valid = 1 then Function.update G.role (G.entry p v).pfn .free
      else G.role) g = .table p :=
    hG.forget_role_table hl hg
  obtain ⟨tokens, hq⟩ := hR₁.queue
  have hstored₁ : s₁.swapQueue.stored = G.stored := hR₁.stored_eq
  by_cases hs : (G.entry p v).swap = 0
  · refine ⟨s₁, ?_, hR₁.relabel rfl ?_ ?_ rfl rfl, hprocs₁, by rw [hqueue₁], hstats₁⟩
    · rw [cleanupEntry, hR.pte_eq hg hv, ok_bind, hunmap, ok_bind, if_neg (not_not_intro hs)]
      rfl
    · have hsame : ({ G.entry p v with swap := 0 } : Pte) = G.entry p v := by
        rw [← hs]
      simp only [Layout.forget, hsame, Function.update_eq_self]
    · have hnone : G.stored 0 = none := by
        rw [← hstored₁, ← Option.not_isSome_iff_eq_none, ← hq.mem_iff_stored]
        exact hq.zero_notMem
      simp only [Layout.forget, hs]
      rw [← hnone, Function.update_eq_self]
  · have hm : (G.entry p v).swap ∈ tokens := by
      rw [hq.mem_iff_stored, hstored₁]
      exact hG.stored_of_swap hl hs
    obtain ⟨q, hfree, hq', hstored, hmax, -⟩ := hq.swapFree_spec hm
    have hR₂ := hR₁.setQueue hq' s₁.stats G.owner
    have hR₃ := hR₂.setEntry (v := v) hg₁ { G.entry p v with swap := 0 }
    refine ⟨_, ?_, hR₃.relabel rfl rfl ?_ rfl rfl, hprocs₁, ?_, hstats₁⟩
    · rw [cleanupEntry, hR.pte_eq hg hv, ok_bind, hunmap, ok_bind, if_pos hs, hfree, ok_bind]
      exact hR₂.setPte_eq hg₁ hv _
    · simp only [Layout.forget, Layout.setEntry, hstored, hstored₁]
    · show q.sizeMax = _
      rw [hmax, hqueue₁]

/-- The loop of `proc_cleanup` forgets every page of the process and no other. -/
theorem cleanupLoop_spec (hR : Realizes s G) (hG : G.Valid) {g p : Nat} (hg : G.role g = .table p)
    (hl : ∀ v, v < numPages → G.live p v) :
    ∃ s' G', (List.range numPages).foldlM (cleanupEntry g) s = .ok s' ∧ Realizes s' G' ∧ G'.Valid ∧
      (∀ q v, G'.live q v ↔ G.live q v ∧ q ≠ p) ∧ G'.role g = .table p ∧
      G'.running = G.running ∧ G'.content = G.content ∧ s'.procs = s.procs ∧
      s'.swapQueue.sizeMax = s.swapQueue.sizeMax ∧ s'.stats = s.stats ∧
      G'.dirtyPages ≤ G.dirtyPages := by
  let I : Nat → State → Prop := fun i t => ∃ G', Realizes t G' ∧ G'.Valid ∧
    (∀ q v, G'.live q v ↔ G.live q v ∧ ¬ (q = p ∧ v < i)) ∧ G'.role g = .table p ∧
    G'.running = G.running ∧ G'.content = G.content ∧ t.procs = s.procs ∧
    t.swapQueue.sizeMax = s.swapQueue.sizeMax ∧ t.stats = s.stats ∧
    G'.dirtyPages ≤ G.dirtyPages
  obtain ⟨s', hrun, G', hR', hG', hlive, hrest⟩ :=
    foldlM_range_invariant (cleanupEntry g) I (s := s) numPages
    (by
      intro i t hi ht
      obtain ⟨G', hR', hG', hlive, hg', hrun', hcont', hprocs', hmax', hstats', hfewer⟩ := ht
      have hli : G'.live p i := (hlive p i).mpr ⟨hl i hi, fun h => Nat.lt_irrefl i h.2⟩
      obtain ⟨t', hstep, hRt, hprocs, hmax, hstats⟩ := cleanupEntry_spec hR' hG' hg' hli
      refine ⟨t', hstep, G'.forget p i, hRt, hG'.forget hli, ?_, ?_, hrun', hcont',
        hprocs.trans hprocs', hmax.trans hmax', hstats.trans hstats',
        (Layout.dirtyPages_forget ..).trans hfewer⟩
      · intro q v
        show G'.live q v ∧ ¬ (q = p ∧ v = i) ↔ _
        rw [hlive]
        have hsplit : v < i + 1 ↔ v < i ∨ v = i := Nat.lt_succ_iff_lt_or_eq
        rw [hsplit]
        tauto
      · exact hG'.forget_role_table hli hg')
    ⟨G, hR, hG, by simp, hg, rfl, rfl, rfl, rfl, rfl, Nat.le_refl _⟩
  refine ⟨s', G', hrun, hR', hG', ?_, hrest⟩
  intro q v
  rw [hlive]
  constructor
  · intro h
    refine ⟨h.1, fun hq => h.2 ⟨hq, ?_⟩⟩
    exact (hG.live_running h.1).2
  · intro h
    exact ⟨h.1, fun hq => h.2 hq.1⟩

/-- Stopping a running process frees its frames and its swap entries. -/
theorem stop_spec (hR : Realizes s G) (hG : G.Valid) {p : Nat} (hp : G.running p)
    (hl : ∀ v, v < numPages → G.live p v) :
    ∃ (s' : State) (G' : Layout), stop s p = .ok s' ∧ Realizes s' G' ∧ G'.Valid ∧
      (∀ q, G'.running q ↔ G.running q ∧ q ≠ p) ∧ (∀ q v, G'.live q v ↔ G.live q v ∧ q ≠ p) ∧
      G'.content = G.content ∧
      s'.procs = Function.update s.procs p { s.procs p with savedPtbr := 0, state := .stopped } ∧
      s'.swapQueue.sizeMax = s.swapQueue.sizeMax ∧ Charged {} (books s G) (books s' G') := by
  obtain ⟨hmax, -, hg⟩ := hR.table_of_running p hp
  obtain ⟨s₁, G₁, hloop, hR₁, hG₁, hlive₁, hg₁, hrun₁, hcont₁, hprocs₁, hmax₁, hstats₁, hfewer⟩ :=
    cleanupLoop_spec hR hG hg hl
  have hlt := hR₁.lt_of_role hg₁ (by simp)
  let e : Fte := { s₁.frameTable (s.procs p).savedPtbr with
    isProtected := 0, mapped := 0, referenced := 0 }
  let pcb : Pcb := { s.procs p with savedPtbr := 0, state := .stopped }
  have hR₂ := hR₁.releaseTable hg₁ pcb (e := e) ⟨rfl, rfl⟩
  have hdead : ∀ w, ¬ G₁.live p w := fun w hw => ((hlive₁ p w).mp hw).2 rfl
  refine ⟨_, _, ?_, hR₂, hG₁.releaseTable hg₁ hdead, ?_, hlive₁, hcont₁, ?_, hmax₁,
    .counted {} hstats₁ hmax₁ hfewer⟩
  · simp only [stop, procCleanup, Realizes.pcb_eq hmax, ok_bind, hloop, Realizes.fte_eq hlt,
      Realizes.setFte_eq hlt, State.setPcb, pure_eq_ok, hprocs₁, e, pcb]
  · intro q
    show G₁.running q ∧ q ≠ p ↔ _
    rw [hrun₁]
  · show Function.update s₁.procs p pcb = _
    rw [hprocs₁]

end ECE3056.Vm
