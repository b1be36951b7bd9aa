import ECE3056.Vm.DirtyPages
import ECE3056.Vm.Realizes

/-!
# Evictions and page faults

What `free_frame`, `page_fault` and `mem_access` do to memory that realizes a
valid layout: either every frame is protected and they panic, or they end in
memory that realizes a valid layout again.
-/

namespace ECE3056.Vm

open ECE3056.Fallible

variable {s : State} {G : Layout}

/-! ## The victim -/

theorem firstFree_some {frameTable : Nat → Fte} {i : Nat} (h : firstFree frameTable = some i) :
    i < numFrames ∧ (frameTable i).isProtected = 0 := by
  have hmem := List.mem_range.mp (List.mem_of_find?_eq_some h)
  have hprop := List.find?_some h
  simp only [decide_eq_true_eq] at hprop
  exact ⟨hmem, hprop.1⟩

theorem russianRoulette_some {frameTable : Nat → Fte} {frames : List Nat} {last i : Nat}
    {prng : Nat → Nat} (hframes : ∀ f ∈ frames, f < numFrames)
    (hlast : last < numFrames → (frameTable last).isProtected = 0)
    (h : (russianRoulette frameTable frames last prng).1 = some i) :
    i < numFrames ∧ (frameTable i).isProtected = 0 := by
  induction frames generalizing last prng with
  | nil =>
    rw [russianRoulette] at h
    split at h
    · rename_i hlt
      obtain rfl := Option.some_inj.mp h
      exact ⟨hlt, hlast hlt⟩
    · simp at h
  | cons f frames ih =>
    have hrest : ∀ g ∈ frames, g < numFrames := fun g hg => hframes g (List.mem_cons_of_mem f hg)
    rw [russianRoulette] at h
    split at h
    · rename_i hfree
      split at h
      · obtain rfl := Option.some_inj.mp h
        exact ⟨hframes f (List.mem_cons_self ..), hfree⟩
      · exact ih hrest (fun _ => hfree) h
    · exact ih hrest hlast h

/-- The victim is an unprotected frame, and choosing it only takes random numbers. -/
theorem selectVictimFrame_cases (s : State) :
    selectVictimFrame s = .error outOfMemory ∨
      ∃ i prng, selectVictimFrame s = .ok (i, { s with prng := prng }) ∧ i < numFrames ∧
        (s.frameTable i).isProtected = 0 := by
  cases hfree : firstFree s.frameTable with
  | some i =>
    right
    exact ⟨i, s.prng, by rw [selectVictimFrame, hfree], firstFree_some hfree⟩
  | none =>
    cases hrep : s.replacement with
    | clocksweep =>
      left
      simp only [selectVictimFrame, hfree, hrep]
    | random =>
      cases hv : russianRoulette s.frameTable (List.range (memSize / pageSize)) numFrames s.prng with
      | mk victim prng =>
        cases victim with
        | none =>
          left
          simp only [selectVictimFrame, hfree, hrep, hv]
        | some i =>
          right
          have hi := russianRoulette_some (fun f hf => List.mem_range.mp hf)
            (fun h => absurd h (Nat.lt_irrefl numFrames)) (congrArg Prod.fst hv)
          exact ⟨i, prng, by simp only [selectVictimFrame, hfree, hrep, hv], hi⟩

/-! ## Eviction -/

/-- What finding a frame leaves alone. -/
structure Kept (s : State) (G : Layout) (s' : State) (G' : Layout) : Prop where
  running : G'.running = G.running
  live : G'.live = G.live
  content : G'.content = G.content
  procs : s'.procs = s.procs
  PTBR : s'.PTBR = s.PTBR
  currentProcess : s'.currentProcess = s.currentProcess
  /-- The high-water mark of the swap queue follows its size. -/
  sizeMax : s'.swapQueue.sizeMax = max s.swapQueue.sizeMax s'.swapQueue.size

theorem Realizes.size_le (hR : Realizes s G) : s.swapQueue.size ≤ s.swapQueue.sizeMax := by
  obtain ⟨tokens, hq⟩ := hR.queue
  rw [hq.size_eq]
  exact hq.size_le

/-- The token a dirty page is written to is its own, or a new one. -/
theorem writeBack_dirty (hR : Realizes s G) (hG : G.Valid) {f p v : Nat} (hf : G.role f = .page p v)
    (hd : (G.entry p v).dirty = 1) :
    ∃ t q tokens, writeBack s f (G.entry p v) =
        .ok ({ G.entry p v with swap := t, dirty := 0 },
          { s with
            swapQueue := q
            stats := { s.stats with writebacks := s.stats.writebacks + 1 } }) ∧
      q.Represents tokens ∧ q.stored = Function.update G.stored t (some (G.content p v)) ∧
      t ≠ 0 ∧ ((G.entry p v).swap = t ∨ (G.entry p v).swap = 0 ∧ G.stored t = none) ∧
      q.sizeMax = max s.swapQueue.sizeMax q.size ∧
      q.sizeMax ≤ s.swapQueue.sizeMax + 1 := by
  obtain ⟨tokens, hq⟩ := hR.queue
  have hl := (hG.valid_of_role hf).1
  have hsome : (G.entry p v).swap ∈ tokens ↔ (G.entry p v).swap ≠ 0 := by
    constructor
    · intro hm h
      exact hq.zero_notMem (h ▸ hm)
    · intro hs
      rw [hq.mem_iff_stored, hR.stored_eq]
      exact hG.stored_of_swap hl hs
  by_cases hs : (G.entry p v).swap = 0
  · obtain ⟨q, hrun, hq', hstored, hmax, -⟩ :=
      hq.swapWrite_new (G.entry p v) (fun h => hsome.mp h hs) (G.content p v)
    have hnone : G.stored s.swapQueue.TOKEN = none := by
      rw [← hR.stored_eq, ← Option.not_isSome_iff_eq_none, ← hq.mem_iff_stored]
      exact hq.fresh
    refine ⟨_, q, _, ?_, hq', hR.stored_eq ▸ hstored, Nat.ne_of_gt hq.token_pos,
      .inr ⟨hs, hnone⟩, ?_, ?_⟩
    · rw [writeBack, if_pos hd, hR.page_eq hf, ok_bind, hrun]
      rfl
    · rw [hmax, hq'.size_eq, List.length_append]
      rfl
    · rw [hmax]
      exact max_le (Nat.le_succ _) (Nat.succ_le_succ hq.size_le)
  · obtain ⟨q, hrun, hq', hstored, hmax, -⟩ :=
      hq.swapWrite_existing (hsome.mpr hs) (G.content p v)
    refine ⟨_, q, _, ?_, hq', hR.stored_eq ▸ hstored, hs, .inl rfl, ?_,
      Nat.le_succ_of_le (Nat.le_of_eq hmax)⟩
    · rw [writeBack, if_pos hd, hR.page_eq hf, ok_bind, hrun]
      rfl
    · rw [hmax, hq'.size_eq, max_eq_left hq.size_le]

/-- The two stores at the end of an eviction. -/
theorem Realizes.evicted (hR : Realizes s G) {f g p v : Nat} (hg : G.role g = .table p)
    (hf : G.role f = .page p v) (e : Pte) :
    Realizes
      { s with
        mem := Function.update s.mem g (.pageTable (Function.update (G.entry p) v e))
        frameTable := Function.update s.frameTable f { s.frameTable f with mapped := 0 } }
      ((G.setEntry p v e).setRole f .free) := by
  have hprot := (hR.holds_of_role hf (by simp)).2.1
  exact (hR.setEntry hg e).release (v := v) (p := p) hf ⟨hprot, rfl⟩

/-- A clean page is dropped without touching the swap queue. -/
theorem evict_clean (hR : Realizes s G) (hG : G.Valid) {f p v : Nat} (hf : G.role f = .page p v)
    (hclean : (G.entry p v).dirty = 0) :
    evict s f = .ok { s with
      mem := Function.update s.mem (s.procs p).savedPtbr
        (.pageTable (Function.update (G.entry p) v { G.entry p v with valid := 0 }))
      frameTable := Function.update s.frameTable f { s.frameTable f with mapped := 0 } } := by
  obtain ⟨-, -, -, hproc, hvpn⟩ := hR.holds_of_role hf (by simp)
  obtain ⟨hrun, hv⟩ := hG.live_running (hG.valid_of_role hf).1
  obtain ⟨hmax, -, hg⟩ := hR.table_of_running p hrun
  have hlt := hR.lt_of_role hf (by simp)
  have hwrite : writeBack s f (G.entry p v) = .ok (G.entry p v, s) := by
    rw [writeBack, hclean]
    rfl
  simp only [evict, Realizes.fte_eq hlt, ok_bind, hproc, hvpn, Realizes.pcb_eq hmax,
    hR.pte_eq hg hv, hwrite, hR.setPte_eq hg hv, Realizes.setFte_eq hlt]

/-- Evicting a mapped page frees its frame and loses none of its bytes. -/
theorem evict_spec (hR : Realizes s G) (hG : G.Valid) {f p v : Nat} (hf : G.role f = .page p v) :
    ∃ s' G', evict s f = .ok s' ∧ Realizes s' G' ∧ G'.Valid ∧ G'.role f = .free ∧
      (∀ q w, (G.entry q w).valid = 0 → (G'.entry q w).valid = 0) ∧ Kept s G s' G' ∧
      Charged { evictions := 1 } (books s G) (books s' G') := by
  obtain ⟨-, -, -, hproc, hvpn⟩ := hR.holds_of_role hf (by simp)
  obtain ⟨hl, hval, -⟩ := hG.valid_of_role hf
  obtain ⟨hrun, hv⟩ := hG.live_running hl
  obtain ⟨hmax, -, hg⟩ := hR.table_of_running p hrun
  have hlt := hR.lt_of_role hf (by simp)
  have hinvalid : ∀ (e : Pte), e.valid = 0 → ∀ q w, (G.entry q w).valid = 0 →
      (((G.setEntry p v e).setRole f .free).entry q w).valid = 0 := by
    intro e he q w hqw
    rw [Layout.setRole_entry, Layout.setEntry_entry]
    split <;> assumption
  rcases hG.dirty_bit hl with hclean | hd
  · have hfewer : (G.unmap f p v).dirtyPages ≤ G.dirtyPages :=
      Layout.dirtyPages_setEntry rfl rfl (.inl (by simp))
    exact ⟨_, G.unmap f p v, evict_clean hR hG hf hclean, hR.evicted hg hf _, hG.unmap hf hclean,
      by simp [Layout.unmap], hinvalid _ rfl,
      ⟨rfl, rfl, rfl, rfl, rfl, rfl, (max_eq_left hR.size_le).symm⟩,
      .counted _ rfl rfl hfewer⟩
  · obtain ⟨t, q, tokens, hwrite, hq, hstored, ht, htok, hpeak, hgrow⟩ :=
      writeBack_dirty hR hG hf hd
    -- the state after `swap_write`, and the entry that is stored in the end
    let s₁ : State :=
      { s with swapQueue := q, stats := { s.stats with writebacks := s.stats.writebacks + 1 } }
    let e : Pte := { G.entry p v with swap := t, dirty := 0, valid := 0 }
    have hR₁ := hR.setQueue hq s₁.stats (Function.update G.owner t (some (p, v)))
    have hlayout : (({ G with
          stored := q.stored
          owner := Function.update G.owner t (some (p, v)) } : Layout).setEntry p v e).setRole
            f .free =
        (G.writeBack p v t).unmap f p v := by
      simp [Layout.writeBack, Layout.unmap, Layout.setEntry, Layout.setRole, hstored, e]
    have hR₂ := hlayout ▸ hR₁.evicted (f := f) hg hf e
    have hG₂ := (hG.writeBack hl ht htok).unmap (f := f) hf (by simp [Layout.writeBack])
    have hfewer : ((G.writeBack p v t).unmap f p v).dirtyPages + 1 ≤ G.dirtyPages :=
      Layout.dirtyPages_clean (e := e) rfl (hlayout ▸ rfl) (.inl (by simp [e])) hmax hv
        ⟨hl, hval, hd⟩
    refine ⟨_, _, ?_, hR₂, hG₂, by simp [Layout.unmap], ?_,
      ⟨rfl, rfl, rfl, rfl, rfl, rfl, hpeak⟩, ⟨rfl, rfl, rfl, rfl, Nat.le_refl _, ?_, ?_⟩⟩
    · have hset := hR₁.setPte_eq (f := (s.procs p).savedPtbr) hg hv e
      simp only [evict, Realizes.fte_eq hlt, ok_bind, hproc, hvpn, Realizes.pcb_eq hmax,
        hR.pte_eq hg hv, hwrite]
      show (s₁.setPte (s.procs p).savedPtbr v e >>= fun s => State.setFte s f _) = _
      rw [hset, ok_bind, Realizes.setFte_eq hlt]
    · rw [← hlayout]
      exact hinvalid e rfl
    · show s.stats.writebacks + 1 + ((G.writeBack p v t).unmap f p v).dirtyPages ≤
        s.stats.writebacks + G.dirtyPages + 0
      omega
    · show q.sizeMax + s.stats.writebacks ≤ s.swapQueue.sizeMax + (s.stats.writebacks + 1)
      omega

/-- Clearing the `referenced` bit, like setting it, is invisible to the layout. -/
theorem Realizes.setReferenced (hR : Realizes s G) (f : Nat) (b : UInt8) :
    Realizes { s with
      frameTable := Function.update s.frameTable f { s.frameTable f with referenced := b } } G := by
  refine hR.congr rfl ?_ (fun _ _ => ⟨rfl, rfl⟩) rfl rfl
  intro g
  by_cases hg : g = f
  · subst hg
    simp
  · simp [Function.update_of_ne hg]

/-- `free_frame` panics when every frame is protected; otherwise it hands out a free frame. -/
theorem freeFrame_spec (hR : Realizes s G) (hG : G.Valid) :
    freeFrame s = .error outOfMemory ∨
      ∃ f s' G', freeFrame s = .ok (f, s') ∧ Realizes s' G' ∧ G'.Valid ∧ G'.role f = .free ∧
        (∀ q w, (G.entry q w).valid = 0 → (G'.entry q w).valid = 0) ∧ Kept s G s' G' ∧
        Charged { evictions := 1 } (books s G) (books s' G') := by
  rcases selectVictimFrame_cases s with hoom | ⟨f, prng, hsel, hf, hprot⟩
  · left
    rw [freeFrame, hoom]
    rfl
  right
  let s₁ : State := { s with prng := prng }
  have hR₁ : Realizes s₁ G := hR.congr rfl (fun _ => rfl) (fun _ _ => ⟨rfl, rfl⟩) rfl rfl
  have hholds := hR.holds f hf
  cases hrole : G.role f with
  | reserved =>
    rw [hrole] at hholds
    have hone := hholds.2.1
    rw [hprot] at hone
    exact absurd hone (by decide)
  | table p =>
    rw [hrole] at hholds
    have hone := hholds.2.1
    rw [hprot] at hone
    exact absurd hone (by decide)
  | free =>
    rw [hrole] at hholds
    refine ⟨f, _, G, ?_, hR₁.setReferenced f 0, hG, hrole, fun _ _ h => h,
      ⟨rfl, rfl, rfl, rfl, rfl, rfl, (max_eq_left hR.size_le).symm⟩,
      .counted _ rfl rfl (Nat.le_refl _)⟩
    have hmapped : ¬ (s₁.frameTable f).mapped = 1 := by
      show ¬ (s.frameTable f).mapped = 1
      rw [hholds.2]
      decide
    rw [freeFrame, hsel, ok_bind]
    show (do
      let s ← if (← s₁.fte f).mapped = 1 then evict s₁ f else pure s₁
      let s ← s.setFte f { (← s.fte f) with referenced := 0 }
      return (f, s)) = _
    simp only [Realizes.fte_eq hf, ok_bind, if_neg hmapped, pure_eq_ok, Realizes.setFte_eq hf]
  | page p v =>
    obtain ⟨-, -, hmapped, -⟩ := hR₁.holds_of_role hrole (by simp)
    obtain ⟨s₂, G', hev, hR₂, hG', hfree, hinvalid, hkept, hcharged⟩ := evict_spec hR₁ hG hrole
    refine ⟨f, _, G', ?_, hR₂.setReferenced f 0, hG', hfree, hinvalid, { hkept with }, hcharged⟩
    rw [freeFrame, hsel, ok_bind]
    show (do
      let s ← if (← s₁.fte f).mapped = 1 then evict s₁ f else pure s₁
      let s ← s.setFte f { (← s.fte f) with referenced := 0 }
      return (f, s)) = _
    simp only [Realizes.fte_eq hf, ok_bind, if_pos hmapped, hev, pure_eq_ok, Realizes.setFte_eq hf]

/-! ## Page faults -/

/-- A page fault on an invalid entry panics or maps the page. -/
theorem pageFault_spec (hR : Realizes s G) (hG : G.Valid) {p address : Nat}
    (hcur : s.currentProcess = some p) (hl : G.live p (vaddrVpn address))
    (hval : (G.entry p (vaddrVpn address)).valid = 0) :
    pageFault s address = .error outOfMemory ∨
      ∃ s' G', pageFault s address = .ok s' ∧ Realizes s' G' ∧ G'.Valid ∧
        (G'.entry p (vaddrVpn address)).valid = 1 ∧ Kept s G s' G' ∧
        Charged { faults := 1, evictions := 1 } (books s G) (books s' G') := by
  obtain ⟨hrun, hv⟩ := hG.live_running hl
  obtain ⟨hmax, -, -⟩ := hR.table_of_running p hrun
  rcases freeFrame_spec hR hG with
      hoom | ⟨f, s₁, G₁, hfree, hR₁, hG₁, hf, hinvalid, hkept, hcharged⟩
  · left
    simp only [pageFault, hcur, Realizes.pcb_eq hmax, ok_bind, hoom, error_bind]
  right
  have hl₁ : G₁.live p (vaddrVpn address) := hkept.live ▸ hl
  have hval₁ := hinvalid p _ hval
  have hg : G₁.role (s.procs p).savedPtbr = .table p := by
    have htab := (hR₁.table_of_running p (hkept.running ▸ hrun)).2.2
    rwa [hkept.procs] at htab
  have hlt := hR₁.lt_of_role hf (by simp)
  have hback := hG₁.backing_eq hl₁ (.inl hval₁)
  -- the states after the page table, the frame table and the frame are written
  let e : Pte := { G₁.entry p (vaddrVpn address) with pfn := f, valid := 1, dirty := 0 }
  let s₂ : State :=
    { s₁ with
      mem := Function.update s₁.mem (s.procs p).savedPtbr
        (.pageTable (Function.update (G₁.entry p) (vaddrVpn address) e)) }
  let fte : Fte := { s₁.frameTable f with
    mapped := 1, isProtected := 0, vpn := vaddrVpn address, process := some p }
  let s₃ : State := { s₂ with frameTable := Function.update s₂.frameTable f fte }
  let s₄ : State :=
    { s₃ with mem := Function.update s₃.mem f (.data (G₁.content p (vaddrVpn address))) }
  have hR₂ : Realizes s₂ (G₁.setEntry p (vaddrVpn address) e) := hR₁.setEntry hg e
  have hR₄ : Realizes s₄ (G₁.mapPage f p (vaddrVpn address)) := by
    refine hR₂.repurpose (.inl hf) (.inr ⟨p, vaddrVpn address, rfl⟩) ?_
    simp [Holds, Layout.setEntry, fte]
  have hset₂ : s₁.setPte (s.procs p).savedPtbr (vaddrVpn address) e = .ok s₂ :=
    hR₁.setPte_eq hg hv e
  have hset₃ : s₂.setFte f fte = .ok s₃ := Realizes.setFte_eq hlt fte
  have hload : loadFrame s₃ f e = .ok s₄ := by
    by_cases hs : e.swap = 0
    · have hzero : zeroPage = G₁.content p (vaddrVpn address) := by
        rw [Layout.backing, if_pos hs] at hback
        exact Option.some_inj.mp hback
      rw [loadFrame, if_neg (not_not_intro hs), Realizes.setFrame_eq hlt, hzero]
    · obtain ⟨tokens, hq⟩ := hR₁.queue
      have hread : swapRead s₃.swapQueue e = .ok (G₁.content p (vaddrVpn address)) := by
        apply hq.swapRead_eq
        rw [Layout.backing, if_neg hs] at hback
        rw [hR₁.stored_eq]
        exact hback
      rw [loadFrame, if_pos hs, hread, ok_bind, Realizes.setFrame_eq hlt]
  have hfewer : (G₁.mapPage f p (vaddrVpn address)).dirtyPages ≤ G₁.dirtyPages :=
    Layout.dirtyPages_setEntry rfl rfl (.inr (by simp))
  let s₅ : State :=
    { s₄ with stats := { s₄.stats with pageFaults := s₄.stats.pageFaults + 1 } }
  have hfault : Charged { faults := 1 } (books s₁ G₁)
      (books s₅ (G₁.mapPage f p (vaddrVpn address))) := .counted _ rfl rfl hfewer
  refine ⟨s₅, _, ?_, hR₄.congr rfl (fun _ => rfl) (fun _ _ => ⟨rfl, rfl⟩) rfl rfl,
    hG₁.mapPage hf hl₁ hval₁, ?_, { hkept with }, hcharged.trans hfault⟩
  · simp only [pageFault, hcur, Realizes.pcb_eq hmax, ok_bind, hfree, hR₁.pte_eq hg hv]
    show (do
      let s ← s₁.setPte (s.procs p).savedPtbr (vaddrVpn address) e
      let s ← s.setFte f { (← s.fte f) with
        mapped := 1, isProtected := 0, vpn := vaddrVpn address, process := some p }
      let s ← loadFrame s f e
      return { s with stats := { s.stats with pageFaults := s.stats.pageFaults + 1 } }) = _
    rw [hset₂, ok_bind, Realizes.fte_eq hlt, ok_bind]
    show (s₂.setFte f fte >>= _) = _
    rw [hset₃, ok_bind, hload, ok_bind]
    rfl
  · simp [Layout.mapPage]

/-! ## Memory accesses -/

theorem vaddrVpn_lt {address : Nat} (h : address < 2 ^ 24) : vaddrVpn address < numPages := by
  simp only [vaddrVpn, numPages, pageSize, offsetLen]
  omega

theorem vaddrOffset_lt (address : Nat) : vaddrOffset address < pageSize :=
  Nat.mod_lt _ (by decide)

/-- The physical address lies in the frame of the entry, at the offset. -/
theorem physicalAddress_split (pfn address : Nat) :
    (pfn <<< offsetLen ||| vaddrOffset address) / pageSize = pfn ∧
      (pfn <<< offsetLen ||| vaddrOffset address) % pageSize = vaddrOffset address := by
  have hoff := vaddrOffset_lt address
  rw [← Nat.shiftLeft_add_eq_or_of_lt (by exact hoff), Nat.shiftLeft_eq]
  change vaddrOffset address < 2 ^ 14 at hoff
  show (pfn * 2 ^ 14 + _) / 2 ^ 14 = _ ∧ (pfn * 2 ^ 14 + _) % 2 ^ 14 = _
  omega

/-- The processor runs the process `p`. -/
structure Current (s : State) (p : Nat) : Prop where
  process : s.currentProcess = some p
  ptbr : s.PTBR = (s.procs p).savedPtbr

/-- Translation panics or ends at the frame that holds the page. -/
theorem translate_spec (hR : Realizes s G) (hG : G.Valid) {p address : Nat} (hc : Current s p)
    (hl : G.live p (vaddrVpn address)) :
    translate s address = .error outOfMemory ∨
      ∃ f s' G' n, n ≤ 1 ∧
        translate s address = .ok (f <<< offsetLen ||| vaddrOffset address, s') ∧
        G'.role f = .page p (vaddrVpn address) ∧ Realizes s' G' ∧ G'.Valid ∧ Kept s G s' G' ∧
        Charged { faults := n, evictions := n } (books s G) (books s' G') := by
  obtain ⟨hrun, hv⟩ := hG.live_running hl
  have hg : G.role s.PTBR = .table p := by
    rw [hc.ptbr]
    exact (hR.table_of_running p hrun).2.2
  -- once the entry is valid, only the referenced bit is set
  have hmapped : ∀ {s₁ G₁ c}, Realizes s₁ G₁ → G₁.Valid →
      (G₁.entry p (vaddrVpn address)).valid = 1 → Kept s G s₁ G₁ → Charged c (books s G) (books s₁ G₁) →
      ∃ f s' G', (do
          let pfn := (← s₁.pte s₁.PTBR (vaddrVpn address)).pfn
          let s ← s₁.setFte pfn { (← s₁.fte pfn) with referenced := 1 }
          return (pfn <<< offsetLen ||| vaddrOffset address, s)) =
            .ok (f <<< offsetLen ||| vaddrOffset address, s') ∧
        G'.role f = .page p (vaddrVpn address) ∧ Realizes s' G' ∧ G'.Valid ∧ Kept s G s' G' ∧
        Charged c (books s G) (books s' G') := by
    intro s₁ G₁ c hR₁ hG₁ hval hkept hcharged
    have hg₁ : G₁.role s₁.PTBR = .table p := by
      have htab := (hR₁.table_of_running p (hkept.running ▸ hrun)).2.2
      rwa [hkept.procs, ← hc.ptbr, ← hkept.PTBR] at htab
    have hrole := hG₁.role_of_valid (hkept.live ▸ hl) hval
    have hlt := hR₁.lt_of_role hrole (by simp)
    refine ⟨(G₁.entry p (vaddrVpn address)).pfn, _, G₁, ?_, hrole,
      hR₁.setReferenced (G₁.entry p (vaddrVpn address)).pfn 1, hG₁, { hkept with }, hcharged⟩
    simp only [hR₁.pte_eq hg₁ hv, ok_bind, Realizes.fte_eq hlt, Realizes.setFte_eq hlt, pure_eq_ok]
  rcases hG.valid_bit hl with hval | hval
  · rcases pageFault_spec hR hG hc.process hl hval with
        hoom | ⟨s₁, G₁, hfault, hR₁, hG₁, hval₁, hkept, hcharged⟩
    · left
      rw [translate, hR.pte_eq hg hv, ok_bind, if_pos hval, hoom]
      rfl
    · right
      obtain ⟨f, s', G', hrest, h⟩ := hmapped hR₁ hG₁ hval₁ hkept hcharged
      refine ⟨f, s', G', 1, Nat.le_refl 1, ?_, h⟩
      rw [translate, hR.pte_eq hg hv, ok_bind, if_pos hval, hfault, ok_bind]
      exact hrest
  · right
    have hkept : Kept s G s G :=
      ⟨rfl, rfl, rfl, rfl, rfl, rfl, (max_eq_left hR.size_le).symm⟩
    have hcharged : Charged {} (books s G) (books s G) := .counted {} rfl rfl (Nat.le_refl _)
    obtain ⟨f, s', G', hrest, h⟩ := hmapped hR hG hval hkept hcharged
    refine ⟨f, s', G', 0, Nat.zero_le 1, ?_, h⟩
    rw [translate, hR.pte_eq hg hv, ok_bind, if_neg (by rw [hval]; decide), pure_eq_ok, ok_bind]
    exact hrest

/-- A read returns the byte the layout names and changes no contents. -/
theorem memAccess_read (hR : Realizes s G) (hG : G.Valid) {p address : Nat} (hc : Current s p)
    (hl : G.live p (vaddrVpn address)) (data : UInt8) :
    memAccess s address 'r' data = .error outOfMemory ∨
      ∃ s' G' n, n ≤ 1 ∧ memAccess s address 'r' data =
          .ok (G.content p (vaddrVpn address) (vaddrOffset address), s') ∧
        Realizes s' G' ∧ G'.Valid ∧ Kept s G s' G' ∧
        Charged { reads := 1, faults := n, evictions := n } (books s G) (books s' G') := by
  rcases translate_spec hR hG hc hl with
      hoom | ⟨f, s₁, G₁, n, hn, htr, hrole, hR₁, hG₁, hkept, hcharged⟩
  · left
    rw [memAccess, hoom]
    rfl
  right
  obtain ⟨hdiv, hmod⟩ := physicalAddress_split f address
  let s₂ : State :=
    { s₁ with stats := { s₁.stats with
      accesses := s₁.stats.accesses + 1, reads := s₁.stats.reads + 1 } }
  have hread : Charged { reads := 1 } (books s₁ G₁) (books s₂ G₁) :=
    .counted _ rfl rfl (Nat.le_refl _)
  refine ⟨s₂, G₁, n, hn, ?_, hR₁.congr rfl (fun _ => rfl) (fun _ _ => ⟨rfl, rfl⟩) rfl rfl, hG₁,
    { hkept with }, hcharged.trans hread⟩
  have hpage := hR₁.page_eq hrole
  simp only [memAccess, htr, ok_bind, if_true]
  show (State.readByte _ _ >>= _) = _
  rw [State.readByte, hdiv, hmod]
  show ((s₁.page f >>= _) >>= _) = _
  rw [hpage, hkept.content]
  rfl

/-- Any other access writes the byte, into the frame that holds the page, and nothing else
changes. -/
theorem memAccess_write (hR : Realizes s G) (hG : G.Valid) {p address : Nat} (hc : Current s p)
    (hl : G.live p (vaddrVpn address)) {rw : Char} (hrw : rw ≠ 'r') (data : UInt8) :
    memAccess s address rw data = .error outOfMemory ∨
      ∃ s' G₁ n, n ≤ 1 ∧ memAccess s address rw data = .ok (data, s') ∧
        Realizes s' (G₁.store p (vaddrVpn address) (Function.update
          (G.content p (vaddrVpn address)) (vaddrOffset address) data)) ∧
        (G₁.store p (vaddrVpn address) (Function.update
          (G.content p (vaddrVpn address)) (vaddrOffset address) data)).Valid ∧
        Kept s G s' G₁ ∧
        Charged { writes := 1, faults := n, evictions := n } (books s G)
          (books s' (G₁.store p (vaddrVpn address) (Function.update
            (G.content p (vaddrVpn address)) (vaddrOffset address) data))) := by
  rcases translate_spec hR hG hc hl with
      hoom | ⟨f, s₁, G₁, n, hn, htr, hrole, hR₁, hG₁, hkept, hcharged⟩
  · left
    rw [memAccess, hoom]
    rfl
  right
  obtain ⟨hl₁, hval₁, -⟩ := hG₁.valid_of_role hrole
  obtain ⟨hrun₁, hv⟩ := hG₁.live_running hl₁
  have hg₁ : G₁.role s₁.PTBR = .table p := by
    have htab := (hR₁.table_of_running p hrun₁).2.2
    rwa [hkept.procs, ← hc.ptbr, ← hkept.PTBR] at htab
  have hlt := hR₁.lt_of_role hrole (by simp)
  obtain ⟨hdiv, hmod⟩ := physicalAddress_split f address
  have hpage := hR₁.page_eq hrole
  rw [hkept.content] at hpage
  -- the page after the byte is stored, and the states after the two stores
  let page := Function.update (G.content p (vaddrVpn address)) (vaddrOffset address) data
  let e : Pte := { G₁.entry p (vaddrVpn address) with dirty := 1 }
  let s₂ : State :=
    { s₁ with
      stats := { s₁.stats with accesses := s₁.stats.accesses + 1 }
      mem := Function.update s₁.mem f (.data page) }
  let G₂ : Layout :=
    { G₁ with
      content := Function.update G₁.content p
        (Function.update (G₁.content p) (vaddrVpn address) page) }
  have hR₂ : Realizes s₂ G₂ := (hR₁.setContent hG₁ hrole page).congr rfl (fun _ => rfl)
    (fun _ _ => ⟨rfl, rfl⟩) rfl rfl
  let s₃ : State :=
    { s₂ with
      mem := Function.update s₂.mem s₁.PTBR
        (.pageTable (Function.update (G₁.entry p) (vaddrVpn address) e)) }
  have hR₃ : Realizes s₃ (G₂.setEntry p (vaddrVpn address) e) := hR₂.setEntry hg₁ e
  let s₄ : State := { s₃ with stats := { s₃.stats with writes := s₃.stats.writes + 1 } }
  have hstore : Charged { writes := 1 } (books s₁ G₁)
      (books s₄ (G₁.store p (vaddrVpn address) page)) :=
    .counted _ rfl rfl (Layout.dirtyPages_store ..)
  refine ⟨s₄, G₁, n, hn, ?_, hR₃.congr rfl (fun _ => rfl) (fun _ _ => ⟨rfl, rfl⟩) rfl rfl,
    hG₁.store hval₁ page, { hkept with }, hcharged.trans hstore⟩
  have hwrite : State.writeByte
      { s₁ with stats := { s₁.stats with accesses := s₁.stats.accesses + 1 } }
      (f <<< offsetLen ||| vaddrOffset address) data = .ok s₂ := by
    rw [State.writeByte, hdiv, hmod]
    show (s₁.page f >>= _) = _
    rw [hpage, ok_bind, Realizes.setFrame_eq hlt]
  have hpte : s₂.pte s₁.PTBR (vaddrVpn address) = .ok (G₁.entry p (vaddrVpn address)) :=
    hR₂.pte_eq hg₁ hv
  have hset : s₂.setPte s₁.PTBR (vaddrVpn address) e = .ok s₃ := hR₂.setPte_eq hg₁ hv e
  simp only [memAccess, htr, ok_bind, if_neg hrw]
  show (State.writeByte _ _ _ >>= _) = _
  rw [hwrite, ok_bind]
  show (s₂.pte s₁.PTBR (vaddrVpn address) >>= _) = _
  rw [hpte, ok_bind]
  show (s₂.setPte s₁.PTBR (vaddrVpn address) e >>= _) = _
  rw [hset]
  rfl

end ECE3056.Vm
