import ECE3056.Vm.MainLoop
import ECE3056.Vm.Sound

/-!
# What the paging code does to sound memory

Each function of `paging.c`, and START and STOP of `main`, panics or leaves sound
memory behind, also where processes have been started twice. A frame may have to
be taken from a process; it is enough that this process has a page table.
-/

namespace ECE3056.Vm

open ECE3056.Fallible

/-- A call of `panic`. -/
def Fault.Exits : Fault → Prop
  | .panic _ => True
  | _ => False

/-- A frame would have to be taken from a process that has no page table. -/
def OrphanVictim (s : State) : Prop :=
  ∃ f t p, selectVictimFrame s = .ok (f, t) ∧ (s.frameTable f).mapped = 1 ∧
    (s.frameTable f).process = some p ∧ (s.procs p).savedPtbr = 0

variable {s s' : State} {live : Nat → Nat → Prop} {p v f : Nat}

theorem OrphanVictim.congr (h : OrphanVictim s') (hft : s'.frameTable = s.frameTable)
    (hrep : s'.replacement = s.replacement) (hprng : s'.prng = s.prng)
    (hprocs : ∀ q, (s'.procs q).savedPtbr = (s.procs q).savedPtbr) : OrphanVictim s := by
  obtain ⟨f, t, q, hsel, hmap, hproc, hzero⟩ := h
  obtain ⟨t', hsel'⟩ := selectVictimFrame_congr hsel hft hrep hprng
  rw [hft] at hmap hproc
  exact ⟨f, t', q, hsel', hmap, hproc, (hprocs q).symm.trans hzero⟩

namespace Sound

/-! ## Eviction -/

/-- Whatever `swap_write` finds, it stores the page. -/
theorem writeBack_ok (h : Sound live s) (hf : PageFrame s f p v) (e : Pte) :
    ∃ e' q stats, writeBack s f e = .ok (e', { s with swapQueue := q, stats := stats }) ∧
      ∃ tokens, q.Represents tokens := by
  obtain ⟨tokens, hq⟩ := h.queue
  obtain ⟨page, hpage⟩ := hf.page_eq
  let stats : Stats := { s.stats with writebacks := s.stats.writebacks + 1 }
  by_cases hd : e.dirty = 1
  · by_cases hm : e.swap ∈ tokens
    · obtain ⟨q, hwrite, hq', -⟩ := hq.swapWrite_existing hm page
      refine ⟨{ e with dirty := 0 }, q, stats, ?_, tokens, hq'⟩
      rw [writeBack, if_pos hd, hpage, ok_bind, hwrite]
      rfl
    · obtain ⟨q, hwrite, hq', -⟩ := hq.swapWrite_new e hm page
      refine ⟨{ e with swap := s.swapQueue.TOKEN, dirty := 0 }, q, stats, ?_, _, hq'⟩
      rw [writeBack, if_pos hd, hpage, ok_bind, hwrite]
      rfl
  · refine ⟨e, s.swapQueue, s.stats, ?_, tokens, hq⟩
    rw [writeBack, if_neg hd]
    rfl

/-- After an eviction no entry names the frame. -/
theorem evict_ok (h : Sound live s) (hf : PageFrame s f p v) (hp : p < maxPid) (hv : v < numPages)
    (htable : (s.procs p).savedPtbr ≠ 0) :
    ∃ s', evict s f = .ok s' ∧ Sound live s' ∧ (s'.frameTable f).isProtected = 0 ∧
      (s'.frameTable f).mapped ≠ 1 := by
  obtain ⟨entries, ht⟩ := h.hasTable htable
  obtain ⟨e, q, stats, hwrite, hq⟩ := h.writeBack_ok hf (entries v)
  -- the states after `swap_write` and after the page table is written
  let s₁ : State := { s with swapQueue := q, stats := stats }
  have h₁ : Sound live s₁ := h.congr (fun _ => .of_eq rfl rfl) rfl h.current hq
  have ht₁ : HasTable s₁ p entries := ⟨ht.ne_zero, ht.lt, ht.isProtected, ht.mem_eq⟩
  let s₂ : State := { s₁ with
    mem := Function.update s₁.mem (s.procs p).savedPtbr
      (.pageTable (Function.update entries v { e with valid := 0 })) }
  have h₂ : Sound live s₂ := h₁.setEntry ht₁ fun _ hval => absurd rfl hval
  have ht₂ : HasTable s₂ p (Function.update entries v { e with valid := 0 }) := ht₁.update_self _
  have hf₂ : PageFrame s₂ f p v :=
    hf.congr (.of_eq (Function.update_of_ne (ht.ne_frame hf) ..) rfl)
  have hnone : ∀ q entries w, HasTable s₂ q entries → live q w → w < numPages →
      (entries w).valid ≠ 0 → (entries w).pfn ≠ f := by
    intro q entries' w ht' hl hw hval hpfn
    have hf' := h₂.entry q entries' w ht' hl hw hval
    rw [hpfn] at hf'
    obtain ⟨rfl, rfl⟩ := hf₂.owner_unique hf'
    rw [ht₂.unique ht', Function.update_self] at hval
    exact hval rfl
  refine ⟨_, ?_, h₂.unmap hnone, ?_, ?_⟩
  · have hset : s₁.setPte (s.procs p).savedPtbr v { e with valid := 0 } = .ok s₂ :=
      ht₁.setPte_eq hv _
    simp only [evict, Realizes.fte_eq hf.lt, ok_bind, hf.process, hf.vpn, Realizes.pcb_eq hp,
      ht.pte_eq hv, hwrite]
    show (s₁.setPte (s.procs p).savedPtbr v { e with valid := 0 } >>= fun s => s.setFte f _) = _
    rw [hset, ok_bind, Realizes.setFte_eq hf.lt]
    simp only [s₂, s₁, hf.process, hf.vpn]
  · simp only [Function.update_self]
    exact hf.isProtected
  · simp only [Function.update_self]
    decide

/-- `free_frame` panics, or hands out a frame that no entry names. -/
theorem freeFrame_ends (h : Sound live s) (ho : ¬ OrphanVictim s) :
    Ends Fault.Exits (freeFrame s) fun r => (r.1 < numFrames ∧ Sound live r.2 ∧
      (r.2.frameTable r.1).isProtected = 0 ∧ (r.2.frameTable r.1).mapped ≠ 1) ∧
        SameRegisters s r.2 := by
  refine Ends.mono ?_ fun r hr h => ⟨h, (freeFrame_registers hr).2⟩
  rcases selectVictimFrame_cases s with hoom | ⟨f, prng, hsel, hlt, hprot⟩
  · rw [freeFrame, hoom]
    exact .error trivial
  let s₁ : State := { s with prng := prng }
  have h₁ : Sound live s₁ := h.congr (fun _ => .of_eq rfl rfl) rfl h.current h.queue
  -- clearing the referenced bit
  have hlast : ∀ {s₂ : State}, Sound live s₂ → (s₂.frameTable f).isProtected = 0 →
      (s₂.frameTable f).mapped ≠ 1 →
      Ends Fault.Exits (do
          let s ← s₂.setFte f { (← s₂.fte f) with referenced := 0 }
          return (f, s)) fun r => r.1 < numFrames ∧ Sound live r.2 ∧
        (r.2.frameTable r.1).isProtected = 0 ∧ (r.2.frameTable r.1).mapped ≠ 1 := by
    intro s₂ h₂ hprot₂ hmap₂
    rw [Realizes.fte_eq hlt, ok_bind, Realizes.setFte_eq hlt, ok_bind]
    refine .ok ⟨hlt, h₂.setReferenced f 0, ?_, ?_⟩ <;> simpa only [Function.update_self]
  rw [freeFrame, hsel, ok_bind]
  show Ends _ (do
    let s ← if (← s₁.fte f).mapped = 1 then evict s₁ f else pure s₁
    let s ← s.setFte f { (← s.fte f) with referenced := 0 }
    return (f, s)) _
  rw [Realizes.fte_eq hlt, ok_bind]
  by_cases hmap : (s₁.frameTable f).mapped = 1
  · obtain ⟨q, w, hq, hw, hf⟩ := h₁.frame f hlt hprot hmap
    have htable : (s₁.procs q).savedPtbr ≠ 0 :=
      fun hz => ho ⟨f, _, q, hsel, hmap, hf.process, hz⟩
    obtain ⟨s₂, hevict, h₂, hprot₂, hmap₂⟩ := h₁.evict_ok hf hq hw htable
    rw [if_pos hmap, hevict, ok_bind]
    exact hlast h₂ hprot₂ hmap₂
  · rw [if_neg hmap, pure_eq_ok, ok_bind]
    exact hlast h₁ hprot hmap

/-! ## Accesses -/

theorem loadFrame_ends {tokens : List Nat} (hq : s.swapQueue.Represents tokens)
    (hlt : f < numFrames) (e : Pte) :
    Ends Fault.Exits (loadFrame s f e) fun s' =>
      ∃ page, s' = { s with mem := Function.update s.mem f (.data page) } := by
  rw [loadFrame]
  split
  · by_cases hm : e.swap ∈ tokens
    · obtain ⟨page, hpage⟩ := Option.isSome_iff_exists.mp ((hq.mem_iff_stored _).mp hm)
      rw [hq.swapRead_eq hpage, ok_bind, Realizes.setFrame_eq hlt]
      exact .ok ⟨page, rfl⟩
    · rw [swapRead, hq.find_eq, if_neg hm]
      exact .error trivial
  · rw [Realizes.setFrame_eq hlt]
    exact .ok ⟨zeroPage, rfl⟩

/-- `page_fault` panics, or makes the entry of the page valid. -/
theorem pageFault_ends (h : Whole s) {address : Nat} (hcur : s.currentProcess = some p)
    (htable : (s.procs p).savedPtbr ≠ 0) (hv : vaddrVpn address < numPages)
    (ho : ¬ OrphanVictim s) :
    Ends Fault.Exits (pageFault s address) fun s' => (Whole s' ∧
      ∃ entries, HasTable s' p entries ∧ (entries (vaddrVpn address)).valid ≠ 0) ∧
        SameRegisters s s' := by
  refine Ends.mono ?_ fun s' hs' h => ⟨h, pageFault_registers hs'⟩
  have hp := (h.table p htable).1
  rw [pageFault, hcur]
  show Ends _ (s.pcb p >>= _) _
  rw [Realizes.pcb_eq hp, ok_bind]
  refine (h.freeFrame_ends ho).bind ?_
  intro r hr
  obtain ⟨f, s₁⟩ := r
  obtain ⟨⟨hlt, h₁, hprot, hmap⟩, hprocs, -, -⟩ := hr
  dsimp only at hlt h₁ hprot hmap hprocs ⊢
  rw [← hprocs] at htable ⊢
  obtain ⟨entries, ht⟩ := h₁.hasTable htable
  rw [ht.pte_eq hv, ok_bind]
  -- the entry of the page, and the entry of its frame
  let e : Pte := { entries (vaddrVpn address) with pfn := f, valid := 1, dirty := 0 }
  let fte : Fte := { s₁.frameTable f with
    mapped := 1, isProtected := 0, vpn := vaddrVpn address, process := some p }
  let s₂ : State := { s₁ with
    mem := Function.update s₁.mem (s₁.procs p).savedPtbr
      (.pageTable (Function.update entries (vaddrVpn address) e)) }
  let s₃ : State := { s₂ with frameTable := Function.update s₂.frameTable f fte }
  have hset : s₁.setPte (s₁.procs p).savedPtbr (vaddrVpn address) e = .ok s₂ := ht.setPte_eq hv e
  show Ends _ (s₁.setPte (s₁.procs p).savedPtbr (vaddrVpn address) e >>= _) _
  rw [hset, ok_bind, Realizes.fte_eq hlt, ok_bind, Realizes.setFte_eq hlt, ok_bind]
  show Ends _ (loadFrame s₃ f e >>= _) _
  obtain ⟨tokens, hq⟩ := h₁.queue
  refine (loadFrame_ends (s := s₃) hq hlt e).bind ?_
  rintro s₄ ⟨page, rfl⟩
  obtain ⟨h₄, ht₄⟩ := h₁.mapPage (e := e) ht hlt hv hprot hmap rfl fte ⟨rfl, rfl, rfl, rfl⟩ page
  refine .ok ⟨h₄.congr (fun _ => .of_eq rfl rfl) rfl h₄.current ⟨tokens, hq⟩, _,
    ht₄.congr rfl (.of_eq rfl rfl), ?_⟩
  rw [Function.update_self]
  show (1 : UInt8) ≠ 0
  decide

/-- Translation panics, or ends at the frame that holds the page. -/
theorem translate_ends (h : Whole s) {address : Nat} (hc : Current s p)
    (htable : (s.procs p).savedPtbr ≠ 0) (hv : vaddrVpn address < numPages)
    (ho : ∀ e, s.pte (s.procs p).savedPtbr (vaddrVpn address) = .ok e → e.valid = 0 →
      ¬ OrphanVictim s) :
    Ends Fault.Exits (translate s address) fun r => (Whole r.2 ∧ ∃ f,
      PageFrame r.2 f p (vaddrVpn address) ∧ r.1 = f <<< offsetLen ||| vaddrOffset address) ∧
        SameRegisters s r.2 := by
  refine Ends.mono ?_ fun r hr h => ⟨h, translate_registers hr⟩
  -- once the entry is valid
  have hlast : ∀ {s₁ : State} {entries : Nat → Pte}, Whole s₁ → HasTable s₁ p entries →
      (entries (vaddrVpn address)).valid ≠ 0 → SameRegisters s s₁ →
      Ends Fault.Exits (do
          let pfn := (← s₁.pte s₁.PTBR (vaddrVpn address)).pfn
          let s ← s₁.setFte pfn { (← s₁.fte pfn) with referenced := 1 }
          return (pfn <<< offsetLen ||| vaddrOffset address, s)) fun r => Whole r.2 ∧ ∃ f,
        PageFrame r.2 f p (vaddrVpn address) ∧ r.1 = f <<< offsetLen ||| vaddrOffset address := by
    intro s₁ entries h₁ ht hval hsame
    have hf := h₁.entry p entries _ ht trivial hv hval
    have hptbr : s₁.PTBR = (s₁.procs p).savedPtbr := by
      rw [hsame.1, hsame.2.1, hc.ptbr]
    rw [hptbr, ht.pte_eq hv, ok_bind]
    dsimp only
    rw [Realizes.fte_eq hf.lt, ok_bind, Realizes.setFte_eq hf.lt, ok_bind]
    exact .ok ⟨h₁.setReferenced _ 1, _, hf.congr (sameFrame_setReferenced s₁ _ 1 _), rfl⟩
  obtain ⟨entries, ht⟩ := h.hasTable htable
  have hpte := ht.pte_eq hv
  rw [translate]
  dsimp only
  rw [hc.ptbr, hpte, ok_bind]
  by_cases hval : (entries (vaddrVpn address)).valid = 0
  · rw [if_pos hval]
    refine (h.pageFault_ends hc.process htable hv (ho _ hpte hval)).bind ?_
    intro s₁ hs₁
    obtain ⟨⟨h₁, entries₁, ht₁, hval₁⟩, hsame⟩ := hs₁
    exact hlast h₁ ht₁ hval₁ hsame
  · rw [if_neg hval, pure_eq_ok, ok_bind]
    exact hlast h ht hval (.refl s)

/-- `mem_access` with the right table panics, or leaves memory sound. -/
theorem memAccess_ends (h : Whole s) {address : Nat} {rw : Char} {data : UInt8} (hc : Current s p)
    (htable : (s.procs p).savedPtbr ≠ 0) (hv : vaddrVpn address < numPages)
    (ho : ∀ e, s.pte (s.procs p).savedPtbr (vaddrVpn address) = .ok e → e.valid = 0 →
      ¬ OrphanVictim s) :
    Ends Fault.Exits (memAccess s address rw data) fun r => Whole r.2 ∧ SameRegisters s r.2 := by
  refine Ends.mono ?_ fun r hr h => ⟨h, memAccess_registers hr⟩
  rw [memAccess]
  refine (h.translate_ends hc htable hv ho).bind ?_
  rintro ⟨pa, s₁⟩ ⟨⟨h₁, f, hf, rfl⟩, hprocs, hptbr, -⟩
  dsimp only at h₁ hf hprocs hptbr ⊢
  obtain ⟨hdiv, hmod⟩ := physicalAddress_split f address
  obtain ⟨page, hpage⟩ := hf.page_eq
  let s₂ : State := { s₁ with stats := { s₁.stats with accesses := s₁.stats.accesses + 1 } }
  split
  · let s₃ : State := { s₂ with stats := { s₂.stats with reads := s₂.stats.reads + 1 } }
    have hread : s₃.readByte (f <<< offsetLen ||| vaddrOffset address) =
        .ok (page (vaddrOffset address)) := by
      rw [State.readByte, hdiv, hmod]
      show (s₁.page f >>= _) = _
      rw [hpage]
      rfl
    show Ends _ (s₃.readByte (f <<< offsetLen ||| vaddrOffset address) >>= _) _
    rw [hread]
    exact .ok (h₁.congr (fun _ => .of_eq rfl rfl) rfl h₁.current h₁.queue)
  · have htable₁ : (s₁.procs p).savedPtbr ≠ 0 := hprocs ▸ htable
    obtain ⟨entries, ht⟩ := h₁.hasTable htable₁
    have hp := (h₁.table p htable₁).1
    -- the state after the byte is stored
    let page' : Page := Function.update page (vaddrOffset address) data
    let s₃ : State := { s₂ with mem := Function.update s₁.mem f (.data page') }
    have hwrite : s₂.writeByte (f <<< offsetLen ||| vaddrOffset address) data = .ok s₃ := by
      rw [State.writeByte, hdiv, hmod]
      show (s₁.page f >>= _) = _
      rw [hpage, ok_bind, Realizes.setFrame_eq hf.lt]
    have h₃ : Whole s₃ := by
      have hset := (h₁.setPage (e := s₁.frameTable f) hf.lt hp hv hf.isProtected
        (fun q w hf' => hf.owner_unique hf')
        ⟨hf.isProtected, hf.mapped, hf.process, hf.vpn⟩ page').1
      rw [Function.update_eq_self] at hset
      exact hset.congr (fun _ => .of_eq rfl rfl) rfl h₁.current h₁.queue
    have hne := (h₁.ne_of_unprotected hf.isProtected).2 ht
    have ht₃ : HasTable s₃ p entries :=
      ht.congr rfl (.of_eq (Function.update_of_ne hne ..) rfl)
    have hptbr₃ : s₃.PTBR = (s₃.procs p).savedPtbr := by
      show s₁.PTBR = (s₁.procs p).savedPtbr
      rw [hptbr, hprocs, hc.ptbr]
    show Ends _ (s₂.writeByte (f <<< offsetLen ||| vaddrOffset address) data >>= _) _
    rw [hwrite, ok_bind, hptbr₃, ht₃.pte_eq hv, ok_bind, ht₃.setPte_eq hv, ok_bind]
    have h₄ := h₃.setEntry (v := vaddrVpn address)
      (e := { entries (vaddrVpn address) with dirty := 1 }) ht₃ fun hl hval =>
        h₃.entry p entries _ ht₃ hl hv hval
    exact .ok (h₄.congr (fun _ => .of_eq rfl rfl) rfl h₄.current h₄.queue)

/-! ## START and STOP -/

theorem procs_setPcb_self (s : State) (p : Nat) (pcb : Pcb) : (s.setPcb p pcb).procs p = pcb :=
  Function.update_self ..

theorem procs_setPcb_of_ne {q : Nat} (pcb : Pcb) (h : q ≠ p) :
    (s.setPcb p pcb).procs q = s.procs q := Function.update_of_ne h ..

theorem savedPtbr_setPcb (pcb : Pcb) (hpcb : pcb.savedPtbr = (s.procs p).savedPtbr) (q : Nat) :
    ((s.setPcb p pcb).procs q).savedPtbr = (s.procs q).savedPtbr := by
  by_cases hqp : q = p
  · subst hqp
    rw [procs_setPcb_self, hpcb]
  · rw [procs_setPcb_of_ne pcb hqp]

/-- The number and the state of a process may be set. -/
theorem setPcb (h : Sound live s) (pcb : Pcb)
    (hpcb : pcb.pid = p ∧ pcb.savedPtbr = (s.procs p).savedPtbr) :
    Sound live (s.setPcb p pcb) := by
  have hsaved := savedPtbr_setPcb pcb hpcb.2
  have hpid : ∀ q, (s.procs q).pid = q → ((s.setPcb p pcb).procs q).pid = q := by
    intro q hq
    by_cases hqp : q = p
    · subst hqp
      rw [procs_setPcb_self, hpcb.1]
    · rw [procs_setPcb_of_ne pcb hqp, hq]
  have htable : ∀ {q entries}, HasTable s q entries ↔ HasTable (s.setPcb p pcb) q entries := by
    intro q entries
    constructor
    · rintro ⟨h₁, h₂, h₃, h₄⟩
      rw [← hsaved q] at h₁ h₂ h₃ h₄
      exact ⟨h₁, h₂, h₃, h₄⟩
    · rintro ⟨h₁, h₂, h₃, h₄⟩
      rw [hsaved q] at h₁ h₂ h₃ h₄
      exact ⟨h₁, h₂, h₃, h₄⟩
  have hpage : ∀ {f q w}, PageFrame s f q w → PageFrame (s.setPcb p pcb) f q w :=
    fun hf => hf.congr (.of_eq rfl rfl)
  refine ⟨h.mem_zero, h.zero_protected, ?_, ?_, ?_, ?_, ?_, h.queue⟩
  · intro q hq
    rw [hsaved] at hq
    obtain ⟨hlt, hqpid, entries, ht⟩ := h.table q hq
    exact ⟨hlt, hpid q hqpid, entries, htable.mp ht⟩
  · intro q r
    rw [hsaved, hsaved]
    exact h.table_inj q r
  · intro q entries w ht hl hw hval
    exact hpage (h.entry q entries w (htable.mpr ht) hl hw hval)
  · intro f hf hprot hmap
    obtain ⟨q, w, hq, hw, hpf⟩ := h.frame f hf hprot hmap
    exact ⟨q, w, hq, hw, hpage hpf⟩
  · intro q hq
    obtain ⟨hlt, hqpid⟩ := h.current q hq
    exact ⟨hlt, hpid q hqpid⟩

/-- START panics, or leaves memory sound, also when the process is running. -/
theorem start_ends (h : Whole s) (hp : p < maxPid) (ho : ¬ OrphanVictim s) :
    Ends Fault.Exits (start s p) Whole := by
  have h₀ := h.setPcb (p := p) { s.procs p with pid := p, state := .running } ⟨rfl, rfl⟩
  have ho₀ : ¬ OrphanVictim (s.setPcb p { s.procs p with pid := p, state := .running }) :=
    fun horphan => ho (horphan.congr rfl rfl rfl (savedPtbr_setPcb _ rfl))
  rw [start, Realizes.pcb_eq hp, ok_bind, procInit]
  refine (h₀.freeFrame_ends ho₀).bind ?_
  rintro ⟨f, s₁⟩ ⟨⟨hlt, h₁, hprot, hmap⟩, hprocs, -, -⟩
  dsimp only at hlt h₁ hprot hmap hprocs ⊢
  have hpid : (s₁.procs p).pid = p := by
    rw [hprocs]
    simp [State.setPcb]
  rw [Realizes.setFrame_eq hlt, ok_bind]
  show Ends _ (s₁.pcb p >>= _) _
  rw [Realizes.pcb_eq hp, ok_bind]
  show Ends _ (State.fte _ f >>= _) _
  rw [Realizes.fte_eq hlt, ok_bind, Realizes.setFte_eq hlt]
  exact .ok (h₁.addTable (e := { s₁.frameTable f with isProtected := 1 }) hlt hp hprot hmap
    { s₁.procs p with savedPtbr := f } ⟨hpid, rfl⟩ rfl)

/-- The pages that the loop of `proc_cleanup` has still to visit, and those of other processes. -/
def Unvisited (p i : Nat) (q w : Nat) : Prop := q = p → i ≤ w

/-- The frame of an entry is unmapped; the entry itself stays valid. -/
theorem unmapEntry_ok {entries : Nat → Pte} {i : Nat} (h : Sound (Unvisited p i) s)
    (ht : HasTable s p entries) (hi : i < numPages) :
    ∃ s', unmapEntry s (entries i) = .ok s' ∧ Sound (Unvisited p (i + 1)) s' ∧
      HasTable s' p entries ∧ s'.procs = s.procs := by
  have hnext : Sound (Unvisited p (i + 1)) s :=
    h.mono fun q w hl hq => Nat.le_of_succ_le (hl hq)
  by_cases hval : (entries i).valid = 0
  · refine ⟨s, ?_, hnext, ht, rfl⟩
    rw [unmapEntry, if_neg (not_not_intro hval)]
    rfl
  · have hf := h.entry p entries i ht (fun _ => Nat.le_refl i) hi hval
    have hnone : ∀ q entries' w, HasTable s q entries' → Unvisited p (i + 1) q w →
        w < numPages → (entries' w).valid ≠ 0 → (entries' w).pfn ≠ (entries i).pfn := by
      intro q entries' w ht' hl hw hval' hpfn
      have hf' := hnext.entry q entries' w ht' hl hw hval'
      rw [hpfn] at hf'
      obtain ⟨rfl, rfl⟩ := hf.owner_unique hf'
      exact Nat.not_succ_le_self _ (hl rfl)
    refine ⟨_, ?_, hnext.unmap hnone, ?_, rfl⟩
    · rw [unmapEntry, if_pos hval, Realizes.fte_eq hf.lt, ok_bind, Realizes.setFte_eq hf.lt]
    · exact ht.congr rfl (.of_eq rfl (Function.update_of_ne (Ne.symm (ht.ne_frame hf)) ..))

theorem cleanupEntry_ends {i : Nat} (h : Sound (Unvisited p i) s)
    (htable : (s.procs p).savedPtbr ≠ 0) (hi : i < numPages) :
    Ends Fault.Exits (cleanupEntry (s.procs p).savedPtbr s i) fun s' =>
      Sound (Unvisited p (i + 1)) s' ∧ s'.procs = s.procs := by
  obtain ⟨entries, ht⟩ := h.hasTable htable
  obtain ⟨s₁, hunmap, h₁, ht₁, hprocs⟩ := h.unmapEntry_ok ht hi
  rw [cleanupEntry, ht.pte_eq hi, ok_bind, hunmap, ok_bind]
  split
  · obtain ⟨tokens, hq⟩ := h₁.queue
    by_cases hm : (entries i).swap ∈ tokens
    · obtain ⟨q, hfree, hq', -⟩ := hq.swapFree_spec hm
      rw [hfree, ok_bind]
      let s₂ : State := { s₁ with swapQueue := q }
      have h₂ : Sound (Unvisited p (i + 1)) s₂ :=
        h₁.congr (fun _ => .of_eq rfl rfl) rfl h₁.current ⟨_, hq'⟩
      have ht₂ : HasTable s₂ p entries := ht₁.congr rfl (.of_eq rfl rfl)
      have hset := ht₂.setPte_eq hi { entries i with swap := 0 }
      have hptbr : (s₂.procs p).savedPtbr = (s.procs p).savedPtbr := by rw [← hprocs]
      show Ends _ (s₂.setPte (s.procs p).savedPtbr i { entries i with swap := 0 }) _
      rw [← hptbr, hset]
      refine .ok ⟨h₂.setEntry ht₂ ?_, hprocs⟩
      intro hl
      exact absurd (hl rfl) (Nat.not_succ_le_self i)
    · rw [swapFree, hq.find_eq, if_neg hm]
      exact .error trivial
  · exact .ok ⟨h₁, hprocs⟩

/-- The loop of `proc_cleanup`. -/
theorem cleanupLoop_ends (h : Whole s) (htable : (s.procs p).savedPtbr ≠ 0) :
    Ends Fault.Exits ((List.range numPages).foldlM (cleanupEntry (s.procs p).savedPtbr) s) fun s' =>
      Sound (fun q _ => q ≠ p) s' ∧ s'.procs = s.procs := by
  have hloop : Ends Fault.Exits
      ((List.range numPages).foldlM (cleanupEntry (s.procs p).savedPtbr) s) fun s' =>
        Sound (Unvisited p numPages) s' ∧ s'.procs = s.procs := by
    refine Ends.foldlM_range _ (fun i s' => Sound (Unvisited p i) s' ∧ s'.procs = s.procs) numPages
      ?_ ⟨h.mono fun _ _ _ => trivial, rfl⟩
    intro i t hi ht
    obtain ⟨ht, hprocs⟩ := ht
    rw [← hprocs] at htable ⊢
    exact ht.cleanupEntry_ends htable hi
  refine hloop.mono fun s' _ hs' => ⟨hs'.1.mono ?_, hs'.2⟩
  intro q w hq hqp
  exact absurd hqp hq

/-- STOP of a process with a page table panics, or leaves memory sound. -/
theorem stop_ends (h : Whole s) (htable : (s.procs p).savedPtbr ≠ 0) :
    Ends Fault.Exits (stop s p) Whole := by
  have hp := (h.table p htable).1
  rw [stop, procCleanup, Realizes.pcb_eq hp, ok_bind]
  dsimp only
  rcases h.cleanupLoop_ends htable with ⟨e, hrun, he⟩ | ⟨s₁, hrun, h₁, hprocs⟩
  · rw [hrun]
    exact .error he
  · rw [hrun, ok_bind, ← hprocs]
    rw [← hprocs] at htable
    obtain ⟨entries, ht⟩ := h₁.hasTable htable
    rw [Realizes.fte_eq ht.lt, ok_bind, Realizes.setFte_eq ht.lt, ok_bind]
    show Ends _ (State.pcb _ p >>= _) _
    rw [Realizes.pcb_eq hp, ok_bind]
    exact .ok (h₁.releaseTable htable { s₁.procs p with savedPtbr := 0, state := .stopped }
      ⟨rfl, rfl⟩ rfl)

end Sound

end ECE3056.Vm
