import ECE3056.Vm.Layout
import ECE3056.Vm.SwapSpec

/-!
# Memory that realizes a layout

`Realizes s G` says that the frame table, the frames, the process blocks and the
swap queue of the simulator hold what the layout `G` says. One theorem for each
place where the paging code stores into memory follows the layout along.
-/

namespace ECE3056.Vm

open ECE3056.Fallible

/-- The frame `f` and its frame table entry are those of this role. -/
def Holds (s : State) (G : Layout) (f : Nat) : Role → Prop
  | .reserved =>
    s.mem f = .frameTable ∧ (s.frameTable f).isProtected = 1 ∧ (s.frameTable f).mapped = 0
  | .free => (s.frameTable f).isProtected = 0 ∧ (s.frameTable f).mapped = 0
  | .table p =>
    s.mem f = .pageTable (G.entry p) ∧
      (s.frameTable f).isProtected = 1 ∧ (s.frameTable f).mapped = 0
  | .page p v =>
    s.mem f = .data (G.content p v) ∧
      (s.frameTable f).isProtected = 0 ∧ (s.frameTable f).mapped = 1 ∧
      (s.frameTable f).process = some p ∧ (s.frameTable f).vpn = v

structure Realizes (s : State) (G : Layout) : Prop where
  reserved_iff : ∀ f, G.role f = .reserved ↔ f = 0 ∨ numFrames ≤ f
  holds : ∀ f, f < numFrames → Holds s G f (G.role f)
  table_of_running : ∀ p, G.running p →
    p < maxPid ∧ (s.procs p).pid = p ∧ G.role (s.procs p).savedPtbr = .table p
  running_of_table : ∀ f p, G.role f = .table p → G.running p ∧ (s.procs p).savedPtbr = f
  queue : ∃ tokens, s.swapQueue.Represents tokens
  stored_eq : s.swapQueue.stored = G.stored
  frameTablePtr_eq : s.frameTablePtr = some 0

variable {s : State} {G : Layout}

namespace Realizes

theorem lt_of_role (hR : Realizes s G) {f : Nat} {r : Role} (h : G.role f = r)
    (hr : r ≠ .reserved) :
    f < numFrames := by
  by_contra hf
  exact hr (h ▸ (hR.reserved_iff f).mpr (.inr (Nat.le_of_not_lt hf)))

theorem holds_of_role (hR : Realizes s G) {f : Nat} {r : Role} (h : G.role f = r)
    (hr : r ≠ .reserved) : Holds s G f r := by
  have hf := hR.holds f (hR.lt_of_role h hr)
  rwa [h] at hf

theorem table_unique (hR : Realizes s G) {f g p : Nat} (hf : G.role f = .table p)
    (hg : G.role g = .table p) : f = g := by
  rw [← (hR.running_of_table f p hf).2, ← (hR.running_of_table g p hg).2]

theorem frameTableRoom_of_lt {f : Nat} (h : f < numFrames) : f < frameTableRoom :=
  Nat.lt_of_lt_of_le h (by decide)

/-! ## Reading -/

theorem pcb_eq {p : Nat} (hp : p < maxPid) : s.pcb p = .ok (s.procs p) := if_pos hp

theorem fte_eq {f : Nat} (hf : f < numFrames) : s.fte f = .ok (s.frameTable f) :=
  if_pos (frameTableRoom_of_lt hf)

theorem setFte_eq {f : Nat} (hf : f < numFrames) (e : Fte) :
    s.setFte f e = .ok { s with frameTable := Function.update s.frameTable f e } :=
  if_pos (frameTableRoom_of_lt hf)

theorem pageTable_eq (hR : Realizes s G) {f p : Nat} (hf : G.role f = .table p) :
    s.pageTable f = .ok (G.entry p) := by
  have hmem := (hR.holds_of_role hf (by simp)).1
  rw [State.pageTable, if_pos (hR.lt_of_role hf (by simp)), hmem]

theorem pte_eq (hR : Realizes s G) {f p v : Nat} (hf : G.role f = .table p) (hv : v < numPages) :
    s.pte f v = .ok (G.entry p v) := by
  rw [State.pte, hR.pageTable_eq hf, ok_bind, if_pos hv]
  rfl

theorem setPte_eq (hR : Realizes s G) {f p v : Nat} (hf : G.role f = .table p) (hv : v < numPages)
    (e : Pte) :
    s.setPte f v e = .ok { s with
      mem := Function.update s.mem f (.pageTable (Function.update (G.entry p) v e)) } := by
  rw [State.setPte, hR.pageTable_eq hf, ok_bind, if_pos hv]
  rfl

theorem page_eq (hR : Realizes s G) {f p v : Nat} (hf : G.role f = .page p v) :
    s.page f = .ok (G.content p v) := by
  have hmem := (hR.holds_of_role hf (by simp)).1
  rw [State.page, if_pos (hR.lt_of_role hf (by simp)), hmem]

theorem setFrame_eq {f : Nat} (hf : f < numFrames) (contents : Frame) :
    s.setFrame f contents = .ok { s with mem := Function.update s.mem f contents } := if_pos hf

/-! ## Writing -/

/-- Fields that no layout speaks of may change. -/
theorem congr {s' : State} (hR : Realizes s G) (hmem : s'.mem = s.mem)
    (hft : ∀ f, { s'.frameTable f with referenced := 0 } = { s.frameTable f with referenced := 0 })
    (hprocs : ∀ p, G.running p →
      (s'.procs p).pid = (s.procs p).pid ∧ (s'.procs p).savedPtbr = (s.procs p).savedPtbr)
    (hq : s'.swapQueue = s.swapQueue) (hptr : s'.frameTablePtr = s.frameTablePtr) :
    Realizes s' G where
  reserved_iff := hR.reserved_iff
  holds f hf := by
    have hold := hR.holds f hf
    have heq := hft f
    simp only [Fte.mk.injEq, true_and] at heq
    cases hr : G.role f <;> simp only [hr, Holds, hmem, heq] at hold ⊢ <;> exact hold
  table_of_running p hp := by
    rw [(hprocs p hp).1, (hprocs p hp).2]
    exact hR.table_of_running p hp
  running_of_table f p hf := by
    have hold := hR.running_of_table f p hf
    rw [(hprocs p hold.1).2]
    exact hold
  queue := by
    rw [hq]
    exact hR.queue
  stored_eq := by
    rw [hq]
    exact hR.stored_eq
  frameTablePtr_eq := by
    rw [hptr]
    exact hR.frameTablePtr_eq

/-- Memory does not show which pages are live, nor who owns a token. -/
theorem relabel {G' : Layout} (hR : Realizes s G) (hrole : G'.role = G.role)
    (hentry : G'.entry = G.entry) (hstored : G'.stored = G.stored)
    (hrunning : G'.running = G.running) (hcontent : G'.content = G.content) : Realizes s G' := by
  cases G
  cases G'
  subst hrole hentry hstored hrunning hcontent
  exact ⟨hR.reserved_iff, hR.holds, hR.table_of_running, hR.running_of_table, hR.queue,
    hR.stored_eq, hR.frameTablePtr_eq⟩

/-- Storing a page table entry. -/
theorem setEntry (hR : Realizes s G) {g p v : Nat} (hg : G.role g = .table p) (e : Pte) :
    Realizes
      { s with mem := Function.update s.mem g (.pageTable (Function.update (G.entry p) v e)) }
      (G.setEntry p v e) where
  reserved_iff := hR.reserved_iff
  holds f hf := by
    have hold := hR.holds f hf
    show Holds _ _ f (G.role f)
    by_cases hfg : f = g
    · subst hfg
      rw [hg] at hold ⊢
      refine ⟨?_, hold.2⟩
      simp [Layout.setEntry]
    · cases hr : G.role f with
      | reserved =>
        rw [hr] at hold
        exact ⟨by rw [← hold.1]; exact Function.update_of_ne hfg .., hold.2⟩
      | free => rw [hr] at hold; exact hold
      | table q =>
        rw [hr] at hold
        have hqp : q ≠ p := fun h => hfg (hR.table_unique hr (h ▸ hg))
        refine ⟨?_, hold.2⟩
        simp [Layout.setEntry, hqp, Function.update_of_ne hfg, hold.1]
      | page q w =>
        rw [hr] at hold
        exact ⟨by rw [show (G.setEntry p v e).content = G.content from rfl, ← hold.1]
                  exact Function.update_of_ne hfg .., hold.2⟩
  table_of_running := hR.table_of_running
  running_of_table := hR.running_of_table
  queue := hR.queue
  stored_eq := hR.stored_eq
  frameTablePtr_eq := hR.frameTablePtr_eq

/-- A frame that is no page table gets another use, and neither is the new one. -/
theorem repurpose (hR : Realizes s G) {f : Nat} {r : Role} {m : Frame} {e : Fte}
    (hold : G.role f = .free ∨ ∃ p v, G.role f = .page p v)
    (hnew : r = .free ∨ ∃ p v, r = .page p v)
    (hh : Holds
      { s with mem := Function.update s.mem f m, frameTable := Function.update s.frameTable f e }
      G f r) :
    Realizes
      { s with mem := Function.update s.mem f m, frameTable := Function.update s.frameTable f e }
      (G.setRole f r) where
  reserved_iff g := by
    have hg := hR.reserved_iff g
    rw [Layout.setRole_role]
    split
    · subst g
      rcases hold with h | ⟨p, v, h⟩ <;> rcases hnew with rfl | ⟨q, w, rfl⟩ <;> simpa [h] using hg
    · exact hg
  holds g hg := by
    have hgold := hR.holds g hg
    rw [Layout.setRole_role]
    by_cases hgf : g = f
    · subst hgf
      rw [if_pos rfl]
      rcases hnew with rfl | ⟨q, w, rfl⟩ <;> exact hh
    · rw [if_neg hgf]
      cases hr : G.role g <;>
        simpa only [hr, Holds, Function.update_of_ne hgf, Layout.setRole] using hgold
  table_of_running q hq := by
    obtain ⟨hmax, hpid, hrole⟩ := hR.table_of_running q hq
    refine ⟨hmax, hpid, ?_⟩
    have hne : (s.procs q).savedPtbr ≠ f := by
      intro h
      rw [h] at hrole
      rcases hold with h | ⟨p, v, h⟩ <;> simp [h] at hrole
    rw [Layout.setRole_role, if_neg hne]
    exact hrole
  running_of_table g q hg := by
    rw [Layout.setRole_role] at hg
    split at hg
    · rcases hnew with rfl | ⟨p, v, rfl⟩ <;> simp at hg
    · exact hR.running_of_table g q hg
  queue := hR.queue
  stored_eq := hR.stored_eq
  frameTablePtr_eq := hR.frameTablePtr_eq

/-- Changing a frame table entry of a page frame to unmapped frees the frame. -/
theorem release (hR : Realizes s G) {f p v : Nat} (hf : G.role f = .page p v) {e : Fte}
    (he : e.isProtected = 0 ∧ e.mapped = 0) :
    Realizes { s with frameTable := Function.update s.frameTable f e } (G.setRole f .free) := by
  have h := hR.repurpose (m := s.mem f) (e := e) (.inr ⟨p, v, hf⟩) (.inl rfl)
    (by simpa [Holds] using he)
  rwa [Function.update_eq_self] at h

/-- Storing the contents of a page. -/
theorem setContent (hR : Realizes s G) (hG : G.Valid) {f p v : Nat} (hf : G.role f = .page p v)
    (page : Page) :
    Realizes { s with mem := Function.update s.mem f (.data page) }
      { G with content := Function.update G.content p (Function.update (G.content p) v page) } where
  reserved_iff := hR.reserved_iff
  holds g hg := by
    have hold := hR.holds g hg
    show Holds _ _ g (G.role g)
    by_cases hgf : g = f
    · subst hgf
      rw [hf] at hold ⊢
      refine ⟨?_, hold.2⟩
      simp
    · cases hr : G.role g with
      | page q w =>
        rw [hr] at hold
        refine ⟨?_, hold.2⟩
        have hne : ¬ (q = p ∧ w = v) := by
          intro h
          have hq := (hG.valid_of_role hr).2.2
          rw [h.1, h.2, (hG.valid_of_role hf).2.2] at hq
          exact hgf hq.symm
        have hcontent : Function.update G.content p (Function.update (G.content p) v page) q w =
            G.content q w := Layout.update_update_of_ne _ _ hne
        calc Function.update s.mem f (.data page) g
          _ = s.mem g := Function.update_of_ne hgf ..
          _ = .data (G.content q w) := hold.1
          _ = _ := congrArg Frame.data hcontent.symm
      | _ =>
        rw [hr] at hold
        simpa only [Holds, Function.update_of_ne hgf] using hold
  table_of_running := hR.table_of_running
  running_of_table := hR.running_of_table
  queue := hR.queue
  stored_eq := hR.stored_eq
  frameTablePtr_eq := hR.frameTablePtr_eq

/-- The swap queue changes. -/
theorem setQueue (hR : Realizes s G) {q : SwapQueue} {tokens : List Nat} (hq : q.Represents tokens)
    (stats : Stats) (owner : Nat → Option (Nat × Nat)) :
    Realizes { s with swapQueue := q, stats := stats }
      { G with stored := q.stored, owner := owner } where
  reserved_iff := hR.reserved_iff
  holds f hf := by
    have hold := hR.holds f hf
    cases hr : G.role f <;> simpa only [hr, Holds] using hold
  table_of_running := hR.table_of_running
  running_of_table := hR.running_of_table
  queue := ⟨tokens, hq⟩
  stored_eq := rfl
  frameTablePtr_eq := hR.frameTablePtr_eq

/-- A process gets a zeroed page table in a free frame. -/
theorem addTable (hR : Realizes s G) (hG : G.Valid) {f p : Nat} (hf : G.role f = .free)
    (hp : ¬ G.running p) (hmax : p < maxPid) (pcb : Pcb) (hpcb : pcb.pid = p ∧ pcb.savedPtbr = f) {e : Fte}
    (he : e.isProtected = 1 ∧ e.mapped = 0) :
    Realizes
      { s with
        mem := Function.update s.mem f (.pageTable fun _ => {})
        procs := Function.update s.procs p pcb
        frameTable := Function.update s.frameTable f e }
      (G.addTable f p) where
  reserved_iff g := by
    have hg := hR.reserved_iff g
    show (G.setRole f (.table p)).role g = _ ↔ _
    rw [Layout.setRole_role]
    split
    · subst g
      simpa [hf] using hg
    · exact hg
  holds g hg := by
    have hold := hR.holds g hg
    show Holds _ _ g ((G.setRole f (.table p)).role g)
    rw [Layout.setRole_role]
    by_cases hgf : g = f
    · subst hgf
      simpa [Holds, Layout.addTable] using he
    · rw [if_neg hgf]
      cases hr : G.role g with
      | table q =>
        have hqp : q ≠ p := fun h => hp (h ▸ (hR.running_of_table g q hr).1)
        simpa only [hr, Holds, Function.update_of_ne hgf, Layout.addTable,
          Function.update_of_ne hqp] using hold
      | page q w =>
        have hqp : q ≠ p := by
          intro h
          exact hp (h ▸ (hG.live_running (hG.valid_of_role hr).1).1)
        simpa only [hr, Holds, Function.update_of_ne hgf, Layout.addTable,
          Function.update_of_ne hqp] using hold
      | _ => simpa only [hr, Holds, Function.update_of_ne hgf] using hold
  table_of_running q hq := by
    show q < maxPid ∧ (Function.update s.procs p pcb q).pid = q ∧
      (G.setRole f (.table p)).role (Function.update s.procs p pcb q).savedPtbr = _
    by_cases hqp : q = p
    · subst hqp
      rw [Function.update_self, hpcb.2, Layout.setRole_role, if_pos rfl]
      exact ⟨hmax, hpcb.1, rfl⟩
    · obtain ⟨hqmax, hpid, hrole⟩ := hR.table_of_running q (hq.resolve_left hqp)
      rw [Function.update_of_ne hqp, Layout.setRole_role, if_neg]
      · exact ⟨hqmax, hpid, hrole⟩
      · intro h
        rw [h, hf] at hrole
        simp at hrole
  running_of_table g q hg := by
    show (q = p ∨ G.running q) ∧ (Function.update s.procs p pcb q).savedPtbr = g
    change (G.setRole f (.table p)).role g = _ at hg
    rw [Layout.setRole_role] at hg
    split at hg
    · have hqp : q = p := (Role.table.inj hg).symm
      subst hqp
      rw [Function.update_self]
      exact ⟨.inl rfl, hpcb.2.trans (by symm; assumption)⟩
    · obtain ⟨hrun, hsaved⟩ := hR.running_of_table g q hg
      have hqp : q ≠ p := fun h => hp (h ▸ hrun)
      rw [Function.update_of_ne hqp]
      exact ⟨.inr hrun, hsaved⟩
  queue := hR.queue
  stored_eq := hR.stored_eq
  frameTablePtr_eq := hR.frameTablePtr_eq

/-- A process gives its page table up. -/
theorem releaseTable (hR : Realizes s G) {f p : Nat} (hf : G.role f = .table p) (pcb : Pcb)
    {e : Fte} (he : e.isProtected = 0 ∧ e.mapped = 0) :
    Realizes
      { s with
        procs := Function.update s.procs p pcb
        frameTable := Function.update s.frameTable f e }
      (G.releaseTable f p) where
  reserved_iff g := by
    have hg := hR.reserved_iff g
    show (G.setRole f .free).role g = _ ↔ _
    rw [Layout.setRole_role]
    split
    · subst g
      simpa [hf] using hg
    · exact hg
  holds g hg := by
    have hold := hR.holds g hg
    show Holds _ _ g ((G.setRole f .free).role g)
    rw [Layout.setRole_role]
    by_cases hgf : g = f
    · subst hgf
      simpa [Holds] using he
    · rw [if_neg hgf]
      cases hr : G.role g <;>
        simpa only [hr, Holds, Function.update_of_ne hgf, Layout.releaseTable,
          Layout.setRole] using hold
  table_of_running q hq := by
    obtain ⟨hmax, hpid, hrole⟩ := hR.table_of_running q hq.1
    show q < maxPid ∧ (Function.update s.procs p pcb q).pid = q ∧
      (G.setRole f .free).role (Function.update s.procs p pcb q).savedPtbr = _
    rw [Function.update_of_ne hq.2, Layout.setRole_role, if_neg]
    · exact ⟨hmax, hpid, hrole⟩
    · intro h
      rw [h, hf] at hrole
      exact hq.2 (Role.table.inj hrole).symm
  running_of_table g q hg := by
    change (G.setRole f .free).role g = _ at hg
    rw [Layout.setRole_role] at hg
    split at hg
    · simp at hg
    · rename_i hgf
      obtain ⟨hrun, hsaved⟩ := hR.running_of_table g q hg
      have hqp : q ≠ p := by
        intro h
        subst h
        exact hgf (hR.table_unique hg hf)
      show (G.running q ∧ q ≠ p) ∧ (Function.update s.procs p pcb q).savedPtbr = g
      rw [Function.update_of_ne hqp]
      exact ⟨⟨hrun, hqp⟩, hsaved⟩
  queue := hR.queue
  stored_eq := hR.stored_eq
  frameTablePtr_eq := hR.frameTablePtr_eq

end Realizes

end ECE3056.Vm
