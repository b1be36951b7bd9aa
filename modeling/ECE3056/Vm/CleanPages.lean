import ECE3056.Vm.Transparency

/-!
# Clean pages and their backing store

The backing store of a page is its swap entry, or zeroes while it has none. The frame
of a clean page holds the same bytes, so a clean victim can be dropped: whatever is
evicted and loaded afterwards, the page keeps its bytes until it is written to.
-/

namespace ECE3056.Vm

open ECE3056.Fallible

/-- The page that `page_fault` would load for the entry. -/
def backingStore (s : State) (entry : Pte) : Except Fault Page :=
  if entry.swap ≠ 0 then swapRead s.swapQueue entry else .ok zeroPage

theorem loadFrame_eq (s : State) (frame : Nat) (entry : Pte) :
    loadFrame s frame entry =
      backingStore s entry >>= fun page => s.setFrame frame (.data page) := by
  rw [loadFrame, backingStore]
  split <;> rfl

/-- The bytes of a page: those in its frame, or those that a page fault would load. -/
def pageBytes (s : State) (pid vpn : Nat) : Except Fault Page := do
  let entry ← s.pte (← s.pcb pid).savedPtbr vpn
  if entry.valid ≠ 0 then s.page entry.pfn else backingStore s entry

/-- The operation starts or stops the process, or writes to the page. -/
def Op.Touches (p v : Nat) : Op → Prop
  | .start q => q = p
  | .stop q => q = p
  | .access q address rw _ => q = p ∧ vaddrVpn address = v ∧ rw ≠ 'r'

variable {past : List Op} {s : State} {prng : Nat → Nat} {G : Layout} {p v : Nat}

/-! ## The bytes of a page -/

theorem Realizes.backingStore_eq (hR : Realizes s G) (hG : G.Valid) (hl : G.live p v)
    (hclean : (G.entry p v).valid = 0 ∨ (G.entry p v).dirty = 0) :
    backingStore s (G.entry p v) = .ok (G.content p v) := by
  have hback := hG.backing_eq hl hclean
  rw [Layout.backing] at hback
  by_cases hs : (G.entry p v).swap = 0
  · rw [if_pos hs] at hback
    rw [backingStore, if_neg (not_not_intro hs), Option.some_inj.mp hback]
  · rw [if_neg hs, ← hR.stored_eq] at hback
    obtain ⟨tokens, hq⟩ := hR.queue
    rw [backingStore, if_pos hs, hq.swapRead_eq hback]

theorem Realizes.pageBytes_eq (hR : Realizes s G) (hG : G.Valid) (hl : G.live p v) :
    pageBytes s p v = .ok (G.content p v) := by
  obtain ⟨hrun, hv⟩ := hG.live_running hl
  obtain ⟨hmax, -, hg⟩ := hR.table_of_running p hrun
  rw [pageBytes, Realizes.pcb_eq hmax, ok_bind, hR.pte_eq hg hv, ok_bind]
  rcases hG.valid_bit hl with hval | hval
  · rw [if_neg (not_not_intro hval)]
    exact hR.backingStore_eq hG hl (.inl hval)
  · rw [if_pos (by rw [hval]; decide)]
    exact hR.page_eq (hG.role_of_valid hl hval)

theorem vaddrVpn_join {o : Nat} (hv : v < numPages) (ho : o < pageSize) :
    vaddrVpn (v * pageSize + o) = v := by
  simp only [vaddrVpn, numPages, pageSize, offsetLen] at *
  omega

theorem vaddrOffset_join {o : Nat} (ho : o < pageSize) : vaddrOffset (v * pageSize + o) = o := by
  simp only [vaddrOffset, pageSize, offsetLen] at *
  omega

theorem Serves.content_byte (h : Serves past s G) (hp : running past p) (hv : v < numPages)
    {o : Nat} (ho : o < pageSize) : G.content p v o = lastWritten past p (v * pageSize + o) := by
  have hlt : v * pageSize + o < 2 ^ 24 := by
    simp only [numPages, pageSize, offsetLen] at *
    omega
  have hbyte := h.content_eq p (v * pageSize + o) hp hlt
  rwa [vaddrVpn_join hv ho, vaddrOffset_join ho] at hbyte

/-! ## Operations elsewhere -/

theorem running_of_untouched {later : List Op} (hu : ∀ op ∈ later, ¬ op.Touches p v) :
    running (later ++ past) p = running past p := by
  induction later with
  | nil => rfl
  | cons op later ih =>
    have hop := hu op (List.mem_cons_self ..)
    have ih := ih fun op hop => hu op (List.mem_cons_of_mem _ hop)
    cases op with
    | start q =>
      have hqp : (q == p) = false := beq_eq_false_iff_ne.mpr hop
      rw [List.cons_append, running, hqp, Bool.false_or, ih]
    | stop q =>
      have hqp : (q != p) = true := bne_iff_ne.mpr hop
      rw [List.cons_append, running, hqp, Bool.true_and, ih]
    | access q address rw data => exact ih

theorem lastWritten_of_untouched {later : List Op} (hu : ∀ op ∈ later, ¬ op.Touches p v) {a : Nat}
    (ha : vaddrVpn a = v) : lastWritten (later ++ past) p a = lastWritten past p a := by
  induction later with
  | nil => rfl
  | cons op later ih =>
    have hop := hu op (List.mem_cons_self ..)
    have ih := ih fun op hop => hu op (List.mem_cons_of_mem _ hop)
    cases op with
    | start q => exact (if_neg hop).trans ih
    | stop q => exact ih
    | access q b rw data =>
      refine (if_neg ?_).trans ih
      intro hwrite
      obtain ⟨hq, hb, hrw⟩ := hwrite
      exact hop ⟨hq, hb ▸ ha, hrw⟩

/-! ## Clean victims -/

/-- The frame of a clean page holds what its backing store holds, and dropping the page keeps
its bytes. -/
def CleanBacked (s : State) (p v : Nat) : Prop :=
  ∃ entry, s.pte (s.procs p).savedPtbr v = .ok entry ∧
    (entry.valid ≠ 0 → entry.dirty = 0 → ∃ page, s.page entry.pfn = .ok page ∧
      backingStore s entry = .ok page ∧
      ∃ s', evict s entry.pfn = .ok s' ∧ s'.swapQueue = s.swapQueue ∧ pageBytes s' p v = .ok page)

theorem Serves.cleanBacked (h : Serves past s G) (hp : running past p) (hv : v < numPages) :
    CleanBacked s p v := by
  have hR := h.realizes
  have hl : G.live p v := (h.live_iff p v).mpr ⟨hp, hv⟩
  have hg := (hR.table_of_running p ((h.running_iff p).mpr hp)).2.2
  refine ⟨G.entry p v, hR.pte_eq hg hv, ?_⟩
  intro hvalid hclean
  have hrole := h.valid.role_of_valid hl ((h.valid.valid_bit hl).resolve_left hvalid)
  refine ⟨G.content p v, hR.page_eq hrole, hR.backingStore_eq h.valid hl (.inr hclean), _,
    evict_clean hR h.valid hrole hclean, rfl, ?_⟩
  have hG' : (G.unmap (G.entry p v).pfn p v).Valid := h.valid.unmap hrole hclean
  have hR' : Realizes _ (G.unmap (G.entry p v).pfn p v) := hR.evicted hg hrole _
  exact hR'.pageBytes_eq hG' hl

/-- A page keeps its bytes while its process neither stops nor writes to it. -/
theorem Reachable.pageBytes_kept (h : Reachable prng past s) (hp : running past p)
    (hv : v < numPages) {later : List Op} {t : State} (ht : Reachable prng (later ++ past) t)
    (hu : ∀ op ∈ later, ¬ op.Touches p v) :
    ∃ page page', pageBytes s p v = .ok page ∧ pageBytes t p v = .ok page' ∧
      ∀ o < pageSize, page' o = page o := by
  obtain ⟨G, hserves⟩ := h.serves
  obtain ⟨G', hserves'⟩ := ht.serves
  have hp' : running (later ++ past) p := by rwa [running_of_untouched hu]
  have hl : G.live p v := (hserves.live_iff p v).mpr ⟨hp, hv⟩
  have hl' : G'.live p v := (hserves'.live_iff p v).mpr ⟨hp', hv⟩
  refine ⟨G.content p v, G'.content p v, hserves.realizes.pageBytes_eq hserves.valid hl,
    hserves'.realizes.pageBytes_eq hserves'.valid hl', ?_⟩
  intro o ho
  calc G'.content p v o
    _ = lastWritten (later ++ past) p (v * pageSize + o) := hserves'.content_byte hp' hv ho
    _ = lastWritten past p (v * pageSize + o) := lastWritten_of_untouched hu (vaddrVpn_join hv ho)
    _ = G.content p v o := (hserves.content_byte hp hv ho).symm

/-- In every reachable state the frame of a clean page holds what its backing store holds, which is
what a page fault loads. So dropping a clean victim loses nothing: whatever is evicted and loaded
afterwards, the page has the same bytes until its process writes to it or ends. -/
theorem clean_pages_backed (h : Reachable prng past s) (hp : running past p)
    (hv : v < numPages) :
    CleanBacked s p v ∧
      (∀ later t, Reachable prng (later ++ past) t → (∀ op ∈ later, ¬ op.Touches p v) →
        ∃ page page', pageBytes s p v = .ok page ∧ pageBytes t p v = .ok page' ∧
          ∀ o < pageSize, page' o = page o) ∧
      ∀ t frame entry, loadFrame t frame entry =
        backingStore t entry >>= fun page => t.setFrame frame (.data page) := by
  obtain ⟨G, hserves⟩ := h.serves
  refine ⟨hserves.cleanBacked hp hv, ?_, loadFrame_eq⟩
  intro later t ht hu
  exact h.pageBytes_kept hp hv ht hu

/-- The page that process 1 has read from is backed. -/
theorem clean_pages_backed_read : ∃ s,
    Reachable (fun _ => 1) [.access 1 5 'r' 0, .start 1] s ∧ CleanBacked s 1 0 := by
  obtain ⟨s, hs⟩ := @reachable_access 'r' 0 (by decide +kernel)
  exact ⟨s, hs, (clean_pages_backed hs rfl (by decide)).1⟩

end ECE3056.Vm
