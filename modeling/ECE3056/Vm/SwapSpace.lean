import ECE3056.Vm.Transparency

/-!
# Swap entries over whole runs

The swap queue holds one entry for each page table entry that names a token, and
its counters are those of the list.
-/

namespace ECE3056.Vm

open ECE3056.Fallible

variable {past : List Op} {s : State} {prng : Nat → Nat} {G : Layout}

/-- The `swap` field of a page table entry of a process. -/
def swapField (s : State) (pid vpn : Nat) : Except Fault Nat := do
  return (← s.pte (← s.pcb pid).savedPtbr vpn).swap

theorem Serves.swapField_eq (h : Serves past s G) {p v : Nat} (hp : running past p)
    (hv : v < numPages) : swapField s p v = .ok (G.entry p v).swap := by
  obtain ⟨hmax, -, hg⟩ := h.realizes.table_of_running p ((h.running_iff p).mpr hp)
  rw [swapField, Realizes.pcb_eq hmax, ok_bind, h.realizes.pte_eq hg hv]
  rfl

/-- The state after given operations is unique. -/
theorem Reachable.unique {t : State} (hs : Reachable prng past s) (ht : Reachable prng past t) :
    s = t := by
  induction hs generalizing t with
  | boot => cases ht; rfl
  | next _ _ hstep ih =>
    cases ht with
    | next ht' _ hstep' =>
      rw [ih ht'] at hstep
      rw [hstep] at hstep'
      exact Except.ok.inj hstep'

/-- The high-water mark is the largest size the queue has had. -/
theorem Reachable.sizeMax_eq (h : Reachable prng past s) :
    (∀ earlier t, earlier <:+ past → Reachable prng earlier t →
      t.swapQueue.size ≤ s.swapQueue.sizeMax) ∧
    ∃ earlier t, earlier <:+ past ∧ Reachable prng earlier t ∧
      t.swapQueue.size = s.swapQueue.sizeMax := by
  induction h with
  | boot =>
    constructor
    · intro earlier t hsuffix ht
      obtain rfl := List.suffix_nil.mp hsuffix
      rw [← Reachable.boot.unique ht]
      exact Nat.le_refl 0
    · exact ⟨[], _, List.suffix_rfl, .boot, rfl⟩
  | @next past s s' op hs ha hstep ih =>
    obtain ⟨hle, earlier, t, hsuffix, ht, htop⟩ := ih
    have hs' := hs.next ha hstep
    obtain ⟨G, hserves⟩ := hs.serves
    have hmax : s'.swapQueue.sizeMax = max s.swapQueue.sizeMax s'.swapQueue.size := by
      rcases hserves.survives ha with hoom | ⟨s'', _, hok, -, hmax⟩
      · rw [hstep] at hoom
        simp at hoom
      · rw [hstep] at hok
        rwa [← Except.ok.inj hok] at hmax
    rw [hmax]
    constructor
    · intro earlier t hsuffix ht
      rcases List.suffix_cons_iff.mp hsuffix with rfl | hsuffix
      · rw [hs'.unique ht]
        exact Nat.le_max_right _ _
      · exact (hle earlier t hsuffix ht).trans (Nat.le_max_left _ _)
    · rcases Nat.le_total s'.swapQueue.size s.swapQueue.sizeMax with hge | hlt
      · refine ⟨earlier, t, hsuffix.trans (List.suffix_cons ..), ht, ?_⟩
        rw [htop, max_eq_left hge]
      · exact ⟨op :: past, s', List.suffix_rfl, hs', (max_eq_right hlt).symm⟩

/-- The nonzero swap fields of the running processes are distinct and are the tokens of the
queue, its counters are its length and the largest length so far, no operation fails for any
reason but a lack of frames, and nothing is left when every process has stopped. -/
theorem swap_space_exact (h : Reachable prng past s) :
    ∃ tokens, s.swapQueue.Represents tokens ∧
      (∀ t, t ∈ tokens ↔
        t ≠ 0 ∧ ∃ p v, running past p ∧ v < numPages ∧ swapField s p v = .ok t) ∧
      (∀ p v q w t, running past p → v < numPages → running past q → w < numPages → t ≠ 0 →
        swapField s p v = .ok t → swapField s q w = .ok t → p = q ∧ v = w) ∧
      s.swapQueue.size = tokens.length ∧
      ((∀ earlier t, earlier <:+ past → Reachable prng earlier t →
          t.swapQueue.size ≤ s.swapQueue.sizeMax) ∧
        ∃ earlier t, earlier <:+ past ∧ Reachable prng earlier t ∧
          t.swapQueue.size = s.swapQueue.sizeMax) ∧
      (∀ op, Allowed past op → step s op = .error outOfMemory ∨ ∃ s', step s op = .ok s') ∧
      ((∀ p, running past p = false) → tokens = [] ∧ s.swapQueue.head = none) := by
  obtain ⟨G, hserves⟩ := h.serves
  obtain ⟨tokens, hq⟩ := hserves.realizes.queue
  have hmem : ∀ t, t ∈ tokens ↔ (G.owner t).isSome := by
    intro t
    rw [hq.mem_iff_stored, hserves.realizes.stored_eq, hserves.valid.stored_iff]
  have hlive : ∀ {p v}, running past p → v < numPages → G.live p v :=
    fun hp hv => (hserves.live_iff ..).mpr ⟨hp, hv⟩
  have hfields : ∀ t, t ∈ tokens ↔
      t ≠ 0 ∧ ∃ p v, running past p ∧ v < numPages ∧ swapField s p v = .ok t := by
    intro t
    rw [hmem]
    constructor
    · intro ht
      obtain ⟨⟨p, v⟩, hown⟩ := Option.isSome_iff_exists.mp ht
      obtain ⟨hl, hswap, hne⟩ := hserves.valid.swap_of_owner hown
      obtain ⟨hp, hv⟩ := (hserves.live_iff p v).mp hl
      exact ⟨hne, p, v, hp, hv, by rw [hserves.swapField_eq hp hv, hswap]⟩
    · intro ht
      obtain ⟨hne, p, v, hp, hv, hfield⟩ := ht
      rw [hserves.swapField_eq hp hv] at hfield
      obtain rfl := Except.ok.inj hfield
      rw [hserves.valid.owner_of_swap (hlive hp hv) hne]
      rfl
  refine ⟨tokens, hq, hfields, ?_, hq.size_eq, h.sizeMax_eq, fun op ha => h.succeeds ha, ?_⟩
  · intro p v q w t hp hv hq' hw hne hpv hqw
    rw [hserves.swapField_eq hp hv] at hpv
    rw [hserves.swapField_eq hq' hw] at hqw
    have htp := Except.ok.inj hpv
    have htq := Except.ok.inj hqw
    exact hserves.valid.swap_inj (hlive hp hv) (hlive hq' hw) (htp ▸ hne) (htp.trans htq.symm)
  · intro hstopped
    have hnil : tokens = [] := by
      apply List.eq_nil_iff_forall_not_mem.mpr
      intro t ht
      obtain ⟨_, p, v, hp, -⟩ := (hfields t).mp ht
      rw [hstopped p] at hp
      simp at hp
    subst hnil
    exact ⟨rfl, hq.chain⟩

/-- START 1, a write to page 0, and reads of as many other pages as there are frames for. -/
def evictTrace : List Op :=
  [.start 1, .access 1 0 'w' 7] ++
    (List.range 62).map fun page => .access 1 ((page + 1) * pageSize) 'r' 0

theorem obeys_reads {p : Nat} (hp : running past p) {pages : List Nat}
    (hpages : ∀ page ∈ pages, page + 1 < numPages) :
    Obeys Allowed past (pages.map fun page => .access p ((page + 1) * pageSize) 'r' 0) := by
  induction pages generalizing past with
  | nil => trivial
  | cons page pages ih =>
    have hpage := hpages page (List.mem_cons_self ..)
    have hlt : (page + 1) * pageSize < 2 ^ 24 := by
      simp only [numPages, pageSize, offsetLen] at *
      omega
    exact ⟨⟨hp, hlt⟩, ih hp fun q hq => hpages q (List.mem_cons_of_mem page hq)⟩

set_option maxRecDepth 10000 in
/-- The last read evicts the page that has been written to, and the queue holds its entry. -/
theorem swap_space_exact_evicted : ∃ s, Reachable (fun _ => 1) evictTrace.reverse s ∧
    swapField s 1 0 = .ok 1 ∧ s.swapQueue.Represents [1] := by
  have hrun : (do
      let s ← evictTrace.foldlM step (boot fun _ => 1)
      if s.swapQueue.size = 1 ∧ (← swapField s 1 0) = 1 then return
      else throw Fault.undefined).toBool = true := by decide +kernel
  have ha : Obeys Allowed [] evictTrace := by
    refine ⟨⟨by decide, rfl⟩, ⟨rfl, by decide⟩, obeys_reads rfl fun page hpage => ?_⟩
    have hlt := List.mem_range.mp hpage
    simp only [numPages, offsetLen]
    omega
  cases hs : evictTrace.foldlM step (boot fun _ => 1) with
  | error fault => simp [hs, Except.toBool] at hrun
  | ok s =>
    have h : Reachable (fun _ => 1) evictTrace.reverse s := by
      simpa using Reachable.boot.foldlM ha hs
    cases hfield : swapField s 1 0 with
    | error fault => simp [hs, hfield, Except.toBool] at hrun
    | ok token =>
      obtain ⟨hsize, rfl⟩ : s.swapQueue.size = 1 ∧ token = 1 := by
        by_contra hno
        simp [hs, hfield, if_neg hno, Except.toBool] at hrun
      obtain ⟨tokens, hq, hfields, -, hlength, -⟩ := swap_space_exact h
      have hrunning : running evictTrace.reverse 1 := by decide
      have hmem : 1 ∈ tokens :=
        (hfields 1).mpr ⟨by decide, 1, 0, hrunning, by decide, hfield⟩
      obtain ⟨t, ht⟩ := List.length_eq_one_iff.mp (hlength.symm.trans hsize)
      subst ht
      obtain rfl := List.mem_singleton.mp hmem
      exact ⟨s, h, hfield, hq⟩

end ECE3056.Vm
