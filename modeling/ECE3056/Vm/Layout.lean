import ECE3056.Vm.Paging
import Mathlib.Tactic

/-!
# The layout of physical memory and swap

A `Layout` says what every frame and every swap entry is for, and what each page
of each process should contain, as functions that cannot disagree: a frame has one
role and a token one owner. `Layout.Valid` relates the page table entries to the
roles and owners. The operations below are the ones the paging code performs, one
table at a time; each keeps a layout valid.
-/

namespace ECE3056.Vm

/-- What a frame is used for. -/
inductive Role
  /-- Frame 0, and the numbers that are not frames. -/
  | reserved
  | free
  | table (pid : Nat)
  | page (pid vpn : Nat)
  deriving DecidableEq

structure Layout where
  role : Nat → Role
  /-- The page table entries of each process. -/
  entry : Nat → Nat → Pte
  /-- The page that a swap token belongs to. -/
  owner : Nat → Option (Nat × Nat)
  stored : Nat → Option Page
  running : Nat → Prop
  /-- The pages that have not been cleaned up. -/
  live : Nat → Nat → Prop
  /-- What the page of a process should contain. -/
  content : Nat → Nat → Page

namespace Layout

variable {G : Layout} {p v f : Nat}

/-- What a page fault would load. -/
def backing (G : Layout) (p v : Nat) : Option Page :=
  if (G.entry p v).swap = 0 then some zeroPage else G.stored (G.entry p v).swap

structure Valid (G : Layout) : Prop where
  live_running : ∀ {p v}, G.live p v → G.running p ∧ v < numPages
  valid_bit : ∀ {p v}, G.live p v → (G.entry p v).valid = 0 ∨ (G.entry p v).valid = 1
  dirty_bit : ∀ {p v}, G.live p v → (G.entry p v).dirty = 0 ∨ (G.entry p v).dirty = 1
  role_of_valid : ∀ {p v}, G.live p v → (G.entry p v).valid = 1 →
    G.role (G.entry p v).pfn = .page p v
  valid_of_role : ∀ {f p v}, G.role f = .page p v →
    G.live p v ∧ (G.entry p v).valid = 1 ∧ (G.entry p v).pfn = f
  backing_eq : ∀ {p v}, G.live p v → (G.entry p v).valid = 0 ∨ (G.entry p v).dirty = 0 →
    G.backing p v = some (G.content p v)
  owner_of_swap : ∀ {p v}, G.live p v → (G.entry p v).swap ≠ 0 →
    G.owner (G.entry p v).swap = some (p, v)
  swap_of_owner : ∀ {t p v}, G.owner t = some (p, v) →
    G.live p v ∧ (G.entry p v).swap = t ∧ t ≠ 0
  stored_iff : ∀ t, (G.stored t).isSome ↔ (G.owner t).isSome

/-- Before the first process starts. -/
def initial : Layout where
  role f := if f = 0 ∨ numFrames ≤ f then .reserved else .free
  entry _ _ := {}
  owner _ := none
  stored _ := none
  running _ := False
  live _ _ := False
  content _ _ := zeroPage

theorem initial_valid : initial.Valid where
  live_running h := h.elim
  valid_bit h := h.elim
  dirty_bit h := h.elim
  role_of_valid h := h.elim
  valid_of_role {f p v} h := by
    simp only [initial] at h
    split at h <;> simp at h
  backing_eq h := h.elim
  owner_of_swap h := h.elim
  swap_of_owner h := by simp [initial] at h
  stored_iff t := by simp [initial]

/-! ## The operations -/

def setEntry (G : Layout) (p v : Nat) (e : Pte) : Layout :=
  { G with entry := Function.update G.entry p (Function.update (G.entry p) v e) }

def setRole (G : Layout) (f : Nat) (r : Role) : Layout :=
  { G with role := Function.update G.role f r }

@[simp] theorem setEntry_entry (G : Layout) (p v q w : Nat) (e : Pte) :
    (G.setEntry p v e).entry q w = if q = p ∧ w = v then e else G.entry q w := by
  by_cases hq : q = p
  · subst hq
    by_cases hw : w = v
    · simp [setEntry, hw]
    · simp [setEntry, hw]
  · simp [setEntry, hq]

@[simp] theorem setRole_role (G : Layout) (f g : Nat) (r : Role) :
    (G.setRole f r).role g = if g = f then r else G.role g := by
  simp [setRole, Function.update_apply]

@[simp] theorem setEntry_role (G : Layout) (p v : Nat) (e : Pte) :
    (G.setEntry p v e).role = G.role := rfl

@[simp] theorem setRole_entry (G : Layout) (f : Nat) (r : Role) :
    (G.setRole f r).entry = G.entry := rfl

/-- A dirty page is written to the swap entry `t`. -/
def writeBack (G : Layout) (p v t : Nat) : Layout :=
  { G.setEntry p v { G.entry p v with swap := t, dirty := 0 } with
    owner := Function.update G.owner t (some (p, v))
    stored := Function.update G.stored t (some (G.content p v)) }

/-- A clean page gives up its frame. -/
def unmap (G : Layout) (f p v : Nat) : Layout :=
  (G.setEntry p v { G.entry p v with valid := 0 }).setRole f .free

/-- An invalid page gets the frame `f`. -/
def mapPage (G : Layout) (f p v : Nat) : Layout :=
  (G.setEntry p v { G.entry p v with pfn := f, valid := 1, dirty := 0 }).setRole f (.page p v)

/-- A mapped page is written to. -/
def store (G : Layout) (p v : Nat) (page : Page) : Layout :=
  { G.setEntry p v { G.entry p v with dirty := 1 } with
    content := Function.update G.content p (Function.update (G.content p) v page) }

/-- A process starts, with its page table in the frame `f`. -/
def addTable (G : Layout) (f p : Nat) : Layout :=
  { G.setRole f (.table p) with
    entry := Function.update G.entry p fun _ => {}
    running := fun q => q = p ∨ G.running q
    live := fun q v => if q = p then v < numPages else G.live q v
    content := Function.update G.content p fun _ => zeroPage }

/-- A page is cleaned up. -/
def forget (G : Layout) (p v : Nat) : Layout :=
  { G with
    role := if (G.entry p v).valid = 1 then Function.update G.role (G.entry p v).pfn .free else G.role
    entry := Function.update G.entry p (Function.update (G.entry p) v { G.entry p v with swap := 0 })
    owner := Function.update G.owner (G.entry p v).swap none
    stored := Function.update G.stored (G.entry p v).swap none
    live := fun q w => G.live q w ∧ ¬ (q = p ∧ w = v) }

/-- A process without live pages gives up its page table. -/
def releaseTable (G : Layout) (f p : Nat) : Layout :=
  { G.setRole f .free with running := fun q => G.running q ∧ q ≠ p }

/-! ## Tokens -/

theorem Valid.stored_none (hG : G.Valid) {t : Nat} (h : G.stored t = none) : G.owner t = none := by
  have hi := hG.stored_iff t
  rw [h] at hi
  simpa using hi

theorem Valid.stored_of_swap (hG : G.Valid) (hl : G.live p v) (hs : (G.entry p v).swap ≠ 0) :
    (G.stored (G.entry p v).swap).isSome := by
  rw [hG.stored_iff, hG.owner_of_swap hl hs]
  rfl

/-- Only its owner's entry names a swap token. -/
theorem Valid.swap_inj (hG : G.Valid) {q w : Nat} (hp : G.live p v) (hq : G.live q w)
    (hs : (G.entry p v).swap ≠ 0) (heq : (G.entry p v).swap = (G.entry q w).swap) :
    p = q ∧ v = w := by
  have ho := hG.owner_of_swap hp hs
  rw [heq, hG.owner_of_swap hq (heq ▸ hs)] at ho
  simpa [eq_comm] using ho

/-! ## One page at a time -/

/-- What `Valid` says of one page. -/
structure PageOk (G : Layout) (p v : Nat) : Prop where
  live_running : G.live p v → G.running p ∧ v < numPages
  valid_bit : G.live p v → (G.entry p v).valid = 0 ∨ (G.entry p v).valid = 1
  dirty_bit : G.live p v → (G.entry p v).dirty = 0 ∨ (G.entry p v).dirty = 1
  role_of_valid : G.live p v → (G.entry p v).valid = 1 → G.role (G.entry p v).pfn = .page p v
  valid_of_role : ∀ f, G.role f = .page p v →
    G.live p v ∧ (G.entry p v).valid = 1 ∧ (G.entry p v).pfn = f
  backing_eq : G.live p v → (G.entry p v).valid = 0 ∨ (G.entry p v).dirty = 0 →
    G.backing p v = some (G.content p v)
  owner_of_swap : G.live p v → (G.entry p v).swap ≠ 0 → G.owner (G.entry p v).swap = some (p, v)
  swap_of_owner : ∀ t, G.owner t = some (p, v) → G.live p v ∧ (G.entry p v).swap = t ∧ t ≠ 0

theorem Valid.page (hG : G.Valid) (p v : Nat) : G.PageOk p v :=
  ⟨hG.live_running, hG.valid_bit, hG.dirty_bit, hG.role_of_valid, fun _ => hG.valid_of_role,
    hG.backing_eq, hG.owner_of_swap, fun _ => hG.swap_of_owner⟩

theorem valid_of_pages (hpage : ∀ p v, G.PageOk p v)
    (hstored : ∀ t, (G.stored t).isSome ↔ (G.owner t).isSome) : G.Valid where
  live_running := (hpage _ _).live_running
  valid_bit := (hpage _ _).valid_bit
  dirty_bit := (hpage _ _).dirty_bit
  role_of_valid := (hpage _ _).role_of_valid
  valid_of_role := (hpage _ _).valid_of_role _
  backing_eq := (hpage _ _).backing_eq
  owner_of_swap := (hpage _ _).owner_of_swap
  swap_of_owner := (hpage _ _).swap_of_owner _
  stored_iff := hstored

/-- The page is not concerned by an operation. -/
structure SamePage (G G' : Layout) (p v : Nat) : Prop where
  live : G'.live p v ↔ G.live p v
  running : G.live p v → G.running p → G'.running p
  entry : G'.entry p v = G.entry p v
  content : G'.content p v = G.content p v
  role : ∀ f, G'.role f = .page p v ↔ G.role f = .page p v
  owner : ∀ t, G'.owner t = some (p, v) ↔ G.owner t = some (p, v)
  stored : G.live p v → (G.entry p v).swap ≠ 0 →
    G'.stored (G.entry p v).swap = G.stored (G.entry p v).swap

theorem PageOk.of_same {G' : Layout} (h : G.PageOk p v) (hsame : SamePage G G' p v) :
    G'.PageOk p v := by
  constructor
  · intro hl
    have hl := hsame.live.mp hl
    exact ⟨hsame.running hl (h.live_running hl).1, (h.live_running hl).2⟩
  · intro hl
    rw [hsame.entry]
    exact h.valid_bit (hsame.live.mp hl)
  · intro hl
    rw [hsame.entry]
    exact h.dirty_bit (hsame.live.mp hl)
  · intro hl hval
    rw [hsame.entry] at hval ⊢
    exact (hsame.role _).mpr (h.role_of_valid (hsame.live.mp hl) hval)
  · intro f hf
    rw [hsame.live, hsame.entry]
    exact h.valid_of_role f ((hsame.role f).mp hf)
  · intro hl hclean
    have hl := hsame.live.mp hl
    rw [hsame.entry] at hclean
    rw [hsame.content, ← h.backing_eq hl hclean, backing, backing, hsame.entry]
    by_cases hs : (G.entry p v).swap = 0
    · rw [if_pos hs, if_pos hs]
    · rw [if_neg hs, if_neg hs]
      exact hsame.stored hl hs
  · intro hl hs
    rw [hsame.entry] at hs ⊢
    exact (hsame.owner _).mpr (h.owner_of_swap (hsame.live.mp hl) hs)
  · intro t ht
    rw [hsame.live, hsame.entry]
    exact h.swap_of_owner t ((hsame.owner t).mp ht)

/-- An operation on one page. -/
theorem Valid.of_page {G' : Layout} (hG : G.Valid) (p v : Nat) (hself : G'.PageOk p v)
    (hother : ∀ q w, ¬ (q = p ∧ w = v) → SamePage G G' q w)
    (hstored : ∀ t, (G'.stored t).isSome ↔ (G'.owner t).isSome) : G'.Valid := by
  refine valid_of_pages ?_ hstored
  intro q w
  by_cases hpv : q = p ∧ w = v
  · rw [hpv.1, hpv.2]
    exact hself
  · exact (hG.page q w).of_same (hother q w hpv)

theorem setEntry_self (G : Layout) (p v : Nat) (e : Pte) : (G.setEntry p v e).entry p v = e := by
  rw [setEntry_entry, if_pos ⟨rfl, rfl⟩]

theorem setEntry_other (G : Layout) {p v q w : Nat} (e : Pte) (h : ¬ (q = p ∧ w = v)) :
    (G.setEntry p v e).entry q w = G.entry q w := by
  rw [setEntry_entry, if_neg h]

theorem update_update_of_ne {α : Type} (g : Nat → Nat → α) {p v q w : Nat} (x : α)
    (h : ¬ (q = p ∧ w = v)) :
    Function.update g p (Function.update (g p) v x) q w = g q w := by
  by_cases hq : q = p
  · subst hq
    rw [Function.update_self, Function.update_of_ne fun hw => h ⟨rfl, hw⟩]
  · rw [Function.update_of_ne hq]

/-- A frame that changes its role was not, and is not, the frame of the page. -/
theorem setRole_page_iff {q w : Nat} {r : Role} (hold : G.role f ≠ .page q w)
    (hnew : r ≠ .page q w) (g : Nat) :
    (G.setRole f r).role g = .page q w ↔ G.role g = .page q w := by
  rw [setRole_role]
  by_cases hg : g = f
  · rw [if_pos hg, hg]
    exact iff_of_false hnew hold
  · rw [if_neg hg]

theorem page_ne {p v q w : Nat} (h : ¬ (q = p ∧ w = v)) : Role.page p v ≠ .page q w := by
  intro heq
  obtain ⟨hp, hv⟩ := Role.page.inj heq
  exact h ⟨hp.symm, hv.symm⟩

theorem some_ne {p v q w : Nat} (h : ¬ (q = p ∧ w = v)) : some (p, v) ≠ some (q, w) := by
  intro heq
  obtain ⟨hp, hv⟩ := Prod.mk.inj (Option.some_inj.mp heq)
  exact h ⟨hp.symm, hv.symm⟩

/-! ## The operations keep a layout valid -/

theorem Valid.writeBack (hG : G.Valid) {t : Nat} (hl : G.live p v) (ht : t ≠ 0)
    (htok : (G.entry p v).swap = t ∨ (G.entry p v).swap = 0 ∧ G.stored t = none) :
    (G.writeBack p v t).Valid := by
  -- the token belongs to no other page
  have hfree : ∀ q w, ¬ (q = p ∧ w = v) → G.owner t ≠ some (q, w) := by
    intro q w hpv
    rcases htok with hsame | ⟨-, hnone⟩
    · rw [← hsame, hG.owner_of_swap hl (hsame ▸ ht)]
      exact some_ne hpv
    · simp [hG.stored_none hnone]
  have hentry : (G.writeBack p v t).entry p v = { G.entry p v with swap := t, dirty := 0 } :=
    setEntry_self ..
  have hself := hG.page p v
  refine hG.of_page p v ?_ ?_ ?_
  · refine ⟨hself.live_running, ?_, ?_, ?_, ?_, ?_, ?_, ?_⟩
    · intro _
      rw [hentry]
      exact hself.valid_bit hl
    · intro _
      rw [hentry]
      exact .inl rfl
    · intro _
      rw [hentry]
      exact hself.role_of_valid hl
    · rw [hentry]
      exact hself.valid_of_role
    · intro _ _
      rw [backing, hentry, if_neg ht]
      exact Function.update_self ..
    · intro _ _
      rw [hentry]
      exact Function.update_self ..
    · intro u hu
      rw [hentry]
      by_cases hut : u = t
      · exact ⟨hl, hut.symm, hut ▸ ht⟩
      · have hold : G.owner u = some (p, v) := (Function.update_of_ne hut ..).symm.trans hu
        obtain ⟨-, hswap, hne⟩ := hself.swap_of_owner u hold
        rcases htok with hsame | ⟨hzero, -⟩
        · exact absurd (hswap.symm.trans hsame) hut
        · exact absurd (hswap.symm.trans hzero) hne
  · intro q w hpv
    refine ⟨Iff.rfl, fun _ => id, setEntry_other G _ hpv, rfl, fun _ => Iff.rfl, ?_, ?_⟩
    · intro u
      by_cases hut : u = t
      · rw [hut, show (G.writeBack p v t).owner t = _ from Function.update_self ..]
        exact iff_of_false (some_ne hpv) (hfree q w hpv)
      · rw [show (G.writeBack p v t).owner u = _ from Function.update_of_ne hut ..]
    · intro hlq hs
      apply Function.update_of_ne
      intro heq
      exact hfree q w hpv (heq ▸ hG.owner_of_swap hlq hs)
  · intro u
    by_cases hut : u = t
    · rw [hut, show (G.writeBack p v t).owner t = _ from Function.update_self ..,
        show (G.writeBack p v t).stored t = _ from Function.update_self ..]
      exact iff_of_true rfl rfl
    · rw [show (G.writeBack p v t).owner u = _ from Function.update_of_ne hut ..,
        show (G.writeBack p v t).stored u = _ from Function.update_of_ne hut ..]
      exact hG.stored_iff u

theorem Valid.unmap (hG : G.Valid) (hrole : G.role f = .page p v)
    (hclean : (G.entry p v).dirty = 0) : (G.unmap f p v).Valid := by
  obtain ⟨hl, hval, hpfn⟩ := hG.valid_of_role hrole
  have hentry : (G.unmap f p v).entry p v = { G.entry p v with valid := 0 } := setEntry_self ..
  have hself := hG.page p v
  refine hG.of_page p v ?_ ?_ hG.stored_iff
  · refine ⟨hself.live_running, ?_, ?_, ?_, ?_, ?_, ?_, ?_⟩
    · intro _
      rw [hentry]
      exact .inl rfl
    · intro _
      rw [hentry]
      exact hself.dirty_bit hl
    · intro _ hvalid
      simp [hentry] at hvalid
    · intro g hg
      rw [show (G.unmap f p v).role g = _ from setRole_role ..] at hg
      split at hg
      · simp at hg
      · rename_i hgf
        exact absurd ((hself.valid_of_role g hg).2.2.symm.trans hpfn) hgf
    · intro _ _
      rw [backing, hentry]
      exact hself.backing_eq hl (.inr hclean)
    · intro _ hs
      rw [hentry] at hs ⊢
      exact hself.owner_of_swap hl hs
    · rw [hentry]
      exact hself.swap_of_owner
  · intro q w hpv
    refine ⟨Iff.rfl, fun _ => id, setEntry_other G _ hpv, rfl, ?_, fun _ => Iff.rfl,
      fun _ _ => rfl⟩
    exact setRole_page_iff (hrole ▸ page_ne hpv) (by simp)

theorem Valid.mapPage (hG : G.Valid) (hrole : G.role f = .free) (hl : G.live p v)
    (hval : (G.entry p v).valid = 0) : (G.mapPage f p v).Valid := by
  have hentry : (G.mapPage f p v).entry p v =
      { G.entry p v with pfn := f, valid := 1, dirty := 0 } := setEntry_self ..
  have hself := hG.page p v
  refine hG.of_page p v ?_ ?_ hG.stored_iff
  · refine ⟨hself.live_running, ?_, ?_, ?_, ?_, ?_, ?_, ?_⟩
    · intro _
      rw [hentry]
      exact .inr rfl
    · intro _
      rw [hentry]
      exact .inl rfl
    · intro _ _
      rw [hentry]
      exact Function.update_self ..
    · intro g hg
      rw [show (G.mapPage f p v).role g = _ from setRole_role ..] at hg
      rw [hentry]
      split at hg
      · rename_i hgf
        exact ⟨hl, rfl, hgf.symm⟩
      · have hone := (hself.valid_of_role g hg).2.1
        simp [hval] at hone
    · intro _ _
      rw [backing, hentry]
      exact hself.backing_eq hl (.inl hval)
    · intro _ hs
      rw [hentry] at hs ⊢
      exact hself.owner_of_swap hl hs
    · rw [hentry]
      exact hself.swap_of_owner
  · intro q w hpv
    refine ⟨Iff.rfl, fun _ => id, setEntry_other G _ hpv, rfl, ?_, fun _ => Iff.rfl,
      fun _ _ => rfl⟩
    exact setRole_page_iff (by simp [hrole]) (page_ne hpv)

theorem Valid.store (hG : G.Valid) (hval : (G.entry p v).valid = 1)
    (page : Page) : (G.store p v page).Valid := by
  have hentry : (G.store p v page).entry p v = { G.entry p v with dirty := 1 } := setEntry_self ..
  have hself := hG.page p v
  refine hG.of_page p v ?_ ?_ hG.stored_iff
  · refine ⟨hself.live_running, ?_, ?_, ?_, ?_, ?_, ?_, ?_⟩
    · rw [hentry]
      exact hself.valid_bit
    · intro _
      rw [hentry]
      exact .inr rfl
    · rw [hentry]
      exact hself.role_of_valid
    · rw [hentry]
      exact hself.valid_of_role
    · intro _ hclean
      simp [hentry, hval] at hclean
    · rw [hentry]
      exact hself.owner_of_swap
    · rw [hentry]
      exact hself.swap_of_owner
  · intro q w hpv
    exact ⟨Iff.rfl, fun _ => id, setEntry_other G _ hpv, update_update_of_ne _ _ hpv,
      fun _ => Iff.rfl, fun _ => Iff.rfl, fun _ _ => rfl⟩

theorem Valid.addTable (hG : G.Valid) (hrole : G.role f = .free) (hp : ¬ G.running p) :
    (G.addTable f p).Valid := by
  have hdead : ∀ w, ¬ G.live p w := fun w hw => hp (hG.live_running hw).1
  refine valid_of_pages ?_ hG.stored_iff
  intro q w
  by_cases hq : q = p
  · rw [hq]
    have hentry : (G.addTable f p).entry p w = {} := by
      show Function.update G.entry p (fun _ => {}) p w = {}
      rw [Function.update_self]
    have hlive : (G.addTable f p).live p w = (w < numPages) := if_pos rfl
    refine ⟨?_, ?_, ?_, ?_, ?_, ?_, ?_, ?_⟩
    · rw [hlive]
      exact fun hw => ⟨.inl rfl, hw⟩
    · rw [hentry]
      exact fun _ => .inl rfl
    · rw [hentry]
      exact fun _ => .inl rfl
    · intro _ hval
      simp [hentry] at hval
    · intro g hg
      rw [show (G.addTable f p).role g = _ from setRole_role ..] at hg
      split at hg
      · simp at hg
      · exact absurd (hG.valid_of_role hg).1 (hdead w)
    · intro _ _
      rw [backing, hentry]
      exact congrArg some
        (congrFun (Function.update_self p (fun _ => zeroPage) G.content) w).symm
    · intro _ hs
      simp [hentry] at hs
    · intro t ht
      exact absurd (hG.swap_of_owner ht).1 (hdead w)
  · refine (hG.page q w).of_same ⟨?_, fun _ => .inr, ?_, ?_, ?_, fun _ => Iff.rfl, fun _ _ => rfl⟩
    · show (if q = p then _ else _) ↔ _
      rw [if_neg hq]
    · exact congrFun (Function.update_of_ne hq ..) w
    · exact congrFun (Function.update_of_ne hq ..) w
    · exact setRole_page_iff (by simp [hrole]) (by simp)

/-- Token 0 marks a page without a swap entry. -/
theorem Valid.owner_zero (hG : G.Valid) {q w : Nat} : G.owner 0 ≠ some (q, w) :=
  fun h => (hG.swap_of_owner h).2.2 rfl

theorem forget_role (G : Layout) (p v g : Nat) : (G.forget p v).role g =
    if (G.entry p v).valid = 1 ∧ g = (G.entry p v).pfn then .free else G.role g := by
  rw [Layout.forget]
  by_cases hval : (G.entry p v).valid = 1
  · simp [hval, Function.update_apply]
  · simp [hval]

theorem Valid.forget (hG : G.Valid) (hl : G.live p v) : (G.forget p v).Valid := by
  have hself := hG.page p v
  refine hG.of_page p v ?_ ?_ ?_
  · have hdead : ¬ (G.forget p v).live p v := fun h => h.2 ⟨rfl, rfl⟩
    refine ⟨fun h => absurd h hdead, fun h => absurd h hdead, fun h => absurd h hdead,
      fun h => absurd h hdead, ?_, fun h => absurd h hdead, fun h => absurd h hdead, ?_⟩
    · intro g hg
      rw [forget_role] at hg
      split at hg
      · simp at hg
      · rename_i hne
        obtain ⟨-, hval, hpfn⟩ := hself.valid_of_role g hg
        exact absurd ⟨hval, hpfn.symm⟩ hne
    · intro t ht
      by_cases hts : t = (G.entry p v).swap
      · rw [hts, show (G.forget p v).owner _ = _ from Function.update_self ..] at ht
        simp at ht
      · rw [show (G.forget p v).owner t = _ from Function.update_of_ne hts ..] at ht
        exact absurd (hself.swap_of_owner t ht).2.1.symm hts
  · intro q w hpv
    refine ⟨and_iff_left hpv, fun _ => id, update_update_of_ne _ _ hpv, rfl, ?_, ?_, ?_⟩
    · intro g
      rw [forget_role]
      split
      · rename_i hg
        rw [hg.2, hself.role_of_valid hl hg.1]
        exact iff_of_false (by simp) (page_ne hpv)
      · rfl
    · intro t
      by_cases hts : t = (G.entry p v).swap
      · rw [hts, show (G.forget p v).owner _ = _ from Function.update_self ..]
        refine iff_of_false (by simp) ?_
        by_cases hs : (G.entry p v).swap = 0
        · rw [hs]
          exact hG.owner_zero
        · rw [hself.owner_of_swap hl hs]
          exact some_ne hpv
      · rw [show (G.forget p v).owner t = _ from Function.update_of_ne hts ..]
    · intro hlq hs
      apply Function.update_of_ne
      intro heq
      exact hpv (hG.swap_inj hlq hl hs heq)
  · intro t
    show (Function.update G.stored _ none t).isSome ↔ (Function.update G.owner _ none t).isSome
    by_cases hts : t = (G.entry p v).swap
    · rw [hts, Function.update_self, Function.update_self]
      exact iff_of_false (by simp) (by simp)
    · rw [Function.update_of_ne hts, Function.update_of_ne hts]
      exact hG.stored_iff t

/-- Page tables stay where they are while a page is cleaned up. -/
theorem Valid.forget_role_table (hG : G.Valid) (hl : G.live p v) {g q : Nat}
    (hg : G.role g = .table q) : (G.forget p v).role g = .table q := by
  simp only [Layout.forget]
  split
  · rename_i hval
    have hne : g ≠ (G.entry p v).pfn := by
      intro h
      have hrole := hG.role_of_valid hl hval
      rw [← h, hg] at hrole
      simp at hrole
    rwa [Function.update_of_ne hne]
  · exact hg

theorem Valid.releaseTable (hG : G.Valid) (hrole : G.role f = .table p)
    (hdead : ∀ w, ¬ G.live p w) : (G.releaseTable f p).Valid := by
  refine valid_of_pages ?_ hG.stored_iff
  intro q w
  refine (hG.page q w).of_same ⟨Iff.rfl, ?_, rfl, rfl, ?_, fun _ => Iff.rfl, fun _ _ => rfl⟩
  · intro hl hrun
    refine ⟨hrun, ?_⟩
    intro hqp
    exact hdead w (hqp ▸ hl)
  · exact setRole_page_iff (by simp [hrole]) (by simp)

end Layout

end ECE3056.Vm
