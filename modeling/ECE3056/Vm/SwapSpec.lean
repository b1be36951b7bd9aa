import ECE3056.Library.Fallible
import ECE3056.Library.LinkedList
import ECE3056.Vm.Swap
import Mathlib.Tactic

/-!
# What the swap operations do to the swap queue

`Represents q tokens` says that the heap cells, the links and the counters of `q`
are those of one list. Every operation keeps it, and acts on the stored pages as
an update of a finite map.
-/

namespace ECE3056.Vm

open ECE3056.LinkedList ECE3056.Fallible

namespace SwapQueue

/-- The successor link of a cell. -/
def nextOf (q : SwapQueue) (a : Nat) : Option Nat := (q.cells a).bind SwapInfo.next

/-- The page stored under a token. -/
def stored (q : SwapQueue) (token : Nat) : Option Page := (q.cells token).map SwapInfo.pageData

/-- The queue is the list of these tokens, oldest first. -/
structure Represents (q : SwapQueue) (tokens : List Nat) : Prop where
  chain : IsList q.nextOf q.head tokens
  last : q.tail = tokens.getLast?
  cell_iff : ∀ a, a ∈ tokens ↔ (q.cells a).isSome
  token_eq : ∀ a info, q.cells a = some info → info.token = a
  nodup : tokens.Nodup
  bound : ∀ a ∈ tokens, 0 < a ∧ a < q.TOKEN
  size_eq : q.size = tokens.length
  size_le : tokens.length ≤ q.sizeMax
  token_pos : 0 < q.TOKEN

theorem represents_empty : Represents empty [] where
  chain := rfl
  last := rfl
  cell_iff a := by simp [empty]
  token_eq a info h := by simp [empty] at h
  nodup := List.nodup_nil
  bound a h := by simp at h
  size_eq := rfl
  size_le := Nat.zero_le _
  token_pos := Nat.one_pos

variable {q : SwapQueue} {tokens : List Nat}

theorem deref_eq {a : Nat} {info : SwapInfo} (h : q.cells a = some info) :
    q.deref a = .ok info := by
  rw [deref, h]

theorem setNext_eq {a : Nat} {info : SwapInfo} (h : q.cells a = some info) (next : Option Nat) :
    q.setNext a next =
      .ok { q with cells := Function.update q.cells a (some { info with next := next }) } := by
  rw [setNext, deref_eq h]
  rfl

theorem setPageData_eq {a : Nat} {info : SwapInfo} (h : q.cells a = some info) (page : Page) :
    q.setPageData a page =
      .ok { q with cells := Function.update q.cells a (some { info with pageData := page }) } := by
  rw [setPageData, deref_eq h]
  rfl

theorem Represents.cell (hr : q.Represents tokens) {a : Nat} (ha : a ∈ tokens) :
    ∃ info, q.cells a = some info ∧ info.token = a := by
  obtain ⟨info, hinfo⟩ := Option.isSome_iff_exists.mp ((hr.cell_iff a).mp ha)
  exact ⟨info, hinfo, hr.token_eq a info hinfo⟩

theorem Represents.mem_iff_stored (hr : q.Represents tokens) (a : Nat) :
    a ∈ tokens ↔ (q.stored a).isSome := by
  rw [hr.cell_iff a, stored, Option.isSome_map]

/-- The cells fit below the next token, so the bound of the loops is never reached. -/
theorem Represents.length_le (hr : q.Represents tokens) : tokens.length ≤ q.TOKEN := by
  have hsub : tokens ⊆ List.range q.TOKEN := by
    intro a ha
    exact List.mem_range.mpr (hr.bound a ha).2
  have hle := (List.subperm_of_subset hr.nodup hsub).length_le
  rwa [List.length_range] at hle

theorem Represents.zero_notMem (hr : q.Represents tokens) : 0 ∉ tokens := by
  intro h
  exact absurd (hr.bound 0 h).1 (Nat.lt_irrefl 0)

theorem Represents.fresh (hr : q.Represents tokens) : q.TOKEN ∉ tokens := by
  intro h
  exact absurd (hr.bound _ h).2 (Nat.lt_irrefl _)

/-! ## swap_queue_find -/

theorem findLoop_eq (token : Nat) {fuel : Nat} {h : Option Nat} {cells : List Nat}
    (hl : IsList q.nextOf h cells) (hfuel : cells.length ≤ fuel)
    (hc : ∀ a ∈ cells, ∃ info, q.cells a = some info ∧ info.token = a) :
    findLoop q token fuel h = .ok (if token ∈ cells then some token else none) := by
  induction cells generalizing h fuel with
  | nil =>
    have hnull : h = none := hl
    subst hnull
    cases fuel <;> rfl
  | cons a cells ih =>
    obtain ⟨hh, htail⟩ := hl
    subst hh
    obtain ⟨fuel, rfl⟩ : ∃ n, fuel = n + 1 := ⟨fuel - 1, by simp at hfuel; omega⟩
    obtain ⟨info, hcell, htok⟩ := hc a (List.mem_cons_self ..)
    have hnext : q.nextOf a = info.next := by rw [nextOf, hcell, Option.bind_some]
    rw [hnext] at htail
    rw [findLoop, deref_eq hcell]
    show (if info.token = token then _ else _) = _
    by_cases ht : a = token
    · subst ht
      rw [if_pos htok, if_pos (List.mem_cons_self ..)]
      rfl
    · rw [if_neg (by rw [htok]; exact ht)]
      have hrest := ih htail (by simpa using hfuel) fun b hb => hc b (List.mem_cons_of_mem a hb)
      rw [hrest]
      simp [List.mem_cons, Ne.symm ht]

theorem Represents.find_eq (hr : q.Represents tokens) (token : Nat) :
    swapQueueFind q token = .ok (if token ∈ tokens then some token else none) :=
  findLoop_eq token hr.chain hr.length_le fun _ ha => hr.cell ha

/-! ## swap_queue_enqueue -/

theorem nextOf_update_next {a : Nat} {info : SwapInfo} (next : Option Nat) :
    nextOf { q with cells := Function.update q.cells a (some { info with next := next }) } =
      Function.update q.nextOf a next := by
  funext b
  by_cases hb : b = a
  · subst hb
    simp [nextOf]
  · simp [nextOf, Function.update_of_ne hb]

theorem nextOf_update_page {a : Nat} {info : SwapInfo} (hc : q.cells a = some info)
    (page : Page) :
    nextOf { q with cells := Function.update q.cells a (some { info with pageData := page }) } =
      q.nextOf := by
  funext b
  by_cases hb : b = a
  · subst hb
    simp [nextOf, hc]
  · simp [nextOf, Function.update_of_ne hb]

/-- What a cell holds besides its link. -/
def payload (q : SwapQueue) (a : Nat) : Option (Nat × Page) :=
  (q.cells a).map fun info => (info.token, info.pageData)

theorem payload_update_next {a : Nat} {info : SwapInfo} (hc : q.cells a = some info)
    (next : Option Nat) :
    payload { q with cells := Function.update q.cells a (some { info with next := next }) } =
      q.payload := by
  funext b
  by_cases hb : b = a
  · subst hb
    simp [payload, hc]
  · simp [payload, Function.update_of_ne hb]

theorem stored_eq_payload (q : SwapQueue) (a : Nat) : q.stored a = (q.payload a).map Prod.snd := by
  simp [stored, payload, Function.comp_def]

theorem cells_isSome (q : SwapQueue) (a : Nat) : (q.cells a).isSome = (q.payload a).isSome := by
  rw [payload, Option.isSome_map]

theorem Represents.payload_token (hr : q.Represents tokens) {a token : Nat} {page : Page}
    (h : q.payload a = some (token, page)) : token = a := by
  obtain ⟨info, hcell, hval⟩ := Option.map_eq_some_iff.mp h
  exact (congrArg Prod.fst hval).symm.trans (hr.token_eq a info hcell)

/-- The links do not matter for what the cells hold. -/
theorem represents_of_payload (chain : IsList q.nextOf q.head tokens)
    (last : q.tail = tokens.getLast?) (hmem : ∀ a, a ∈ tokens ↔ (q.payload a).isSome)
    (htoken : ∀ a token page, q.payload a = some (token, page) → token = a)
    (nodup : tokens.Nodup) (bound : ∀ a ∈ tokens, 0 < a ∧ a < q.TOKEN)
    (size_eq : q.size = tokens.length) (size_le : tokens.length ≤ q.sizeMax)
    (token_pos : 0 < q.TOKEN) : q.Represents tokens := by
  refine ⟨chain, last, ?_, ?_, nodup, bound, size_eq, size_le, token_pos⟩
  · intro a
    rw [hmem a, cells_isSome]
  · intro a info hcell
    apply htoken a info.token info.pageData
    rw [payload, hcell]
    rfl

/-- Enqueueing an allocated cell links it behind the last one and counts it; only links
of cells change. -/
theorem enqueue_spec {a : Nat} {info : SwapInfo} (hl : IsList q.nextOf q.head tokens)
    (hlast : q.tail = tokens.getLast?) (hnodup : tokens.Nodup)
    (halloc : ∀ b ∈ tokens, (q.cells b).isSome) (ha : a ∉ tokens) (hc : q.cells a = some info) :
    ∃ q', swapQueueEnqueue q a = .ok q' ∧ IsList q'.nextOf q'.head (tokens ++ [a]) ∧
      q'.tail = some a ∧ q'.size = q.size + 1 ∧ q'.sizeMax = max q.sizeMax (q.size + 1) ∧
      q'.TOKEN = q.TOKEN ∧ q'.payload = q.payload := by
  have hmax : ∀ m n : Nat, (if n > m then n else m) = max m n := by
    intro m n
    rw [max_def]
    split <;> split <;> omega
  -- the queue after `info->next = NULL`
  let q₁ : SwapQueue :=
    { q with cells := Function.update q.cells a (some { info with next := none }) }
  have hset : q.setNext a none = .ok q₁ := setNext_eq hc none
  have hnext₁ : q₁.nextOf = Function.update q.nextOf a none := nextOf_update_next none
  have hpay₁ : q₁.payload = q.payload := payload_update_next hc none
  have hl₁ : IsList q₁.nextOf q.head tokens := by
    rw [hnext₁]
    exact hl.update_of_notMem ha none
  rcases List.eq_nil_or_concat tokens with rfl | ⟨pre, t, rfl⟩
  · have hhead : q.head = none := hl
    refine ⟨{ q₁ with
      head := some a, tail := some a, size := q.size + 1
      sizeMax := if q.size + 1 > q.sizeMax then q.size + 1 else q.sizeMax },
      ?_, ?_, rfl, rfl, hmax _ _, rfl, hpay₁⟩
    · have hhead₁ : q₁.head = none := hhead
      simp only [swapQueueEnqueue, hset, hhead₁, ok_bind, pure_eq_ok]
      rfl
    · show IsList q₁.nextOf (some a) [a]
      rw [hnext₁]
      exact ⟨rfl, Function.update_self ..⟩
  · rw [List.concat_eq_append] at *
    obtain ⟨tinfo, ht⟩ := Option.isSome_iff_exists.mp (halloc t (by simp))
    have hta : t ≠ a := fun h => ha (by simp [h])
    have ht₁ : q₁.cells t = some tinfo := by
      show Function.update _ _ _ _ = _
      rw [Function.update_of_ne hta, ht]
    have hhead : q.head = (pre ++ [t]).head? := hl.head_eq
    have htail : q.tail = some t := by rw [hlast, List.getLast?_concat]
    -- the queue after `queue->tail->next = info`
    let q₂ : SwapQueue :=
      { q₁ with cells := Function.update q₁.cells t (some { tinfo with next := some a }) }
    have hset₂ : q₁.setNext t (some a) = .ok q₂ := setNext_eq ht₁ (some a)
    have hnext₂ : q₂.nextOf = Function.update q₁.nextOf t (some a) := nextOf_update_next (some a)
    have hpay₂ : q₂.payload = q.payload := (payload_update_next ht₁ (some a)).trans hpay₁
    refine ⟨{ q₂ with
      tail := some a, size := q.size + 1
      sizeMax := if q.size + 1 > q.sizeMax then q.size + 1 else q.sizeMax },
      ?_, ?_, rfl, rfl, hmax _ _, rfl, hpay₂⟩
    · obtain ⟨first, hfirst⟩ : ∃ first, q₁.head = some first := by
        cases pre with
        | nil => exact ⟨t, hhead⟩
        | cons x pre => exact ⟨x, hhead⟩
      have htail₁ : q₁.tail = some t := htail
      simp only [swapQueueEnqueue, hset, hset₂, hfirst, htail₁, ok_bind, pure_eq_ok]
      rfl
    · show IsList q₂.nextOf q.head ((pre ++ [t]) ++ [a])
      rw [hnext₂]
      apply hl₁.append_last
      · intro ht
        exact (List.nodup_append.mp hnodup).2.2 t ht t (by simp) rfl
      · exact ha
      · rw [hnext₁]
        exact Function.update_self ..

/-! ## swap_read and swap_write -/

theorem Represents.swapRead_eq (hr : q.Represents tokens) {pte : Pte} {page : Page}
    (hp : q.stored pte.swap = some page) : swapRead q pte = .ok page := by
  have hm : pte.swap ∈ tokens := (hr.mem_iff_stored _).mpr (by rw [hp]; rfl)
  obtain ⟨info, hcell, -⟩ := hr.cell hm
  have hpage : info.pageData = page := by
    rw [stored, hcell] at hp
    exact Option.some_inj.mp hp
  rw [swapRead, hr.find_eq, if_pos hm]
  simp [deref_eq hcell, hpage]

/-- `swap_read` depends on the queue through the stored page alone. -/
theorem Represents.swapRead_congr {q' : SwapQueue} {tokens' : List Nat} (hr : q.Represents tokens)
    (hr' : q'.Represents tokens') {pte : Pte} (hs : q'.stored pte.swap = q.stored pte.swap) :
    swapRead q' pte = swapRead q pte := by
  cases hp : q.stored pte.swap with
  | some page => rw [hr.swapRead_eq hp, hr'.swapRead_eq (hs.trans hp)]
  | none =>
    have hm : pte.swap ∉ tokens := by rw [hr.mem_iff_stored, hp]; simp
    have hm' : pte.swap ∉ tokens' := by rw [hr'.mem_iff_stored, hs, hp]; simp
    rw [swapRead, swapRead, hr.find_eq, hr'.find_eq, if_neg hm, if_neg hm']
    rfl

theorem stored_update_page {a : Nat} {info : SwapInfo} (page : Page) :
    stored { q with cells := Function.update q.cells a (some { info with pageData := page }) } =
      Function.update q.stored a (some page) := by
  funext b
  by_cases hb : b = a
  · subst hb
    simp [stored]
  · simp [stored, Function.update_of_ne hb]

theorem Represents.update_page (hr : q.Represents tokens) {a : Nat} {info : SwapInfo}
    (hc : q.cells a = some info) (page : Page) :
    Represents { q with cells := Function.update q.cells a (some { info with pageData := page }) }
      tokens where
  chain := by
    show IsList (nextOf _) q.head tokens
    rw [nextOf_update_page hc page]
    exact hr.chain
  last := hr.last
  cell_iff b := by
    rw [hr.cell_iff b]
    by_cases hb : b = a
    · subst hb
      simp [hc]
    · simp [Function.update_of_ne hb]
  token_eq b binfo h := by
    by_cases hb : b = a
    · subst hb
      simp only [Function.update_self, Option.some.injEq] at h
      subst h
      exact hr.token_eq b info hc
    · simp only [Function.update_of_ne hb] at h
      exact hr.token_eq b binfo h
  nodup := hr.nodup
  bound := hr.bound
  size_eq := hr.size_eq
  size_le := hr.size_le
  token_pos := hr.token_pos

/-- Writing a page that already has an entry overwrites the stored page. -/
theorem Represents.swapWrite_existing (hr : q.Represents tokens) {pte : Pte}
    (hm : pte.swap ∈ tokens) (src : Page) :
    ∃ q', swapWrite q pte src = .ok (pte, q') ∧ q'.Represents tokens ∧
      q'.stored = Function.update q.stored pte.swap (some src) ∧ q'.sizeMax = q.sizeMax ∧
      q'.TOKEN = q.TOKEN := by
  obtain ⟨info, hcell, -⟩ := hr.cell hm
  refine ⟨_, ?_, hr.update_page hcell src, stored_update_page src, rfl, rfl⟩
  rw [swapWrite, hr.find_eq, if_pos hm]
  simp [setPageData_eq hcell]

/-- A created entry is enqueued under a token never used before. -/
theorem Represents.enqueue_created (hr : q.Represents tokens) :
    ∃ q₁, swapQueueEnqueue (createEntry q).2 q.TOKEN = .ok q₁ ∧
      q₁.Represents (tokens ++ [q.TOKEN]) ∧
      q₁.payload = Function.update q.payload q.TOKEN (some (q.TOKEN, zeroPage)) ∧
      q₁.sizeMax = max q.sizeMax (tokens.length + 1) ∧ q₁.TOKEN = q.TOKEN + 1 := by
  let created : SwapQueue := (createEntry q).2
  have hcell : created.cells q.TOKEN = some ⟨q.TOKEN, zeroPage, none⟩ := Function.update_self ..
  have hother : ∀ b, b ≠ q.TOKEN → created.cells b = q.cells b := fun b hb =>
    Function.update_of_ne hb ..
  have hold : ∀ b ∈ tokens, b ≠ q.TOKEN := fun b hb => Nat.ne_of_lt (hr.bound b hb).2
  have hchain : IsList created.nextOf created.head tokens := by
    apply hr.chain.congr
    intro b hb
    rw [nextOf, hother b (hold b hb), nextOf]
  have halloc : ∀ b ∈ tokens, (created.cells b).isSome := by
    intro b hb
    rw [hother b (hold b hb)]
    exact (hr.cell_iff b).mp hb
  obtain ⟨q₁, henq, hl, htail, hsize, hmax, htok, hpay⟩ :=
    enqueue_spec hchain hr.last hr.nodup halloc hr.fresh hcell
  have hpayload : q₁.payload = Function.update q.payload q.TOKEN (some (q.TOKEN, zeroPage)) := by
    rw [hpay]
    funext b
    by_cases hb : b = q.TOKEN
    · rw [hb, Function.update_self, payload, hcell]
      rfl
    · rw [Function.update_of_ne hb, payload, hother b hb, payload]
  have hlength : q₁.sizeMax = max q.sizeMax (tokens.length + 1) := by
    rw [hmax, ← hr.size_eq]
    rfl
  refine ⟨q₁, henq, represents_of_payload hl ?_ ?_ ?_ ?_ ?_ ?_ ?_ ?_, hpayload, hlength, htok⟩
  · rw [htail, List.getLast?_concat]
  · intro b
    rw [hpayload, List.mem_append, List.mem_singleton]
    by_cases hb : b = q.TOKEN
    · rw [hb, Function.update_self]
      simp
    · rw [Function.update_of_ne hb, ← cells_isSome, ← hr.cell_iff b]
      simp [hb]
  · intro b token page hb
    rw [hpayload] at hb
    by_cases hbt : b = q.TOKEN
    · rw [hbt, Function.update_self] at hb
      rw [hbt]
      exact (congrArg Prod.fst (Option.some_inj.mp hb)).symm
    · rw [Function.update_of_ne hbt] at hb
      exact hr.payload_token hb
  · refine List.nodup_append.mpr ⟨hr.nodup, List.nodup_singleton _, ?_⟩
    intro b hb c hc
    rw [List.mem_singleton.mp hc]
    exact hold b hb
  · intro b hb
    rw [htok]
    show 0 < b ∧ b < q.TOKEN + 1
    rcases List.mem_append.mp hb with hb | hb
    · have := hr.bound b hb
      omega
    · rw [List.mem_singleton.mp hb]
      exact ⟨hr.token_pos, Nat.lt_succ_self _⟩
  · rw [hsize, List.length_append, List.length_singleton, ← hr.size_eq]
    rfl
  · rw [hlength, List.length_append, List.length_singleton]
    exact Nat.le_max_right _ _
  · rw [htok]
    exact Nat.succ_pos _

/-- Writing a page without an entry creates one. -/
theorem Represents.swapWrite_new (hr : q.Represents tokens) (pte : Pte)
    (hm : pte.swap ∉ tokens) (src : Page) :
    ∃ q', swapWrite q pte src = .ok ({ pte with swap := q.TOKEN }, q') ∧
      q'.Represents (tokens ++ [q.TOKEN]) ∧
      q'.stored = Function.update q.stored q.TOKEN (some src) ∧
      q'.sizeMax = max q.sizeMax (tokens.length + 1) ∧ q'.TOKEN = q.TOKEN + 1 := by
  obtain ⟨q₁, henq, hr₁, hpay, hmax, htok⟩ := hr.enqueue_created
  obtain ⟨info, hinfo, htoken⟩ := hr₁.cell (show q.TOKEN ∈ tokens ++ [q.TOKEN] by simp)
  refine ⟨_, ?_, hr₁.update_page hinfo src, ?_, hmax, htok⟩
  · rw [swapWrite, hr.find_eq, if_neg hm]
    obtain ⟨created, hcreate⟩ : ∃ created, createEntry q = (q.TOKEN, created) := ⟨_, rfl⟩
    rw [hcreate] at henq
    simp [hcreate, henq, deref_eq hinfo, setPageData_eq hinfo, htoken]
  · rw [stored_update_page]
    funext b
    by_cases hb : b = q.TOKEN
    · rw [hb, Function.update_self, Function.update_self]
    · rw [Function.update_of_ne hb, Function.update_of_ne hb, stored_eq_payload, hpay,
        Function.update_of_ne hb, stored_eq_payload]

/-! ## swap_queue_dequeue and swap_free -/

/-- The loop walks past the cells before the token and unlinks behind the last of them. -/
theorem dequeueLoop_eq {token : Nat} {fuel : Nat} {h prev : Option Nat} {mid post : List Nat}
    (hl : IsList q.nextOf h (mid ++ token :: post)) (hfuel : mid.length < fuel)
    (hmid : token ∉ mid)
    (hc : ∀ a ∈ mid ++ [token], ∃ info, q.cells a = some info ∧ info.token = a) :
    dequeueLoop q token fuel prev h =
      (do return (← unlink q (mid.getLast?.or prev) token post.head?, some token)) := by
  induction mid generalizing h prev fuel with
  | nil =>
    obtain ⟨fuel, rfl⟩ : ∃ n, fuel = n + 1 := ⟨fuel - 1, by omega⟩
    obtain ⟨info, hcell, htok⟩ := hc token (by simp)
    have hh : h = some token := hl.1
    have hnext : info.next = post.head? := by
      have htail := IsList.head_eq hl.2
      rwa [nextOf, hcell, Option.bind_some] at htail
    subst hh
    rw [dequeueLoop, deref_eq hcell, ok_bind, if_pos htok, hnext]
    rfl
  | cons a mid ih =>
    obtain ⟨fuel, rfl⟩ : ∃ n, fuel = n + 1 := ⟨fuel - 1, by omega⟩
    obtain ⟨info, hcell, htok⟩ := hc a (by simp)
    have hh : h = some a := hl.1
    have hne : info.token ≠ token := by
      intro heq
      exact hmid (by rw [← heq, htok]; exact List.mem_cons_self ..)
    have hrest : IsList q.nextOf info.next (mid ++ token :: post) := by
      have htail := hl.2
      rwa [nextOf, hcell, Option.bind_some] at htail
    subst hh
    rw [dequeueLoop, deref_eq hcell, ok_bind, if_neg hne,
      ih hrest (by simpa using hfuel) (fun hm => hmid (List.mem_cons_of_mem a hm))
        fun b hb => hc b (by simp at hb ⊢; tauto)]
    rw [List.getLast?_cons]
    cases mid.getLast? <;> rfl

/-- Unlinking the cell behind `pre` leaves the list without it; only links change. -/
theorem Represents.unlink_spec {token : Nat} {pre post : List Nat}
    (hr : q.Represents (pre ++ token :: post)) :
    ∃ q', unlink q pre.getLast? token post.head? = .ok q' ∧
      IsList q'.nextOf q'.head (pre ++ post) ∧ q'.tail = (pre ++ post).getLast? ∧
      q'.payload = q.payload ∧ q'.size = q.size ∧ q'.sizeMax = q.sizeMax ∧
      q'.TOKEN = q.TOKEN := by
  obtain ⟨hpre, htp, hdisj⟩ := List.nodup_append.mp hr.nodup
  obtain ⟨htpost, hpost⟩ := List.nodup_cons.mp htp
  have hprev : ∀ b ∈ pre, b ≠ token ∧ b ∉ post := fun b hb =>
    ⟨hdisj b hb token (by simp), fun hbp => hdisj b hb b (by simp [hbp]) rfl⟩
  have htail : (if some token = q.tail then pre.getLast? else q.tail) =
      (pre ++ post).getLast? := by
    rw [hr.last]
    cases hp : post.getLast? with
    | none =>
      have hnil : post = [] := List.getLast?_eq_none_iff.mp hp
      subst hnil
      simp
    | some l =>
      have hl : (pre ++ token :: post).getLast? = some l := by
        rw [List.getLast?_append, List.getLast?_cons, hp]
        rfl
      have hne : token ≠ l := fun h => htpost (h ▸ List.mem_of_getLast? hp)
      rw [hl, if_neg (by simpa using hne), List.getLast?_append, hp]
      rfl
  rcases List.eq_nil_or_concat pre with rfl | ⟨pre', p, rfl⟩
  · refine ⟨{ q with
      head := post.head?
      tail := if some token = q.tail then none else q.tail }, rfl, ?_, htail, rfl, rfl, rfl, rfl⟩
    have htl : IsList q.nextOf (q.nextOf token) post := hr.chain.tail
    have hhead := htl.head_eq
    rwa [hhead] at htl
  · rw [List.concat_eq_append] at *
    obtain ⟨info, hcell, -⟩ := hr.cell (show p ∈ pre' ++ [p] ++ token :: post by simp)
    have hnext : q.nextOf token = post.head? := hr.chain.next_eq
    -- the queue after `prev->next = curr->next`
    let q₁ : SwapQueue :=
      { q with cells := Function.update q.cells p (some { info with next := post.head? }) }
    have hnext₁ : q₁.nextOf = Function.update q.nextOf p (q.nextOf token) := by
      rw [hnext]
      exact nextOf_update_next post.head?
    refine ⟨{ q₁ with tail := if some token = q.tail then (pre' ++ [p]).getLast? else q.tail },
      ?_, ?_, htail, payload_update_next hcell post.head?, rfl, rfl, rfl⟩
    · rw [List.getLast?_concat, unlink]
      simp only [setNext_eq hcell, ok_bind, pure_eq_ok]
      rfl
    · show IsList q₁.nextOf q.head ((pre' ++ [p]) ++ post)
      have hchain : IsList q.nextOf q.head (pre' ++ p :: token :: post) := by
        simpa using hr.chain
      rw [hnext₁, List.append_assoc]
      apply hchain.unlink
      · intro hp
        exact (List.nodup_append.mp hpre).2.2 p hp p (by simp) rfl
      · exact (hprev p (by simp)).2

/-- Dequeueing a token of the list removes and frees its cell. -/
theorem Represents.dequeue_spec {token : Nat} {pre post : List Nat}
    (hr : q.Represents (pre ++ token :: post)) :
    ∃ q', swapQueueDequeue q token = .ok q' ∧ q'.Represents (pre ++ post) ∧
      q'.stored = Function.update q.stored token none ∧ q'.sizeMax = q.sizeMax ∧
      q'.TOKEN = q.TOKEN := by
  obtain ⟨hmem, hnodup⟩ := List.nodup_cons.mp (List.nodup_middle.mp hr.nodup)
  have hperm : ∀ a, a ∈ pre ++ token :: post ↔ a = token ∨ a ∈ pre ++ post := by
    intro a
    rw [List.perm_middle.mem_iff, List.mem_cons]
  obtain ⟨q₁, hunlink, hl, hlast, hpay, hsize, hmax, htok⟩ := hr.unlink_spec
  have hloop : dequeueLoop q token q.TOKEN none q.head = .ok (q₁, some token) := by
    rw [dequeueLoop_eq hr.chain _ _ fun a ha => hr.cell (by simp at ha ⊢; tauto)]
    · rw [Option.or_none, hunlink]
      rfl
    · have hle := hr.length_le
      simp only [List.length_append, List.length_cons] at hle
      omega
    · exact fun h => hmem (List.mem_append_left _ h)
  obtain ⟨info, hcell⟩ : ∃ info, q₁.cells token = some info := by
    apply Option.isSome_iff_exists.mp
    rw [cells_isSome, hpay, ← cells_isSome, ← hr.cell_iff, hperm]
    exact .inl rfl
  let q₂ : SwapQueue := { q₁ with size := q₁.size - 1 }
  let q₃ : SwapQueue := { q₂ with cells := Function.update q₁.cells token none }
  have hrun : swapQueueDequeue q token = .ok q₃ := by
    have hcell₂ : q₂.cells token = some info := hcell
    simp only [swapQueueDequeue, hloop, ok_bind]
    show (q₂.setNext token none >>= _) = _
    rw [setNext_eq hcell₂, ok_bind, Function.update_idem]
    rfl
  have hpayload : q₃.payload = Function.update q.payload token none := by
    rw [← hpay]
    funext b
    by_cases hb : b = token
    · rw [hb, Function.update_self, payload, show q₃.cells token = _ from Function.update_self ..]
      rfl
    · rw [Function.update_of_ne hb, payload, show q₃.cells b = _ from Function.update_of_ne hb ..,
        payload]
  have hlen := hr.size_eq
  have hle := hr.size_le
  rw [List.perm_middle.length_eq, List.length_cons] at hlen hle
  refine ⟨q₃, hrun, represents_of_payload ?_ hlast ?_ ?_ hnodup ?_ ?_ ?_ (htok ▸ hr.token_pos),
    ?_, hmax, htok⟩
  · apply IsList.congr hl
    intro b hb
    have hne : b ≠ token := fun h => hmem (h ▸ hb)
    rw [nextOf, show q₃.cells b = _ from Function.update_of_ne hne .., nextOf]
  · intro b
    rw [hpayload]
    by_cases hb : b = token
    · rw [hb, Function.update_self]
      exact iff_of_false hmem (by simp)
    · rw [Function.update_of_ne hb, ← cells_isSome, ← hr.cell_iff, hperm]
      simp [hb]
  · intro b t page hb
    rw [hpayload] at hb
    by_cases hbt : b = token
    · rw [hbt, Function.update_self] at hb
      simp at hb
    · rw [Function.update_of_ne hbt] at hb
      exact hr.payload_token hb
  · intro b hb
    show 0 < b ∧ b < q₁.TOKEN
    rw [htok]
    exact hr.bound b ((hperm b).mpr (.inr hb))
  · show q₁.size - 1 = _
    omega
  · show _ ≤ q₁.sizeMax
    omega
  · funext b
    rw [stored_eq_payload, hpayload]
    by_cases hb : b = token
    · rw [hb, Function.update_self, Function.update_self]
      rfl
    · rw [Function.update_of_ne hb, Function.update_of_ne hb, stored_eq_payload]

/-- Freeing the entry of a page removes it from the list. -/
theorem Represents.swapFree_spec (hr : q.Represents tokens) {pte : Pte} (hm : pte.swap ∈ tokens) :
    ∃ q', swapFree q pte = .ok ({ pte with swap := 0 }, q') ∧
      q'.Represents (tokens.erase pte.swap) ∧
      q'.stored = Function.update q.stored pte.swap none ∧ q'.sizeMax = q.sizeMax ∧
      q'.TOKEN = q.TOKEN := by
  obtain ⟨pre, post, hpre, heq, herase⟩ := List.exists_erase_eq hm
  obtain ⟨q', hdeq, hr', hstored, hcounters⟩ := (heq ▸ hr).dequeue_spec
  refine ⟨q', ?_, herase ▸ hr', hstored, hcounters⟩
  rw [swapFree, hr.find_eq, if_pos hm]
  simp [hdeq]

end SwapQueue

end ECE3056.Vm
