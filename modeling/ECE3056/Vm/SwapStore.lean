import ECE3056.Vm.SwapSpec

/-!
# The swap queue is a faithful store

Any number of page table entries share the swap queue. `swap_write` gives an entry a
token if it has none, `swap_free` takes the token back, and in between the entry reads
the page last written for it, whatever happens to the others. The list holds the tokens
in the order of their creation, wherever in it one is removed.
-/

namespace ECE3056.Vm

open ECE3056.Fallible

variable {ι : Type} [DecidableEq ι]

/-- A call of `swap_read`, `swap_write` or `swap_free` for the page table entry `i`. -/
inductive SwapCall (ι : Type)
  | read (i : ι)
  | write (i : ι) (src : Page)
  | free (i : ι)

/-- The page table entry that a call is for. -/
def SwapCall.target : SwapCall ι → ι
  | read i | write i _ | free i => i

/-- The swap queue and the page table entries that share it. -/
structure SwapStore (ι : Type) where
  queue : SwapQueue
  pte : ι → Pte

namespace SwapStore

def call (s : SwapStore ι) : SwapCall ι → Except Fault (SwapStore ι)
  | .read i => do
    let _ ← swapRead s.queue (s.pte i)
    return s
  | .write i src => do
    let (pte, queue) ← swapWrite s.queue (s.pte i) src
    return ⟨queue, Function.update s.pte i pte⟩
  | .free i => do
    let (pte, queue) ← swapFree s.queue (s.pte i)
    return ⟨queue, Function.update s.pte i pte⟩

/-- Only an entry that holds a token is read or freed. -/
def Allows (s : SwapStore ι) : SwapCall ι → Prop
  | .read i | .free i => (s.pte i).swap ≠ 0
  | .write .. => True

/-- The calls made so far, latest first, and what they have led to. -/
inductive Reached : List (SwapCall ι) → SwapStore ι → Prop
  | start {pte : ι → Pte} : (∀ i, (pte i).swap = 0) → Reached [] ⟨.empty, pte⟩
  | call {past c s s'} : Reached past s → s.Allows c → s.call c = .ok s' → Reached (c :: past) s'

end SwapStore

/-! ## What the calls ask for -/

/-- The page last written for an entry that has not been freed since. -/
def lastPage : List (SwapCall ι) → ι → Option Page
  | [], _ => none
  | .read _ :: past, i => lastPage past i
  | .write j src :: past, i => if i = j then some src else lastPage past i
  | .free j :: past, i => if i = j then none else lastPage past i

/-- The entries that hold a token, in the order in which their tokens were created. -/
def holders : List (SwapCall ι) → List ι
  | [] => []
  | .read _ :: past => holders past
  | .write i _ :: past => if i ∈ holders past then holders past else holders past ++ [i]
  | .free i :: past => (holders past).erase i

/-- The number of swap entries created. -/
def entriesCreated : List (SwapCall ι) → Nat
  | [] => 0
  | .read _ :: past | .free _ :: past => entriesCreated past
  | .write i _ :: past => if i ∈ holders past then entriesCreated past else entriesCreated past + 1

theorem holders_nodup (past : List (SwapCall ι)) : (holders past).Nodup := by
  induction past with
  | nil => exact List.nodup_nil
  | cons c past ih =>
    cases c with
    | read i => exact ih
    | write i src =>
      rw [holders]
      split_ifs with hi
      · exact ih
      · exact List.nodup_append.mpr ⟨ih, List.nodup_singleton i, by
          intro a ha b hb hab
          rw [hab, List.mem_singleton.mp hb] at ha
          exact hi ha⟩
    | free i => exact ih.erase i

theorem mem_holders_iff (past : List (SwapCall ι)) (i : ι) :
    i ∈ holders past ↔ (lastPage past i).isSome := by
  induction past with
  | nil => simp [holders, lastPage]
  | cons c past ih =>
    cases c with
    | read j => exact ih
    | write j src =>
      rw [holders, lastPage]
      by_cases hij : i = j
      · rw [if_pos hij, hij]
        split_ifs with hj <;> simp [hj]
      · rw [if_neg hij, ← ih]
        split_ifs <;> simp [hij]
    | free j =>
      rw [holders, lastPage, (holders_nodup past).mem_erase_iff]
      by_cases hij : i = j
      · simp [hij]
      · rw [if_neg hij, ← ih, and_iff_right hij]

/-! ## The store is faithful -/

namespace SwapStore

/-- The tokens of some entries. -/
def tokens (s : SwapStore ι) (l : List ι) : List Nat := l.map fun i => (s.pte i).swap

/-- The queue is the list of the tokens, in the order of their creation, and stores for each
entry the page last written. -/
structure Faithful (past : List (SwapCall ι)) (s : SwapStore ι) : Prop where
  list : s.queue.Represents (s.tokens (holders past))
  increasing : (s.tokens (holders past)).Pairwise (· < ·)
  holds_iff : ∀ i, (s.pte i).swap ≠ 0 ↔ i ∈ holders past
  page : ∀ i ∈ holders past, s.queue.stored (s.pte i).swap = lastPage past i
  created : s.queue.TOKEN = entriesCreated past + 1
  sizeMax_le : s.queue.sizeMax ≤ entriesCreated past

/-- Every other entry is left alone and reads back what it did before. -/
def Frame (s s' : SwapStore ι) (i : ι) : Prop :=
  ∀ j, j ≠ i → s'.pte j = s.pte j ∧ swapRead s'.queue (s'.pte j) = swapRead s.queue (s.pte j)

omit [DecidableEq ι] in
theorem token_mem (s : SwapStore ι) {l : List ι} {i : ι} (hi : i ∈ l) :
    (s.pte i).swap ∈ s.tokens l :=
  List.mem_map.mpr ⟨i, hi, rfl⟩

theorem tokens_update_of_notMem {s : SwapStore ι} {l : List ι} {i : ι} (hi : i ∉ l)
    (queue : SwapQueue) (pte : Pte) :
    tokens ⟨queue, Function.update s.pte i pte⟩ l = s.tokens l := by
  refine List.map_congr_left fun j hj => ?_
  have hji : j ≠ i := fun h => hi (h ▸ hj)
  exact congrArg Pte.swap (Function.update_of_ne hji ..)

theorem tokens_erase {s : SwapStore ι} {l : List ι} (hnodup : (s.tokens l).Nodup) {i : ι}
    (hi : i ∈ l) : (s.tokens l).erase (s.pte i).swap = s.tokens (l.erase i) := by
  induction l with
  | nil => simp at hi
  | cons j l ih =>
    obtain ⟨hj, hl⟩ := List.nodup_cons.mp hnodup
    by_cases hji : j = i
    · rw [hji, List.erase_cons_head]
      exact List.erase_cons_head ..
    · have hil : i ∈ l := List.mem_of_ne_of_mem (Ne.symm hji) hi
      have hne : (s.pte j).swap ≠ (s.pte i).swap := by
        intro heq
        exact hj (List.mem_map.mpr ⟨i, hil, heq.symm⟩)
      rw [List.erase_cons_tail (by simpa using hji)]
      show ((s.pte j).swap :: s.tokens l).erase _ = (s.pte j).swap :: s.tokens (l.erase i)
      rw [List.erase_cons_tail (by simpa using hne), ih hl hil]

namespace Faithful

variable {past : List (SwapCall ι)} {s : SwapStore ι} {i j : ι}

/-- No two entries hold the same token. -/
theorem token_ne (h : Faithful past s) (hi : i ∈ holders past) (hji : j ≠ i) :
    (s.pte j).swap ≠ (s.pte i).swap := by
  intro heq
  have hj : j ∈ holders past := by
    rw [← h.holds_iff, heq, h.holds_iff]
    exact hi
  exact hji (List.inj_on_of_nodup_map h.list.nodup hj hi heq)

/-- Tokens still to be created are held by no entry. -/
theorem token_lt (h : Faithful past s) (i : ι) : (s.pte i).swap < s.queue.TOKEN := by
  by_cases hi : i ∈ holders past
  · exact (h.list.bound _ (s.token_mem hi)).2
  · rw [← h.holds_iff, not_not] at hi
    rw [hi]
    exact h.list.token_pos

/-- A call that changes no page but that of one token, which no other entry holds. -/
theorem frame (h : Faithful past s) {s' : SwapStore ι} {l : List Nat} {t : Nat} {p : Option Page}
    (hlist : s'.queue.Represents l) (hstored : s'.queue.stored = Function.update s.queue.stored t p)
    (hpte : ∀ j, j ≠ i → s'.pte j = s.pte j) (ht : ∀ j, j ≠ i → (s.pte j).swap ≠ t) :
    s.Frame s' i := by
  intro j hji
  refine ⟨hpte j hji, ?_⟩
  rw [hpte j hji]
  apply h.list.swapRead_congr hlist
  rw [hstored, Function.update_of_ne (ht j hji)]

theorem read (h : Faithful past s) (hi : i ∈ holders past) :
    ∃ page, lastPage past i = some page ∧ swapRead s.queue (s.pte i) = .ok page := by
  obtain ⟨page, hpage⟩ := Option.isSome_iff_exists.mp ((mem_holders_iff past i).mp hi)
  exact ⟨page, hpage, h.list.swapRead_eq ((h.page i hi).trans hpage)⟩

/-- Writing for an entry that holds a token replaces its page. -/
theorem write_existing (h : Faithful past s) (hi : i ∈ holders past) (src : Page) :
    ∃ s', s.call (.write i src) = .ok s' ∧ Faithful (.write i src :: past) s' ∧ s.Frame s' i := by
  obtain ⟨q, hrun, hlist, hstored, hmax, htoken⟩ := h.list.swapWrite_existing (s.token_mem hi) src
  have hholders : holders (.write i src :: past) = holders past := if_pos hi
  refine ⟨⟨q, s.pte⟩, ?_, ?_, h.frame hlist hstored (fun _ _ => rfl) fun j hji => h.token_ne hi hji⟩
  · rw [call, hrun, ok_bind]
    simp only [Function.update_eq_self]
    rfl
  constructor
  case list => rwa [hholders]
  case increasing => rw [hholders]; exact h.increasing
  case holds_iff => intro j; rw [hholders]; exact h.holds_iff j
  case page =>
    intro j hj
    rw [hholders] at hj
    show q.stored (s.pte j).swap = _
    rw [hstored, lastPage]
    by_cases hji : j = i
    · rw [if_pos hji, hji, Function.update_self]
    · rw [if_neg hji, Function.update_of_ne (h.token_ne hi hji)]
      exact h.page j hj
  case created =>
    rw [entriesCreated, if_pos hi, ← h.created]
    exact htoken
  case sizeMax_le =>
    rw [entriesCreated, if_pos hi]
    exact hmax.trans_le h.sizeMax_le

/-- Writing for an entry without a token appends a new one. -/
theorem write_new (h : Faithful past s) (hi : i ∉ holders past) (src : Page) :
    ∃ s', s.call (.write i src) = .ok s' ∧ Faithful (.write i src :: past) s' ∧ s.Frame s' i := by
  have hzero : (s.pte i).swap = 0 := by
    rwa [← h.holds_iff, not_not] at hi
  have hnot : (s.pte i).swap ∉ s.tokens (holders past) := by
    rw [hzero]
    exact h.list.zero_notMem
  obtain ⟨q, hrun, hlist, hstored, hmax, htoken⟩ := h.list.swapWrite_new (s.pte i) hnot src
  let s' : SwapStore ι := ⟨q, Function.update s.pte i { s.pte i with swap := s.queue.TOKEN }⟩
  have hself : s'.pte i = { s.pte i with swap := s.queue.TOKEN } := Function.update_self ..
  have hother : ∀ j, j ≠ i → s'.pte j = s.pte j := fun j hji => Function.update_of_ne hji ..
  have hholders : holders (.write i src :: past) = holders past ++ [i] := if_neg hi
  have htokens : s'.tokens (holders (.write i src :: past)) =
      s.tokens (holders past) ++ [s.queue.TOKEN] := by
    rw [hholders, tokens, List.map_append, List.map_singleton, hself]
    exact congrArg (· ++ [s.queue.TOKEN]) (tokens_update_of_notMem hi ..)
  refine ⟨s', ?_, ?_, h.frame hlist hstored hother fun j _ => Nat.ne_of_lt (h.token_lt j)⟩
  · rw [call, hrun, ok_bind]
    rfl
  constructor
  case list => rwa [htokens]
  case increasing =>
    rw [htokens]
    refine List.pairwise_append.mpr ⟨h.increasing, List.pairwise_singleton .., ?_⟩
    intro t ht t' ht'
    rw [List.mem_singleton.mp ht']
    exact (h.list.bound t ht).2
  case holds_iff =>
    intro j
    rw [hholders, List.mem_append, List.mem_singleton]
    by_cases hji : j = i
    · rw [hji, hself]
      exact iff_of_true (Nat.ne_of_gt h.list.token_pos) (.inr rfl)
    · rw [hother j hji, h.holds_iff, or_iff_left hji]
  case page =>
    intro j hj
    show q.stored (s'.pte j).swap = _
    rw [hstored, lastPage]
    by_cases hji : j = i
    · rw [if_pos hji, hji, hself, Function.update_self]
    · rw [hholders, List.mem_append, List.mem_singleton, or_iff_left hji] at hj
      rw [if_neg hji, hother j hji, Function.update_of_ne (Nat.ne_of_lt (h.token_lt j))]
      exact h.page j hj
  case created =>
    rw [entriesCreated, if_neg hi, ← h.created]
    exact htoken
  case sizeMax_le =>
    have hlength := h.list.size_le.trans h.sizeMax_le
    rw [entriesCreated, if_neg hi]
    refine hmax.trans_le (max_le (Nat.le_succ_of_le h.sizeMax_le) ?_)
    exact Nat.succ_le_succ hlength

/-- Freeing removes the token, wherever in the list it is. -/
theorem free (h : Faithful past s) (hi : i ∈ holders past) :
    ∃ s', s.call (.free i) = .ok s' ∧ Faithful (.free i :: past) s' ∧ s.Frame s' i := by
  obtain ⟨q, hrun, hlist, hstored, hmax, htoken⟩ := h.list.swapFree_spec (s.token_mem hi)
  let s' : SwapStore ι := ⟨q, Function.update s.pte i { s.pte i with swap := 0 }⟩
  have hself : s'.pte i = { s.pte i with swap := 0 } := Function.update_self ..
  have hother : ∀ j, j ≠ i → s'.pte j = s.pte j := fun j hji => Function.update_of_ne hji ..
  have hmem : ∀ j, j ∈ holders (.free i :: past) ↔ j ≠ i ∧ j ∈ holders past := fun j =>
    (holders_nodup past).mem_erase_iff
  have htokens : s'.tokens (holders (.free i :: past)) =
      (s.tokens (holders past)).erase (s.pte i).swap := by
    have hnot : i ∉ holders (.free i :: past) := fun hj => ((hmem i).mp hj).1 rfl
    rw [tokens_erase h.list.nodup hi]
    exact tokens_update_of_notMem hnot ..
  refine ⟨s', ?_, ?_, h.frame hlist hstored hother fun j hji => h.token_ne hi hji⟩
  · rw [call, hrun, ok_bind]
    rfl
  constructor
  case list => rwa [htokens]
  case increasing =>
    rw [htokens]
    exact h.increasing.sublist (List.erase_sublist ..)
  case holds_iff =>
    intro j
    rw [hmem]
    by_cases hji : j = i
    · rw [hji, hself]
      exact iff_of_false (fun hne => hne rfl) fun hne => hne.1 rfl
    · rw [hother j hji, h.holds_iff, and_iff_right hji]
  case page =>
    intro j hj
    obtain ⟨hji, hold⟩ := (hmem j).mp hj
    show q.stored (s'.pte j).swap = _
    rw [hstored, lastPage, if_neg hji, hother j hji, Function.update_of_ne (h.token_ne hi hji)]
    exact h.page j hold
  case created => exact htoken.trans h.created
  case sizeMax_le => exact hmax.trans_le h.sizeMax_le

theorem call (h : Faithful past s) {c : SwapCall ι} (ha : s.Allows c) :
    ∃ s', s.call c = .ok s' ∧ Faithful (c :: past) s' ∧ s.Frame s' c.target := by
  cases c with
  | read i =>
    obtain ⟨page, -, hread⟩ := h.read ((h.holds_iff i).mp ha)
    refine ⟨s, ?_, { h with }, fun j _ => ⟨rfl, rfl⟩⟩
    rw [SwapStore.call, hread]
    rfl
  | write i src =>
    by_cases hi : i ∈ holders past
    · exact h.write_existing hi src
    · exact h.write_new hi src
  | free i => exact h.free ((h.holds_iff i).mp ha)

end Faithful

theorem faithful_start {pte : ι → Pte} (hpte : ∀ i, (pte i).swap = 0) :
    Faithful [] ⟨.empty, pte⟩ where
  list := SwapQueue.represents_empty
  increasing := List.Pairwise.nil
  holds_iff i := iff_of_false (fun hne => hne (hpte i)) List.not_mem_nil
  page _ hi := absurd hi List.not_mem_nil
  created := rfl
  sizeMax_le := Nat.le_refl 0

theorem Reached.faithful {past : List (SwapCall ι)} {s : SwapStore ι} (h : Reached past s) :
    Faithful past s := by
  induction h with
  | start hpte => exact faithful_start hpte
  | call _ ha hcall ih =>
    obtain ⟨s', hrun, hfaithful, -⟩ := ih.call ha
    rw [hcall] at hrun
    obtain rfl := Except.ok.inj hrun
    exact hfaithful

/-- After any calls the queue is one list of the tokens that entries hold, distinct and in the
order of their creation; an entry holds one exactly when it has been written and not freed since,
and then reads back the page last written. Every further call returns, and leaves every other
entry and what it reads back alone. -/
theorem swap_queue_faithful {past : List (SwapCall ι)} {s : SwapStore ι} (h : Reached past s) :
    s.queue.Represents (s.tokens (holders past)) ∧
      (s.tokens (holders past)).Pairwise (· < ·) ∧
      (∀ t ∈ s.tokens (holders past), t ≤ entriesCreated past) ∧
      s.queue.sizeMax ≤ entriesCreated past ∧
      (∀ i, (s.pte i).swap ≠ 0 ↔ (lastPage past i).isSome) ∧
      (∀ i page, lastPage past i = some page → swapRead s.queue (s.pte i) = .ok page) ∧
      ∀ c, s.Allows c → ∃ s', s.call c = .ok s' ∧ s.Frame s' c.target := by
  have hf := h.faithful
  refine ⟨hf.list, hf.increasing, ?_, hf.sizeMax_le, ?_, ?_, ?_⟩
  · intro t ht
    have hlt := (hf.list.bound t ht).2
    rw [hf.created] at hlt
    exact Nat.le_of_lt_succ hlt
  · intro i
    rw [hf.holds_iff, mem_holders_iff]
  · intro i page hpage
    obtain ⟨page', hpage', hread⟩ := hf.read ((mem_holders_iff past i).mpr (by rw [hpage]; rfl))
    rw [hpage] at hpage'
    rwa [Option.some.inj hpage']
  · intro c ha
    obtain ⟨s', hrun, -, hframe⟩ := hf.call ha
    exact ⟨s', hrun, hframe⟩

theorem Reached.exists_call {past : List (SwapCall ι)} {s : SwapStore ι} (h : Reached past s)
    {c : SwapCall ι} (ha : s.Allows c) : ∃ s', Reached (c :: past) s' := by
  obtain ⟨s', hrun, -⟩ := h.faithful.call ha
  exact ⟨s', h.call ha hrun⟩

/-- Two entries have been written and the older one freed: the other one reads its page. -/
theorem swap_queue_faithful_head : ∃ s : SwapStore Bool,
    Reached [.free false, .write true fun _ => 7, .write false zeroPage] s ∧
      swapRead s.queue (s.pte true) = .ok fun _ => 7 := by
  have h₀ : Reached [] (⟨.empty, fun _ => {}⟩ : SwapStore Bool) := .start fun _ => rfl
  obtain ⟨s₁, h₁⟩ := h₀.exists_call (c := .write false zeroPage) trivial
  obtain ⟨s₂, h₂⟩ := h₁.exists_call (c := .write true fun _ => 7) trivial
  have hlive : (s₂.pte false).swap ≠ 0 := (h₂.faithful.holds_iff false).mpr (by simp [holders])
  obtain ⟨s₃, h₃⟩ := h₂.exists_call (c := .free false) hlive
  obtain ⟨-, -, -, -, -, hreads, -⟩ := swap_queue_faithful h₃
  exact ⟨s₃, h₃, hreads true _ rfl⟩

end SwapStore

end ECE3056.Vm
