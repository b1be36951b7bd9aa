import ECE3056.Library.LinkedList
import Mathlib.Data.Fintype.Card

/-!
# The ready list

`push_to_queue` and `pop_from_queue` of `student.c`, on `head` and the `next`
links of the PCBs. Each is one critical section of `ready_mutex`. A loop over the
list gets one unit of fuel for each PCB there is; a function that is still looping
then, or returns a variable that it never set, has no result.
-/

namespace ECE3056.Scheduling

open ECE3056.LinkedList

/-- What `ready_mutex` protects. A process is named by its index in `processes`. -/
structure Queue (nproc : Nat) where
  head : Option (Fin nproc)
  next : Fin nproc → Option (Fin nproc)

variable {nproc : Nat}

/-! ## push_to_queue -/

/-- `while(curr->next != NULL) curr = curr->next;` -/
def lastFrom (next : Fin nproc → Option (Fin nproc)) : Nat → Fin nproc → Option (Fin nproc)
  | 0, _ => none
  | fuel + 1, curr =>
    match next curr with
    | none => some curr
    | some curr => lastFrom next fuel curr

def pushToQueue (q : Queue nproc) (pcb : Fin nproc) : Option (Queue nproc) :=
  match q.head with
  | none => some { head := some pcb, next := Function.update q.next pcb none }
  | some curr =>
    (lastFrom q.next nproc curr).map fun curr =>
      { q with next := Function.update (Function.update q.next curr (some pcb)) pcb none }

/-! ## pop_from_queue -/

/-- The largest `time_remaining` from `curr` on, and `high` at least. -/
def highest (next : Fin nproc → Option (Fin nproc)) (time_remaining : Fin nproc → UInt32) :
    Nat → Option (Fin nproc) → UInt32 → Option UInt32
  | _, none, high => some high
  | 0, some _, _ => none
  | fuel + 1, some curr, high =>
    highest next time_remaining fuel (next curr)
      (if time_remaining curr > high then time_remaining curr else high)

/-- The first node from `curr` on whose time is `high`, with the node before it. -/
def findHighest (next : Fin nproc → Option (Fin nproc)) (time_remaining : Fin nproc → UInt32)
    (high : UInt32) : Nat → Fin nproc → Option (Fin nproc) → Option (Fin nproc × Fin nproc)
  | _, _, none => none
  | 0, _, some _ => none
  | fuel + 1, prev, some curr =>
    if time_remaining curr = high then some (prev, curr)
    else findHighest next time_remaining high fuel curr (next curr)

/-- `pop_from_queue` for `scheduling_alg == 'l'`. -/
def popLongest (time_remaining : Fin nproc → UInt32) (q : Queue nproc) :
    Option (Option (Fin nproc) × Queue nproc) :=
  match q.head with
  | none => some (none, q)
  | some head => do
    let high ← highest q.next time_remaining nproc (some head) 0
    let (prev, node) ← findHighest q.next time_remaining high nproc head (some head)
    if node = head then some (some node, { q with head := q.next node })
    else some (some node, { q with next := Function.update q.next prev (q.next node) })

/-- `pop_from_queue` for the other algorithms. -/
def popFirst (q : Queue nproc) : Option (Fin nproc) × Queue nproc :=
  match q.head with
  | none => (none, q)
  | some node => (some node, { q with head := q.next node })

def popFromQueue (scheduling_alg : Char) (time_remaining : Fin nproc → UInt32) (q : Queue nproc) :
    Option (Option (Fin nproc) × Queue nproc) :=
  match scheduling_alg with
  | 'l' => popLongest time_remaining q
  | _ => some (popFirst q)

/-! ## The list -/

/-- The ready list holds these processes, in this order. -/
structure Queue.Holds (q : Queue nproc) (xs : List (Fin nproc)) : Prop where
  isList : IsList q.next q.head xs
  nodup : xs.Nodup

theorem Queue.Holds.length_le {q : Queue nproc} {xs : List (Fin nproc)} (h : q.Holds xs) :
    xs.length ≤ nproc := by
  have hcard := h.nodup.length_le_card
  rwa [Fintype.card_fin] at hcard

theorem lastFrom_eq {next : Fin nproc → Option (Fin nproc)} {h : Option (Fin nproc)}
    {xs : List (Fin nproc)} {x t : Fin nproc} (hl : IsList next h (x :: xs)) {fuel : Nat}
    (hfuel : xs.length < fuel) (ht : (x :: xs).getLast? = some t) :
    lastFrom next fuel x = some t := by
  induction fuel generalizing x xs h with
  | zero => omega
  | succ fuel ih =>
    cases xs with
    | nil =>
      have hx : x = t := by simpa using ht
      rw [lastFrom, show next x = none from hl.2, hx]
    | cons y ys =>
      rw [lastFrom, show next x = some y from hl.2.1]
      rw [List.length_cons] at hfuel
      rw [List.getLast?_cons_cons] at ht
      exact ih hl.tail (by omega) ht

/-- A process that is not queued is appended. -/
theorem pushToQueue_holds {q : Queue nproc} {xs : List (Fin nproc)} (h : q.Holds xs)
    {pcb : Fin nproc} (hpcb : pcb ∉ xs) :
    ∃ q', pushToQueue q pcb = some q' ∧ q'.Holds (xs ++ [pcb]) := by
  have hnodup : (xs ++ [pcb]).Nodup := by
    apply List.nodup_append.mpr
    refine ⟨h.nodup, List.nodup_singleton pcb, ?_⟩
    intro a ha b hb hab
    rw [List.mem_singleton.mp hb] at hab
    exact hpcb (hab ▸ ha)
  rw [pushToQueue]
  cases hx : xs.getLast? with
  | none =>
    have hnil : xs = [] := List.getLast?_eq_none_iff.mp hx
    subst hnil
    rw [show q.head = none from h.isList]
    refine ⟨_, rfl, ⟨rfl, ?_⟩, hnodup⟩
    exact Function.update_self ..
  | some t =>
    obtain ⟨ys, rfl⟩ := List.getLast?_eq_some_iff.mp hx
    obtain ⟨y, zs, hyz⟩ : ∃ y zs, ys ++ [t] = y :: zs :=
      List.exists_cons_of_ne_nil (by simp)
    have hlen := h.length_le
    have hl := h.isList
    rw [hyz] at hl hx hlen
    rw [List.length_cons] at hlen
    rw [hl.1]
    dsimp only
    rw [lastFrom_eq hl hlen hx]
    refine ⟨_, rfl, ?_, hnodup⟩
    have ht : t ∉ ys := fun hmem => by
      have := List.nodup_append.mp h.nodup
      exact this.2.2 t hmem t (List.mem_singleton_self t) rfl
    -- the two stores commute, so the cell is terminated before it is linked
    have hne : t ≠ pcb := fun heq => hpcb (by simp [heq])
    show IsList (Function.update (Function.update q.next t (some pcb)) pcb none) (some y) _
    rw [Function.update_comm hne, ← hl.1]
    exact (h.isList.update_of_notMem hpcb none).append_last ht hpcb (Function.update_self ..)

theorem highest_eq {next : Fin nproc → Option (Fin nproc)} {time : Fin nproc → UInt32}
    {h : Option (Fin nproc)} {xs : List (Fin nproc)} (hl : IsList next h xs) {fuel : Nat}
    (hfuel : xs.length ≤ fuel) (high : UInt32) :
    ∃ m, highest next time fuel h high = some m ∧ high ≤ m ∧ (∀ x ∈ xs, time x ≤ m) ∧
      (m = high ∨ ∃ x ∈ xs, time x = m) := by
  induction fuel generalizing xs h high with
  | zero =>
    have hnil : xs = [] := List.eq_nil_of_length_eq_zero (Nat.le_zero.mp hfuel)
    subst hnil
    rw [show h = none from hl]
    exact ⟨high, rfl, UInt32.le_refl _, by simp, .inl rfl⟩
  | succ fuel ih =>
    cases xs with
    | nil =>
      rw [show h = none from hl]
      exact ⟨high, rfl, UInt32.le_refl _, by simp, .inl rfl⟩
    | cons x xs =>
      rw [List.length_cons] at hfuel
      rw [hl.1, highest]
      by_cases hx : time x > high
      · rw [if_pos hx]
        obtain ⟨m, hm, hle, hmax, hattained⟩ := ih hl.tail (by omega) (time x)
        refine ⟨m, hm, UInt32.le_trans (UInt32.le_of_lt hx) hle, ?_, .inr ?_⟩
        · intro y hy
          rcases List.mem_cons.mp hy with rfl | hy
          · exact hle
          · exact hmax y hy
        · rcases hattained with hmx | ⟨y, hy, hym⟩
          · exact ⟨x, List.mem_cons_self .., hmx.symm⟩
          · exact ⟨y, List.mem_cons_of_mem x hy, hym⟩
      · rw [if_neg hx]
        obtain ⟨m, hm, hle, hmax, hattained⟩ := ih hl.tail (by omega) high
        refine ⟨m, hm, hle, ?_, ?_⟩
        · intro y hy
          rcases List.mem_cons.mp hy with rfl | hy
          · exact UInt32.le_trans (UInt32.not_lt.mp hx) hle
          · exact hmax y hy
        · rcases hattained with hmh | ⟨y, hy, hym⟩
          · exact .inl hmh
          · exact .inr ⟨y, List.mem_cons_of_mem x hy, hym⟩

/-- The search stops at the first node with that time. -/
theorem findHighest_eq {next : Fin nproc → Option (Fin nproc)} {time : Fin nproc → UInt32}
    {high : UInt32} {h : Option (Fin nproc)} {xs : List (Fin nproc)} (hl : IsList next h xs)
    {fuel : Nat} (hfuel : xs.length ≤ fuel) (hex : ∃ x ∈ xs, time x = high) (prev : Fin nproc) :
    ∃ ys p zs, xs = ys ++ p :: zs ∧ time p = high ∧ (∀ y ∈ ys, time y ≠ high) ∧
      findHighest next time high fuel prev h = some (ys.getLast?.getD prev, p) := by
  induction fuel generalizing xs h prev with
  | zero =>
    obtain ⟨x, hx, -⟩ := hex
    have := List.length_pos_of_mem hx
    omega
  | succ fuel ih =>
    cases xs with
    | nil => simp at hex
    | cons x xs =>
      rw [List.length_cons] at hfuel
      rw [hl.1, findHighest]
      by_cases hx : time x = high
      · refine ⟨[], x, xs, rfl, hx, by simp, ?_⟩
        rw [if_pos hx]
        rfl
      · obtain ⟨w, hw, hwt⟩ := hex
        have hw' : w ∈ xs := (List.mem_cons.mp hw).resolve_left fun h => hx (h ▸ hwt)
        obtain ⟨ys, p, zs, hxs, hp, hys, hfind⟩ := ih hl.tail (by omega) ⟨w, hw', hwt⟩ x
        refine ⟨x :: ys, p, zs, by rw [hxs]; rfl, hp, ?_, ?_⟩
        · intro y hy
          rcases List.mem_cons.mp hy with rfl | hy
          · exact hx
          · exact hys y hy
        · rw [if_neg hx, hfind]
          cases hlast : ys.getLast? <;> simp [List.getLast?_cons, hlast]

/-- A node is unlinked by redirecting the link in front of it. -/
theorem Queue.Holds.unlink {q : Queue nproc} {ys zs : List (Fin nproc)} {p prev : Fin nproc}
    (h : q.Holds (ys ++ p :: zs)) (hprev : ys.getLast? = some prev) :
    Queue.Holds { q with next := Function.update q.next prev (q.next p) } (ys ++ zs) := by
  obtain ⟨as, rfl⟩ := List.getLast?_eq_some_iff.mp hprev
  obtain ⟨has, hrest, hdisj⟩ := List.nodup_append.mp h.nodup
  have hnodup : (as ++ [prev] ++ zs).Nodup :=
    h.nodup.sublist (List.Sublist.append_left (List.sublist_cons_self p zs) _)
  have hl := h.isList
  rw [List.append_assoc] at hl
  refine ⟨?_, hnodup⟩
  rw [List.append_assoc]
  apply hl.unlink
  · intro hmem
    exact (List.nodup_append.mp has).2.2 prev hmem prev (List.mem_singleton_self prev) rfl
  · intro hmem
    exact hdisj prev (by simp) prev (List.mem_cons_of_mem p hmem) rfl

theorem Queue.Holds.tail {q : Queue nproc} {x : Fin nproc} {xs : List (Fin nproc)}
    (h : q.Holds (x :: xs)) : Queue.Holds { q with head := q.next x } xs :=
  ⟨h.isList.tail, (List.nodup_cons.mp h.nodup).2⟩

/-- LRTF takes the earliest of the processes with the largest `time_remaining`. -/
theorem popLongest_holds {q : Queue nproc} {xs : List (Fin nproc)} (h : q.Holds xs)
    (hne : xs ≠ []) (time : Fin nproc → UInt32) :
    ∃ ys p zs q', xs = ys ++ p :: zs ∧ popLongest time q = some (some p, q') ∧
      q'.Holds (ys ++ zs) ∧ (∀ y ∈ ys, time y < time p) ∧ ∀ z ∈ zs, time z ≤ time p := by
  obtain ⟨x, xs, rfl⟩ := List.exists_cons_of_ne_nil hne
  have hl := h.isList
  obtain ⟨m, hm, -, hmax, hattained⟩ := highest_eq hl h.length_le 0
  have hex : ∃ y ∈ x :: xs, time y = m := by
    rcases hattained with rfl | hex
    · exact ⟨x, List.mem_cons_self .., UInt32.le_zero_iff.mp (hmax x (List.mem_cons_self ..))⟩
    · exact hex
  obtain ⟨ys, p, zs, hxs, hp, hys, hfind⟩ := findHighest_eq hl h.length_le hex x
  have hlt : ∀ y ∈ ys, time y < time p := by
    intro y hy
    rw [hp]
    exact UInt32.lt_of_le_of_ne (hmax y (by rw [hxs]; simp [hy])) (hys y hy)
  have hle : ∀ z ∈ zs, time z ≤ time p := by
    intro z hz
    rw [hp]
    exact hmax z (by rw [hxs]; simp [hz])
  rw [hl.1] at hm hfind
  have hpop : popLongest time q = if p = x then some (some p, { q with head := q.next p })
      else some (some p, { q with
        next := Function.update q.next (ys.getLast?.getD x) (q.next p) }) := by
    rw [popLongest, hl.1]
    dsimp only
    rw [hm, Option.bind_eq_bind, Option.bind_some, hfind]
    rfl
  cases hlast : ys.getLast? with
  | none =>
    have hnil : ys = [] := List.getLast?_eq_none_iff.mp hlast
    subst hnil
    obtain ⟨rfl, rfl⟩ := List.cons.inj hxs
    refine ⟨[], x, xs, _, rfl, hpop.trans (if_pos rfl), h.tail, hlt, hle⟩
  | some prev =>
    have hpx : p ≠ x := by
      obtain ⟨y, as, rfl⟩ : ∃ y as, ys = y :: as := by
        apply List.exists_cons_of_ne_nil
        intro hnil
        simp [hnil] at hlast
      obtain ⟨rfl, hxs'⟩ := List.cons.inj hxs
      intro hpx
      have hnodup := (List.nodup_cons.mp h.nodup).1
      exact hnodup (by rw [hxs', hpx]; simp)
    rw [hxs] at h
    rw [hlast, Option.getD_some, if_neg hpx] at hpop
    exact ⟨ys, p, zs, _, hxs, hpop, h.unlink hlast, hlt, hle⟩

/-- With nothing queued both disciplines return NULL. -/
theorem popFromQueue_none {q : Queue nproc} (h : q.head = none) (scheduling_alg : Char)
    (time : Fin nproc → UInt32) : popFromQueue scheduling_alg time q = some (none, q) := by
  unfold popFromQueue
  split
  · rw [popLongest, h]
  · rw [popFirst, h]

/-- Both disciplines take one process from a non-empty list and leave the rest in order. -/
theorem popFromQueue_holds {q : Queue nproc} {xs : List (Fin nproc)} (h : q.Holds xs)
    (scheduling_alg : Char) (time : Fin nproc → UInt32) :
    ∃ node q', popFromQueue scheduling_alg time q = some (node, q') ∧
      (node = none ∧ xs = [] ∧ q' = q ∨
        ∃ ys p zs, node = some p ∧ xs = ys ++ p :: zs ∧ q'.Holds (ys ++ zs)) := by
  cases xs with
  | nil => exact ⟨none, q, popFromQueue_none h.isList .., .inl ⟨rfl, rfl, rfl⟩⟩
  | cons x xs =>
    unfold popFromQueue
    split
    · obtain ⟨ys, p, zs, q', hxs, hpop, hq', -⟩ := popLongest_holds h (by simp) time
      exact ⟨some p, q', hpop, .inr ⟨ys, p, zs, rfl, hxs, hq'⟩⟩
    · have hfirst : popFirst q = (some x, { q with head := q.next x }) := by
        rw [popFirst, h.isList.1]
      exact ⟨_, _, congrArg some hfirst, .inr ⟨[], x, xs, rfl, rfl, h.tail⟩⟩

end ECE3056.Scheduling
