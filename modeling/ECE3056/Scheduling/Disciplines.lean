import ECE3056.Scheduling.ReadyList

/-!
# The disciplines of the ready list

Seen from outside, the ready list is the list of the processes that were pushed and
not popped yet, in the order of the pushes. FIFO and round-robin take its first
process, LRTF the earliest of those with the most time left. The times may change
between two pops, and the `next` of a process that is not queued may be anything.
-/

namespace ECE3056.Scheduling

variable {nproc : Nat} {scheduling_alg : Char} {q q' : Queue nproc} {xs : List (Fin nproc)}

/-- What is left of the list once pop has returned `node`. -/
def remaining (xs : List (Fin nproc)) : Option (Fin nproc) → List (Fin nproc)
  | none => xs
  | some p => xs.erase p

/-- The ready list after some pushes and pops, with the processes pushed and not yet popped. -/
inductive Reached (scheduling_alg : Char) : Queue nproc → List (Fin nproc) → Prop
  | empty (next : Fin nproc → Option (Fin nproc)) : Reached scheduling_alg ⟨none, next⟩ []
  | push {q q' xs pcb} : Reached scheduling_alg q xs → pcb ∉ xs → pushToQueue q pcb = some q' →
      Reached scheduling_alg q' (xs ++ [pcb])
  | pop {q q' xs time_remaining node} : Reached scheduling_alg q xs →
      popFromQueue scheduling_alg time_remaining q = some (node, q') →
      Reached scheduling_alg q' (remaining xs node)

/-- The discipline's choice from the list, with what it leaves of it. -/
def Takes (scheduling_alg : Char) (time_remaining : Fin nproc → UInt32) (xs : List (Fin nproc))
    (p : Fin nproc) (rest : List (Fin nproc)) : Prop :=
  ∃ ys zs, xs = ys ++ p :: zs ∧ rest = ys ++ zs ∧
    if scheduling_alg = 'l' then
      (∀ y ∈ ys, time_remaining y < time_remaining p) ∧
        ∀ z ∈ zs, time_remaining z ≤ time_remaining p
    else ys = []

variable (scheduling_alg) in
/-- From a list that is not empty, pop takes the discipline's choice. -/
theorem popFromQueue_takes (h : q.Holds xs) (hne : xs ≠ []) (time : Fin nproc → UInt32) :
    ∃ p rest q', popFromQueue scheduling_alg time q = some (some p, q') ∧
      Takes scheduling_alg time xs p rest ∧ q'.Holds rest := by
  by_cases halg : scheduling_alg = 'l'
  · subst halg
    obtain ⟨ys, p, zs, q', hxs, hpop, hq', hlt, hle⟩ := popLongest_holds h hne time
    exact ⟨p, ys ++ zs, q', hpop, ⟨ys, zs, hxs, rfl, by rw [if_pos rfl]; exact ⟨hlt, hle⟩⟩, hq'⟩
  · obtain ⟨x, xs, rfl⟩ := List.exists_cons_of_ne_nil hne
    have hfirst : popFirst q = (some x, { q with head := q.next x }) := by
      rw [popFirst, h.isList.1]
    refine ⟨x, xs, { q with head := q.next x }, ?_, ⟨[], xs, rfl, rfl, by rw [if_neg halg]⟩, h.tail⟩
    unfold popFromQueue
    split
    · exact absurd rfl halg
    · exact congrArg some hfirst

theorem Takes.remaining_eq {time : Fin nproc → UInt32} {p : Fin nproc} {rest : List (Fin nproc)}
    (h : Takes scheduling_alg time xs p rest) (hnodup : xs.Nodup) :
    remaining xs (some p) = rest := by
  obtain ⟨ys, zs, rfl, rfl, -⟩ := h
  have hp : p ∉ ys := fun hmem =>
    (List.nodup_append.mp hnodup).2.2 p hmem p (List.mem_cons_self ..) rfl
  rw [remaining, List.erase_append_right _ hp, List.erase_cons_head]

/-- `head` reaches a null-terminated list of the queued processes, none of them twice. -/
theorem Reached.holds (h : Reached scheduling_alg q xs) : q.Holds xs := by
  induction h with
  | empty next => exact ⟨rfl, List.nodup_nil⟩
  | push _ hpcb hpush ih =>
    obtain ⟨q₁, hpush₁, hq₁⟩ := pushToQueue_holds ih hpcb
    obtain rfl := Option.some.inj (hpush.symm.trans hpush₁)
    exact hq₁
  | @pop q q' xs time node _ hpop ih =>
    by_cases hne : xs = []
    · subst hne
      rw [popFromQueue_none ih.isList] at hpop
      obtain ⟨rfl, rfl⟩ := Prod.mk.inj (Option.some.inj hpop)
      exact ih
    · obtain ⟨p, rest, q₁, hpop₁, htakes, hq₁⟩ :=
        popFromQueue_takes scheduling_alg ih hne time
      obtain ⟨rfl, rfl⟩ := Prod.mk.inj (Option.some.inj (hpop.symm.trans hpop₁))
      rw [htakes.remaining_eq ih.nodup]
      exact hq₁

/-- After any pushes and pops the ready list is well formed, push appends, and pop takes the
discipline's choice out of it, or returns NULL and changes nothing when nothing is queued. -/
theorem ready_list_discipline (h : Reached scheduling_alg q xs) :
    q.Holds xs ∧
      (∀ pcb, pcb ∉ xs → ∃ q', pushToQueue q pcb = some q' ∧ q'.Holds (xs ++ [pcb])) ∧
      ∀ time_remaining : Fin nproc → UInt32, ∃ node q',
        popFromQueue scheduling_alg time_remaining q = some (node, q') ∧
          (node = none ↔ xs = []) ∧
          (node = none → q' = q) ∧
          ∀ p, node = some p →
            ∃ rest, Takes scheduling_alg time_remaining xs p rest ∧ q'.Holds rest := by
  have hq := h.holds
  refine ⟨hq, fun pcb hpcb => pushToQueue_holds hq hpcb, fun time => ?_⟩
  by_cases hne : xs = []
  · subst hne
    exact ⟨none, q, popFromQueue_none hq.isList .., by simp, fun _ => rfl, by simp⟩
  · obtain ⟨p, rest, q', hpop, htakes, hq'⟩ :=
      popFromQueue_takes scheduling_alg hq hne time
    refine ⟨some p, q', hpop, by simp [hne], by simp, ?_⟩
    rintro p' hp'
    obtain rfl := Option.some.inj hp'
    exact ⟨rest, htakes, hq'⟩

/-- Three processes whose PCBs point at each other before they are queued. -/
def stale : Fin 3 → Option (Fin 3) := fun p => some (p + 1)

theorem ready_list_discipline_stale :
    ∃ q : Queue 3, q.Holds [2, 0] ∧ ∃ node q',
      popFromQueue 'l' (fun _ => 0) q = some (node, q') ∧
        (node = none ↔ [(2 : Fin 3), 0] = []) := by
  have hempty : Reached 'l' (⟨none, stale⟩ : Queue 3) [] := .empty stale
  obtain ⟨q₁, hpush₁, -⟩ := pushToQueue_holds hempty.holds (show (2 : Fin 3) ∉ [] by decide)
  have hone := hempty.push (by decide) hpush₁
  obtain ⟨q₂, hpush₂, -⟩ := pushToQueue_holds hone.holds (show (0 : Fin 3) ∉ [] ++ [2] by decide)
  obtain ⟨hq, -, hpop⟩ := ready_list_discipline (hone.push (by decide) hpush₂)
  obtain ⟨node, q', hpop', hnone, -⟩ := hpop fun _ => 0
  exact ⟨q₂, hq, node, q', hpop', hnone⟩

end ECE3056.Scheduling
