import Mathlib.Algebra.BigOperators.Group.Finset.Piecewise
import Mathlib.Algebra.Order.BigOperators.Group.Finset
import Mathlib.Algebra.BigOperators.Ring.Finset
import Mathlib.Algebra.Order.Group.Defs
import Mathlib.Algebra.Order.Group.Int

/-!
# Counters shared by several parties

Parties raise a counter when they take a lock and lower it when they give it up.
The depth of a party is how often it has done the one more than the other. The
counter is the sum of the depths; it is the number of parties that hold the lock
exactly when no party has given up what it had not taken.
-/

namespace ECE3056.LockCount

variable {θ : Type*} [Fintype θ]

/-- The counter is what the parties have made of it. -/
def Counts (counter : Int) (depth : θ → Int) : Prop := counter = ∑ t, depth t

/-- How many parties hold the lock. -/
def holders (depth : θ → Int) : Nat := (Finset.univ.filter fun t => 0 < depth t).card

variable {counter : Int} {depth : θ → Int}

/-- A party takes the lock or gives it up. -/
theorem Counts.update [DecidableEq θ] (h : Counts counter depth) (t : θ) (d : Int) :
    Counts (counter + (d - depth t)) (Function.update depth t d) := by
  have hrest := Finset.add_sum_erase Finset.univ depth (Finset.mem_univ t)
  rw [Counts, Finset.sum_update_of_mem (Finset.mem_univ t), Finset.sdiff_singleton_eq_erase,
    show counter = _ from h]
  omega

theorem holders_eq_sum (depth : θ → Int) :
    (holders depth : Int) = ∑ t, if 0 < depth t then 1 else 0 := by
  rw [holders, Finset.card_filter]
  push_cast
  rfl

/-- Where nobody holds the lock twice, the counter tells the holders unless some party has given it
up once too often. -/
theorem Counts.eq_holders_iff (h : Counts counter depth) (hone : ∀ t, depth t ≤ 1) :
    counter = holders depth ↔ ∀ t, 0 ≤ depth t := by
  have hle : ∀ t ∈ Finset.univ, depth t ≤ if 0 < depth t then 1 else 0 := by
    intro t _
    have := hone t
    split <;> omega
  rw [holders_eq_sum, show counter = _ from h, Finset.sum_eq_sum_iff_of_le hle]
  constructor
  · intro heq t
    have ht := heq t (Finset.mem_univ t)
    split at ht <;> omega
  · intro hpos t _
    have := hpos t
    have := hone t
    split <;> omega

end ECE3056.LockCount
