import ECE3056.Library.Tally
import Mathlib.Algebra.Ring.GeomSum
import Mathlib.Dynamics.PeriodicPts.Defs

/-!
# Linear congruential generators

A generator modulo a power of two with a multiplier that is 1 modulo 4 and an odd
increment runs through every word before it repeats one, so over a period anything
computed from its state takes each value as often as it does over all words.
-/

namespace ECE3056.Congruential

open ECE3056.Tally Function

def next (multiplier increment modulus x : Nat) : Nat := (multiplier * x + increment) % modulus

/-- `1 + a + ... + a ^ (n - 1)` for `a = 4 * b + 1`. -/
def geom (b n : Nat) : Nat := ∑ i ∈ Finset.range n, (4 * b + 1) ^ i

variable {b c k x : Nat}

theorem geom_succ (b n : Nat) : geom b (n + 1) = (4 * b + 1) * geom b n + 1 := geom_sum_succ

/-- The powers of the multiplier. -/
theorem geom_mul (b n : Nat) : (4 * b + 1) ^ n = 4 * (b * geom b n) + 1 := by
  have h := geom_sum_mul_add (4 * b) n
  rw [← h, geom]
  ring

theorem geom_double (b n : Nat) : geom b (2 * n) = 2 * (geom b n * (2 * (b * geom b n) + 1)) := by
  have hsplit : geom b (2 * n) = geom b n + (4 * b + 1) ^ n * geom b n := by
    rw [two_mul, geom, Finset.sum_range_add, ← geom]
    simp_rw [pow_add, ← Finset.mul_sum]
    rfl
  rw [hsplit, geom_mul]
  ring

/-- The geometric sum has the factors two of the number of its terms. -/
theorem two_pow_dvd_geom (b k n : Nat) : 2 ^ k ∣ geom b n ↔ 2 ^ k ∣ n := by
  induction k generalizing n with
  | zero => simp
  | succ k ih =>
    have hcoprime : ∀ m, Nat.Coprime (2 ^ k) (2 * m + 1) := fun m =>
      Nat.Coprime.pow_left k (Nat.coprime_two_left.mpr ⟨m, rfl⟩)
    obtain ⟨m, rfl | rfl⟩ := n.even_or_odd'
    · rw [geom_double, pow_succ', Nat.mul_dvd_mul_iff_left Nat.two_pos,
        Nat.mul_dvd_mul_iff_left Nat.two_pos, (hcoprime _).dvd_mul_right, ih]
    · -- both are odd
      have hgeom : ¬ 2 ∣ geom b (2 * m + 1) := by
        rw [geom_succ, geom_double, Nat.mul_left_comm]
        omega
      have htwo : 2 ∣ 2 ^ (k + 1) := dvd_pow_self 2 k.succ_ne_zero
      have hodd : ¬ 2 ∣ 2 * m + 1 := by omega
      exact iff_of_false (fun h => hgeom (htwo.trans h)) fun h => hodd (htwo.trans h)

/-- Where `n` steps lead. -/
theorem next_iterate (hx : x < 2 ^ k) (n : Nat) :
    (next (4 * b + 1) c (2 ^ k))^[n] x = (x + geom b n * (4 * b * x + c)) % 2 ^ k := by
  induction n with
  | zero => simp [geom, Nat.mod_eq_of_lt hx]
  | succ n ih =>
    rw [iterate_succ_apply', ih, next, Nat.add_mod, Nat.mul_mod_mod, ← Nat.add_mod, geom_succ]
    congr 1
    ring

/-- The state comes back after as many steps as there are words, and not before. -/
theorem minimalPeriod_next (b : Nat) (hc : c % 2 = 1) (hx : x < 2 ^ k) :
    minimalPeriod (next (4 * b + 1) c (2 ^ k)) x = 2 ^ k := by
  apply Nat.dvd_right_iff_eq.mp
  intro n
  have hodd : Nat.Coprime (2 ^ k) (4 * b * x + c) := by
    apply Nat.Coprime.pow_left
    rw [Nat.coprime_two_left, Nat.odd_iff, Nat.mul_assoc]
    omega
  have hback : (x + geom b n * (4 * b * x + c)) % 2 ^ k = x ↔
      2 ^ k ∣ geom b n * (4 * b * x + c) := by
    have h := Nat.modEq_iff_dvd' (n := 2 ^ k) (Nat.le_add_right x (geom b n * (4 * b * x + c)))
    rw [Nat.add_sub_cancel_left, Nat.ModEq, Nat.mod_eq_of_lt hx] at h
    rw [eq_comm, h]
  rw [← isPeriodicPt_iff_minimalPeriod_dvd, IsPeriodicPt, IsFixedPt, next_iterate hx, hback,
    hodd.dvd_mul_right, two_pow_dvd_geom]

/-- The states of a period are the words, each once. -/
theorem tally_period (b : Nat) (hc : c % 2 = 1) (hx : x < 2 ^ k) (p : Nat → Prop)
    [DecidablePred p] :
    (tally (Finset.range (2 ^ k)) fun n => p ((next (4 * b + 1) c (2 ^ k))^[n] x)) =
      tally (Finset.range (2 ^ k)) p := by
  have hperiod := minimalPeriod_next b hc hx
  refine tally_comp (fun n _ => ?_) ?_ le_rfl p
  · rw [next_iterate hx]
    exact Finset.mem_range.mpr (Nat.mod_lt _ (Nat.two_pow_pos k))
  · intro n hn n' hn' heq
    rw [Finset.coe_range, ← hperiod] at hn hn'
    exact iterate_injOn_Iio_minimalPeriod hn hn' heq

/-! ## Output functions

What is made of the state loses nothing when it shifts, adds without carry and rotates. -/

/-- A word is determined by its sum with its own shift. -/
theorem xorshift_injective {w k : Nat} (hk : 0 < k) :
    Injective fun x : BitVec w => x >>> k ^^^ x := by
  intro x y hxy
  have hbool : ∀ a b c d : Bool, (a ^^ b) = (c ^^ d) → (a ^^ c) = (b ^^ d) := by decide
  have hdiff : (x ^^^ y) >>> k = x ^^^ y := by
    rw [BitVec.ushiftRight_xor_distrib]
    apply BitVec.eq_of_getElem_eq
    intro i hi
    have hbit := congrArg (fun z : BitVec w => z.getLsbD i) hxy
    simp only [BitVec.getLsbD_xor] at hbit
    simpa only [← BitVec.getLsbD_eq_getElem, BitVec.getLsbD_xor] using hbool _ _ _ _ hbit
  have hzero : (x ^^^ y).toNat = 0 := by
    have hdiv := congrArg BitVec.toNat hdiff
    rw [BitVec.toNat_ushiftRight, Nat.shiftRight_eq_div_pow] at hdiv
    by_contra hne
    have := Nat.div_lt_self (Nat.pos_of_ne_zero hne) (Nat.one_lt_two_pow hk.ne')
    omega
  exact BitVec.xor_eq_zero_iff.mp (BitVec.eq_of_toNat_eq hzero)

theorem rotateRight_injective {w : Nat} (r : Nat) :
    Injective fun x : BitVec w => x.rotateRight r := by
  intro x y hxy
  apply BitVec.eq_of_getLsbD_eq
  intro i hi
  have hr : r % w < w := Nat.mod_lt r (by omega)
  by_cases hlow : i < r % w
  · have hbit := congrArg (fun z : BitVec w => z.getLsbD (i + (w - r % w))) hxy
    have hlt : i + (w - r % w) < w := by omega
    have hnot : ¬ i + (w - r % w) < w - r % w := by omega
    simpa only [BitVec.getLsbD_rotateRight, hlt, hnot, decide_true, decide_false, cond_false,
      Bool.true_and, Nat.add_sub_cancel] using hbit
  · have hbit := congrArg (fun z : BitVec w => z.getLsbD (i - r % w)) hxy
    have hlt : i - r % w < w - r % w := by omega
    have hi' : r % w + (i - r % w) = i := by omega
    simpa only [BitVec.getLsbD_rotateRight, hlt, hi', decide_true, cond_true] using hbit

end ECE3056.Congruential
