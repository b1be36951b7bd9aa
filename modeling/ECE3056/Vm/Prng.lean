import ECE3056.Library.Congruential
import ECE3056.Vm.Victim
import Mathlib.Data.UInt

/-!
# The random numbers

`pcg32_random_r` and `prng_rand` of `util.c`. From any state the numbers repeat with a
period of `2 ^ 64`, and over a period each is returned equally often. For random
replacement this means that the first frame it may choose is chosen half of the time.
-/

namespace ECE3056.Vm

open ECE3056.Tally ECE3056.Congruential Function

/-- `pcg32_random_t`. -/
structure Pcg32 where
  state : UInt64
  inc : UInt64

/-- What `pcg32_random_r` makes of the old state. -/
def output (oldstate : UInt64) : UInt32 :=
  let xorshifted := (((oldstate >>> 18) ^^^ oldstate) >>> 27).toUInt32
  let rot := (oldstate >>> 59).toUInt32
  (xorshifted >>> rot) ||| (xorshifted <<< ((-rot) &&& 31))

def pcg32RandomR (rng : Pcg32) : UInt32 × Pcg32 :=
  (output rng.state,
    { rng with state := rng.state * 6364136223846793005 + (rng.inc ||| 1) })

/-- `rstate` -/
def rstate : Pcg32 := ⟨0x57424aae4a2024be, 0x28bfcf2f5a7cdfa3⟩

/-- What call `n` of `prng_rand` returns, when `rng` is in place of `rstate` before call 0. -/
def prngRand : Pcg32 → Nat → UInt32
  | rng, 0 => (pcg32RandomR rng).1
  | rng, n + 1 => prngRand (pcg32RandomR rng).2 n

/-! ## The state -/

/-- What a call makes of the state, as a number. -/
def nextState (inc : UInt64) : Nat → Nat :=
  next (4 * 1591034055961698251 + 1) (inc ||| 1).toNat (2 ^ 64)

theorem toNat_nextState (state inc : UInt64) :
    (state * 6364136223846793005 + (inc ||| 1)).toNat = nextState inc state.toNat := by
  have hmultiplier : (6364136223846793005 : UInt64).toNat = 4 * 1591034055961698251 + 1 := by decide
  rw [UInt64.toNat_add, UInt64.toNat_mul, Nat.mod_add_mod, Nat.mul_comm, hmultiplier, nextState,
    next]

theorem state_next (rng : Pcg32) :
    (pcg32RandomR rng).2.state.toNat = nextState rng.inc rng.state.toNat := by
  have hstate : (pcg32RandomR rng).2.state =
      rng.state * 6364136223846793005 + (rng.inc ||| 1) := rfl
  exact (congrArg UInt64.toNat hstate).trans (toNat_nextState ..)

theorem inc_next (rng : Pcg32) : (pcg32RandomR rng).2.inc = rng.inc := by
  cases rng with
  | mk state inc =>
    show (pcg32RandomR ⟨state, inc⟩).2.inc = inc
    rfl

theorem inc_odd (inc : UInt64) : (inc ||| 1).toNat % 2 = 1 := by
  rw [UInt64.toNat_or, Nat.or_mod_two_eq_one]
  exact .inr rfl

theorem prngRand_eq (rng : Pcg32) (n : Nat) :
    prngRand rng n = output (UInt64.ofNat ((nextState rng.inc)^[n] rng.state.toNat)) := by
  induction n generalizing rng with
  | zero =>
    rw [iterate_zero, id, UInt64.ofNat_toNat, prngRand, pcg32RandomR]
  | succ n ih =>
    rw [prngRand, ih, state_next, inc_next, iterate_succ_apply]

theorem state_lt (rng : Pcg32) : rng.state.toNat < 2 ^ 64 := rng.state.toNat_lt

/-- After `2 ^ 64` calls, and not before, the state is what it was. -/
theorem state_period (rng : Pcg32) : minimalPeriod (nextState rng.inc) rng.state.toNat = 2 ^ 64 :=
  minimalPeriod_next _ (inc_odd rng.inc) (state_lt rng)

/-! ## The output -/

/-- The rotation of `pcg32_random_r`. -/
theorem rotate_eq (x rot : UInt32) (hrot : rot.toNat < 32) :
    (x >>> rot ||| x <<< (-rot &&& 31)).toBitVec = x.toBitVec.rotateRight rot.toNat := by
  have hback : (-rot &&& 31).toNat = (32 - rot.toNat) % 32 := by
    have hall : ∀ r < 32, (-UInt32.ofNat r &&& 31).toNat = (32 - r) % 32 := by decide
    have h := hall rot.toNat hrot
    rwa [UInt32.ofNat_toNat] at h
  apply BitVec.eq_of_toNat_eq
  rw [UInt32.toNat_toBitVec, UInt32.toNat_or, UInt32.toNat_shiftRight, UInt32.toNat_shiftLeft,
    BitVec.toNat_rotateRight, UInt32.toNat_toBitVec, hback, Nat.mod_mod, Nat.mod_eq_of_lt hrot]
  by_cases hzero : rot.toNat = 0
  · -- nothing is shifted out, and the other half is the word again or nothing
    have hall : x.toNat <<< 32 % 2 ^ 32 = 0 := by
      rw [Nat.shiftLeft_eq, Nat.mul_mod_left]
    rw [hzero, Nat.sub_zero, Nat.mod_self, hall]
    simp
  · rw [Nat.mod_eq_of_lt (by omega : 32 - rot.toNat < 32)]

theorem rot_eq (oldstate : UInt64) :
    ((oldstate >>> 59).toUInt32).toNat = oldstate.toNat / 2 ^ 59 := by
  have hlt := oldstate.toNat_lt
  rw [UInt64.toNat_toUInt32, UInt64.toNat_shiftRight, Nat.shiftRight_eq_div_pow]
  apply Nat.mod_eq_of_lt
  show oldstate.toNat / 2 ^ 59 < 2 ^ 32
  omega

/-- The state with its shift added. -/
def mixed (oldstate : UInt64) : UInt64 := oldstate >>> 18 ^^^ oldstate

theorem mixed_injective : Injective mixed := by
  intro x y hxy
  apply UInt64.toBitVec_inj.mp
  exact xorshift_injective (by decide : 0 < 18) (congrArg UInt64.toBitVec hxy)

/-- The shift leaves the bits alone that the rotation is taken from. -/
theorem mixed_top (oldstate : UInt64) :
    (mixed oldstate).toNat / 2 ^ 59 = oldstate.toNat / 2 ^ 59 := by
  have hlt := oldstate.toNat_lt
  have hzero : oldstate.toNat >>> 18 >>> 59 = 0 := by
    rw [← Nat.shiftRight_add, Nat.shiftRight_eq_div_pow]
    exact Nat.div_eq_of_lt (hlt.trans (by decide))
  have htop : (oldstate.toNat >>> 18 ^^^ oldstate.toNat) >>> 59 = oldstate.toNat >>> 59 := by
    rw [Nat.shiftRight_xor_distrib, hzero, Nat.zero_xor]
  rw [mixed, UInt64.toNat_xor, UInt64.toNat_shiftRight, ← Nat.shiftRight_eq_div_pow,
    ← Nat.shiftRight_eq_div_pow]
  exact htop

theorem output_eq (oldstate : UInt64) : (output oldstate).toBitVec =
    ((mixed oldstate >>> 27).toUInt32).toBitVec.rotateRight (oldstate.toNat / 2 ^ 59) := by
  have hlt := oldstate.toNat_lt
  rw [← rot_eq, ← rotate_eq _ _ (by rw [rot_eq]; omega)]
  rfl

/-- The state is known by its output, its top five bits and the 27 bits that are shifted out. -/
theorem eq_of_output_eq {x y : UInt64} (hout : output x = output y)
    (htop : x.toNat / 2 ^ 59 = y.toNat / 2 ^ 59)
    (hlow : (mixed x).toNat % 2 ^ 27 = (mixed y).toNat % 2 ^ 27) : x = y := by
  have hrotated := congrArg UInt32.toBitVec hout
  rw [output_eq, output_eq, htop] at hrotated
  have hmiddle := congrArg BitVec.toNat (rotateRight_injective _ hrotated)
  have hmixed : ∀ z : UInt64, ((mixed z >>> 27).toUInt32).toBitVec.toNat =
      (mixed z).toNat / 2 ^ 27 % 2 ^ 32 := by
    intro z
    rw [UInt32.toNat_toBitVec, UInt64.toNat_toUInt32, UInt64.toNat_shiftRight,
      Nat.shiftRight_eq_div_pow]
    rfl
  rw [hmixed, hmixed] at hmiddle
  have hx := mixed_top x
  have hy := mixed_top y
  apply mixed_injective
  apply UInt64.toNat_inj.mp
  omega

/-- Each number is the output of `2 ^ 32` states. -/
theorem tally_output (v : UInt32) :
    (tally (Finset.range (2 ^ 64)) fun x => output (UInt64.ofNat x) = v) = 2 ^ 32 := by
  have hcard : (Finset.range 32 ×ˢ Finset.range (2 ^ 27)).card = 2 ^ 32 := by
    rw [Finset.card_product, Finset.card_range, Finset.card_range]
    rfl
  rw [← hcard, ← tally_coordinate (s := Finset.range (2 ^ 64)) (t := Finset.range (2 ^ 32))
    (f := fun x => ((output (UInt64.ofNat x)).toNat, x / 2 ^ 59,
      (mixed (UInt64.ofNat x)).toNat % 2 ^ 27)) ?_ ?_ ?_ (Finset.mem_range.mpr v.toNat_lt)]
  · exact tally_congr fun x _ => UInt32.toNat_inj.symm
  · intro x hx
    rw [Finset.mem_range] at hx
    simp only [Finset.mem_product, Finset.mem_range]
    exact ⟨UInt32.toNat_lt _, by omega, Nat.mod_lt _ (by decide)⟩
  · intro x hx y hy heq
    have hx' : (UInt64.ofNat x).toNat = x :=
      UInt64.toNat_ofNat_of_lt' (Finset.mem_range.mp (Finset.mem_coe.mp hx))
    have hy' : (UInt64.ofNat y).toNat = y :=
      UInt64.toNat_ofNat_of_lt' (Finset.mem_range.mp (Finset.mem_coe.mp hy))
    obtain ⟨hout, hrest⟩ := Prod.mk.inj heq
    obtain ⟨htop, hlow⟩ := Prod.mk.inj hrest
    rw [← hx', ← hy']
    exact congrArg UInt64.toNat
      (eq_of_output_eq (UInt32.toNat_inj.mp hout) (by rwa [hx', hy']) hlow)
  · rw [hcard, Finset.card_range, Finset.card_range]
    decide

/-! ## Over a period -/

/-- From any state the numbers repeat after `2 ^ 64` calls, and in any `2 ^ 64` calls each number
is returned `2 ^ 32` times. -/
theorem prng_equidistributed (rng : Pcg32) :
    (∀ n, prngRand rng (n + 2 ^ 64) = prngRand rng n) ∧
      ∀ v, (tally (Finset.range (2 ^ 64)) fun n => prngRand rng n = v) = 2 ^ 32 := by
  refine ⟨fun n => ?_, fun v => ?_⟩
  · rw [prngRand_eq, prngRand_eq, ← state_period rng, iterate_add_minimalPeriod_eq]
  · have hperiod := tally_period 1591034055961698251 (inc_odd rng.inc) (state_lt rng)
      fun x => output (UInt64.ofNat x) = v
    rw [← tally_output v, ← hperiod]
    exact tally_congr fun n _ => by rw [prngRand_eq, nextState]

/-- Half of the numbers of a period are odd. -/
theorem tally_prngRand_odd (rng : Pcg32) :
    (tally (Finset.range (2 ^ 64)) fun n => (prngRand rng n).toNat % 2 ≠ 0) = 2 ^ 63 := by
  have hvalues : ∀ v ∈ Finset.range (2 ^ 32),
      (tally (Finset.range (2 ^ 64)) fun n => (prngRand rng n).toNat = v) = 2 ^ 32 := by
    intro v hv
    have hv' := UInt32.toNat_ofNat_of_lt' (Finset.mem_range.mp hv)
    rw [← (prng_equidistributed rng).2 (UInt32.ofNat v)]
    exact tally_congr fun n _ => by rw [← UInt32.toNat_inj, hv']
  have hmaps : ∀ n ∈ Finset.range (2 ^ 64), (prngRand rng n).toNat ∈ Finset.range (2 ^ 32) :=
    fun n _ => Finset.mem_range.mpr (UInt32.toNat_lt _)
  exact tally_words_odd (k := 31) rfl hmaps hvalues

/-! ## Random replacement -/

variable {frameTable : Nat → Fte} {prng : Nat → Nat}

/-- The numbers that are left after `n` calls. -/
def prngFrom (rng : Pcg32) (n : Nat) : Nat → Nat := fun m => (prngRand rng (n + m)).toNat

/-- The second loop takes one of the frames to come, or the one it has remembered when all of them
are protected. -/
theorem russianRoulette_mem {frames : List Nat} {last i : Nat}
    (h : (russianRoulette frameTable frames last prng).1 = some i) :
    i ∈ frames ∨ i = last ∧ ∀ f ∈ frames, (frameTable f).isProtected ≠ 0 := by
  induction frames generalizing last prng with
  | nil =>
    rw [russianRoulette] at h
    split at h
    · exact .inr ⟨(Option.some_inj.mp h).symm, by simp⟩
    · simp at h
  | cons f frames ih =>
    rw [russianRoulette] at h
    split at h
    · split at h
      · obtain rfl := Option.some_inj.mp h
        exact .inl (List.mem_cons_self ..)
      · rcases ih h with hmem | ⟨rfl, -⟩
        · exact .inl (List.mem_cons_of_mem f hmem)
        · exact .inl (List.mem_cons_self ..)
    · rename_i hprot
      rcases ih h with hmem | ⟨rfl, hall⟩
      · exact .inl (List.mem_cons_of_mem f hmem)
      · exact .inr ⟨rfl, List.forall_mem_cons.mpr ⟨hprot, hall⟩⟩

/-- With another one behind it, the first unprotected frame is taken when the first number is
odd. -/
theorem russianRoulette_first {before after : List Nat} {last i j : Nat}
    (hbefore : ∀ f ∈ before, (frameTable f).isProtected ≠ 0) (hi : (frameTable i).isProtected = 0)
    (hj : j ∈ after) (hprot : (frameTable j).isProtected = 0) (hnodup : i ∉ after) :
    (russianRoulette frameTable (before ++ i :: after) last prng).1 = some i ↔ prng 0 % 2 ≠ 0 := by
  induction before with
  | nil =>
    rw [List.nil_append, russianRoulette, if_pos hi]
    split
    case isTrue hodd => simp [hodd]
    case isFalse heven =>
      refine iff_of_false (fun h => ?_) heven
      rcases russianRoulette_mem h with hmem | ⟨-, hall⟩
      · exact hnodup hmem
      · exact hall j hj hprot
  | cons f before ih =>
    obtain ⟨hf, hbefore⟩ := List.forall_mem_cons.mp hbefore
    rw [List.cons_append, russianRoulette, if_neg hf]
    exact ih hbefore

theorem russianRoulette_range {n last i j : Nat} (hi : (frameTable i).isProtected = 0)
    (hfirst : ∀ k < i, (frameTable k).isProtected ≠ 0) (hij : i < j) (hjn : j < n)
    (hj : (frameTable j).isProtected = 0) :
    (russianRoulette frameTable (List.range n) last prng).1 = some i ↔ prng 0 % 2 ≠ 0 := by
  obtain ⟨before, after, hframes⟩ := List.append_of_mem (List.mem_range.mpr (hij.trans hjn))
  have hsorted : (List.range n).Pairwise (· < ·) := List.pairwise_lt_range
  rw [hframes] at hsorted ⊢
  obtain ⟨-, hafter, hbefore⟩ := List.pairwise_append.mp hsorted
  have hbelow : ∀ f ∈ before, f < i := fun f hf => hbefore f hf i (List.mem_cons_self ..)
  have habove : ∀ f ∈ after, i < f := (List.pairwise_cons.mp hafter).1
  refine russianRoulette_first (fun f hf => hfirst f (hbelow f hf)) hi ?_ hj fun hmem =>
    lt_irrefl i (habove i hmem)
  have hmem := List.mem_range.mpr hjn
  rw [hframes, List.mem_append, List.mem_cons] at hmem
  rcases hmem with hmem | rfl | hmem
  · exact absurd (hbelow j hmem) hij.not_gt
  · exact absurd hij (lt_irrefl _)
  · exact hmem

/-- With every frame taken, the victim is that of the second loop. -/
theorem selectVictimFrame_full {s : State} (hfull : firstFree s.frameTable = none)
    (hrandom : s.replacement = .random) :
    (selectVictimFrame s).toOption.map Prod.fst =
      (russianRoulette s.frameTable (List.range (memSize / pageSize)) numFrames s.prng).1 := by
  rw [selectVictimFrame, hfull, hrandom]
  dsimp only
  split
  case h_1 heq => rw [heq]; rfl
  case h_2 heq => rw [heq]; rfl

/-- When memory is full and there are two frames to choose from, the first of them is the victim at
exactly half of the positions in the generator's period. -/
theorem first_frame_half (rng : Pcg32) {s : State} {i j : Nat}
    (hfull : firstFree s.frameTable = none) (hrandom : s.replacement = .random)
    (hi : Unprotected s.frameTable i) (hfirst : ∀ k < i, ¬ Unprotected s.frameTable k)
    (hj : Unprotected s.frameTable j) (hij : i < j) :
    (tally (Finset.range (2 ^ 64)) fun n =>
      (selectVictimFrame { s with prng := prngFrom rng n }).toOption.map Prod.fst = some i) =
        2 ^ 63 := by
  have hprotected : ∀ k < i, (s.frameTable k).isProtected ≠ 0 := fun k hk hprot =>
    hfirst k hk ⟨hk.trans hi.1, hprot⟩
  refine (tally_congr fun n _ => ?_).trans (tally_prngRand_odd rng)
  rw [selectVictimFrame_full (s := { s with prng := prngFrom rng n }) hfull hrandom]
  exact russianRoulette_range hi.2 hprotected hij hj.1 hj.2

/-- Every frame but frame 0 holds a page. -/
def fullMemory : State :=
  { State.zeroed .random (prngFrom rstate 0) with
    frameTable := Function.update (fun _ => { mapped := 1 }) 0 { isProtected := 1 } }

theorem first_frame_half_full : (tally (Finset.range (2 ^ 64)) fun n =>
    (selectVictimFrame { fullMemory with prng := prngFrom rstate n }).toOption.map Prod.fst =
      some 1) = 2 ^ 63 := by
  refine first_frame_half rstate (j := 2) ?_ rfl ⟨by decide, rfl⟩ ?_ ⟨by decide, rfl⟩ (by decide)
  · decide
  · intro k hk hfree
    obtain rfl : k = 0 := by omega
    exact absurd hfree.2 (by decide)

end ECE3056.Vm
