import Mathlib.Data.BitVec
import Mathlib.Tactic

/-!
# Splitting a 64-bit address by shifts

An address is split into offset, index and tag by shifting left and right again.
These lemmas read the shifts as division and remainder, for arbitrary field
widths that leave at least one bit below the tag.
-/
namespace ECE3056.AddressSplit

/-- The low `64 - tagSize` bits, by a left and a right shift. -/
def low (tagSize : Nat) (a : BitVec 64) : BitVec 64 := (a <<< tagSize) >>> tagSize

/-- The index field: the low bits without the offset. -/
def index (tagSize offsetSize : Nat) (a : BitVec 64) : Nat :=
  (low tagSize a >>> offsetSize).toNat

/-- The tag field: everything above `width` bits. -/
def tag (width : Nat) (a : BitVec 64) : BitVec 64 := a >>> width

/-- The number of the block an address lies in. -/
def block (offsetSize : Nat) (a : BitVec 64) : Nat := a.toNat / 2 ^ offsetSize

theorem low_toNat {width : Nat} (hw : width ≤ 64) (a : BitVec 64) :
    (low (64 - width) a).toNat = a.toNat % 2 ^ width := by
  have hsplit : (2 : Nat) ^ 64 = 2 ^ width * 2 ^ (64 - width) := by
    rw [← pow_add]; congr 1; omega
  rw [low, BitVec.toNat_ushiftRight, BitVec.toNat_shiftLeft, Nat.shiftLeft_eq,
    Nat.shiftRight_eq_div_pow, hsplit, Nat.mul_mod_mul_right, Nat.mul_div_cancel _ (by positivity)]

theorem tag_toNat (width : Nat) (a : BitVec 64) : (tag width a).toNat = a.toNat / 2 ^ width := by
  rw [tag, BitVec.toNat_ushiftRight, Nat.shiftRight_eq_div_pow]

theorem index_eq (indexSize offsetSize : Nat) (hw : indexSize + offsetSize ≤ 64) (a : BitVec 64) :
    index (64 - indexSize - offsetSize) offsetSize a = block offsetSize a % 2 ^ indexSize := by
  rw [index, BitVec.toNat_ushiftRight, Nat.sub_sub, low_toNat hw, Nat.shiftRight_eq_div_pow,
    Nat.add_comm, pow_add, Nat.mod_mul_right_div_self, block]

theorem tag_eq (indexSize offsetSize : Nat) (a : BitVec 64) :
    (tag (indexSize + offsetSize) a).toNat = block offsetSize a / 2 ^ indexSize := by
  rw [tag_toNat, block, Nat.div_div_eq_div_mul, ← pow_add, Nat.add_comm]

theorem index_lt (indexSize offsetSize : Nat) (hw : indexSize + offsetSize ≤ 64) (a : BitVec 64) :
    index (64 - indexSize - offsetSize) offsetSize a < 2 ^ indexSize := by
  rw [index_eq _ _ hw]
  exact Nat.mod_lt _ (by positivity)

/-- Once a bit is shifted out, the all-ones word is not a tag. -/
theorem tag_ne_allOnes {width : Nat} (hw : 1 ≤ width) (a : BitVec 64) : tag width a ≠ -1 := by
  intro h
  have ht := congrArg BitVec.toNat h
  rw [tag_toNat] at ht
  have hlt : a.toNat / 2 ^ width < 2 ^ 63 := by
    rw [Nat.div_lt_iff_lt_mul (by positivity)]
    calc a.toNat < 2 ^ 63 * 2 ^ 1 := a.isLt
      _ ≤ 2 ^ 63 * 2 ^ width := Nat.mul_le_mul_left _ (Nat.pow_le_pow_right (by decide) hw)
  have hones : (-1 : BitVec 64).toNat = 2 ^ 64 - 1 := by decide
  omega

/-- Tag and index together determine the block and nothing more. -/
theorem split_eq_iff (indexSize offsetSize : Nat) (hw : indexSize + offsetSize ≤ 64)
    (a b : BitVec 64) :
    (tag (indexSize + offsetSize) a = tag (indexSize + offsetSize) b ∧
      index (64 - indexSize - offsetSize) offsetSize a =
        index (64 - indexSize - offsetSize) offsetSize b) ↔
      block offsetSize a = block offsetSize b := by
  rw [← BitVec.toNat_inj, tag_eq, tag_eq, index_eq _ _ hw, index_eq _ _ hw]
  constructor
  · rintro ⟨hq, hr⟩
    rw [← Nat.div_add_mod (block offsetSize a) (2 ^ indexSize), hq, hr, Nat.div_add_mod]
  · intro h
    rw [h]
    exact ⟨rfl, rfl⟩

/-- An address with no bit below the tag has index 0. -/
theorem index_of_dvd {indexSize offsetSize : Nat} (hw : indexSize + offsetSize ≤ 64)
    {a : BitVec 64} (h : 2 ^ (indexSize + offsetSize) ∣ a.toNat) :
    index (64 - indexSize - offsetSize) offsetSize a = 0 := by
  rw [index, BitVec.toNat_ushiftRight, Nat.sub_sub, low_toNat hw, Nat.mod_eq_zero_of_dvd h,
    Nat.zero_shiftRight]

/-- Among such addresses the tag names the address. -/
theorem tag_inj_of_dvd {width : Nat} {a b : BitVec 64} (ha : 2 ^ width ∣ a.toNat)
    (hb : 2 ^ width ∣ b.toNat) (h : tag width a = tag width b) : a = b := by
  have ht := congrArg BitVec.toNat h
  rw [tag_toNat, tag_toNat] at ht
  apply BitVec.eq_of_toNat_eq
  rw [← Nat.div_mul_cancel ha, ht, Nat.div_mul_cancel hb]

theorem block_eq_iff {offsetSize : Nat} {a b : BitVec 64} :
    block offsetSize a = block offsetSize b ↔ a >>> offsetSize = b >>> offsetSize := by
  rw [← BitVec.toNat_inj, BitVec.toNat_ushiftRight, BitVec.toNat_ushiftRight,
    Nat.shiftRight_eq_div_pow, Nat.shiftRight_eq_div_pow, block, block]

/-- The index stays below `max`, and index and tag name the block and nothing more. -/
structure Exact (max offsetSize : Nat) (index : BitVec 64 → Nat)
    (tag : BitVec 64 → BitVec 64) : Prop where
  index_lt : ∀ a, index a < max
  same_iff : ∀ a b, tag a = tag b ∧ index a = index b ↔ a >>> offsetSize = b >>> offsetSize

/-- Splitting by shifts is exact for any number of indices that the index field can name. -/
theorem split_exact {indexSize offsetSize max : Nat} (hw : indexSize + offsetSize ≤ 64)
    (hmax : 2 ^ indexSize ≤ max) :
    Exact max offsetSize (index (64 - indexSize - offsetSize) offsetSize)
      (tag (indexSize + offsetSize)) where
  index_lt a := (index_lt indexSize offsetSize hw a).trans_le hmax
  same_iff a b := (split_eq_iff indexSize offsetSize hw a b).trans block_eq_iff

end ECE3056.AddressSplit
