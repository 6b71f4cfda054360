import Mathlib.Algebra.Order.Field.Power
import Mathlib.Algebra.Order.Field.Rat
import Mathlib.Tactic.FieldSimp
import Mathlib.Tactic.Linarith
import Mathlib.Tactic.NormNum
import Mathlib.Tactic.Positivity
import Mathlib.Tactic.Ring
import RenderLog.Number.Binary

/-!
# Numbers that encodings stand for

A binary floating-point number is a whole number of the least units of its format. That
number of units fixes the exponent and the fraction, so two finite numbers are equal exactly
when they have the same fields or are the two zeros. This is what the comparison of fields
decides.

The fields of an encoding stand for the number that the interchange format gives it, and a
number of the narrow format is the same number in the wide one.
-/
namespace RenderLog.Number

variable {w f : Nat}

/-- The place of the least unit of a format. -/
def leastPlace (w f : Nat) : Int := 1 - (2 ^ (w - 1) - 1 + f : Nat)

/-- The number that an encoding stands for: with an exponent field of zero a multiple of the least
unit, with one of all ones none, and otherwise a significand between one and two. -/
def encoded? (w f bits : Nat) : Option ℚ :=
  let sign : ℚ := if bits / 2 ^ (w + f) % 2 = 1 then -1 else 1
  let exponent : Nat := bits / 2 ^ f % 2 ^ w
  let fraction : ℚ := (bits % 2 ^ f : Nat) / 2 ^ f
  let bias : Int := (2 ^ (w - 1) - 1 : Nat)
  if exponent = 2 ^ w - 1 then none
  else some (sign * (if exponent = 0 then fraction * 2 ^ (1 - bias)
    else (1 + fraction) * 2 ^ (exponent - bias)))

namespace Binary

def sign (x : Binary w f) : ℚ := if x.negative then -1 else 1

def toRat (x : Binary w f) : ℚ := x.sign * (x.significand * 2 ^ x.scale)

/-- The absolute value, counted in the least units of the format. -/
def units (x : Binary w f) : Nat := x.significand * 2 ^ (max x.exponent.val 1 - 1)

section Units
variable (x y : Binary w f)

theorem significand_eq : x.significand =
    if x.exponent.val = 0 then x.fraction.val else 2 ^ f + x.fraction.val := rfl

theorem fraction_lt : x.fraction.val < 2 ^ f := x.fraction.isLt

theorem isZero_iff : x.isZero = true ↔ x.exponent.val = 0 ∧ x.fraction.val = 0 :=
  decide_eq_true_iff

theorem scale_eq : x.scale = (max x.exponent.val 1 - 1 : Nat) + leastPlace w f := by
  have hscale : x.scale = (max x.exponent.val 1 : Nat) - (2 ^ (w - 1) - 1 + f : Nat) := rfl
  rw [hscale, leastPlace]
  omega

theorem toRat_eq_units : x.toRat = x.sign * (x.units * 2 ^ leastPlace w f) := by
  rw [toRat, scale_eq, zpow_add₀ (by norm_num), zpow_natCast, units]
  push_cast
  ring

theorem significand_lt : x.significand < 2 ^ (f + 1) := by
  have hf := x.fraction_lt
  rw [significand_eq, pow_succ]
  split <;> omega

theorem le_significand {x : Binary w f} (h : x.exponent.val ≠ 0) : 2 ^ f ≤ x.significand := by
  rw [significand_eq, if_neg h]
  exact Nat.le_add_right _ _

/-- A number with a higher place has more units. -/
theorem units_lt {x y : Binary w f} (h : max x.exponent.val 1 < max y.exponent.val 1) :
    x.units < y.units := by
  have hy : 2 ^ f ≤ y.significand := le_significand (by omega)
  obtain ⟨d, hd⟩ : ∃ d, max y.exponent.val 1 - 1 = max x.exponent.val 1 - 1 + 1 + d :=
    Nat.exists_eq_add_of_le (by omega)
  calc x.units < 2 ^ (f + 1) * 2 ^ (max x.exponent.val 1 - 1) :=
        Nat.mul_lt_mul_of_pos_right (significand_lt x) (by positivity)
    _ = 2 ^ f * 2 ^ (max x.exponent.val 1 - 1 + 1) := by ring
    _ ≤ y.significand * 2 ^ (max y.exponent.val 1 - 1) := by
        rw [hd]
        exact Nat.mul_le_mul hy (Nat.pow_le_pow_right (by decide) (Nat.le_add_right _ _))

/-- The units fix the fields. -/
theorem fields_eq_of_units_eq {x y : Binary w f} (h : x.units = y.units) :
    x.exponent = y.exponent ∧ x.fraction = y.fraction := by
  have hplace : max x.exponent.val 1 = max y.exponent.val 1 := by
    by_contra hne
    rcases Nat.lt_or_gt_of_ne hne with hlt | hlt
    · exact absurd h (units_lt hlt).ne
    · exact absurd h (units_lt hlt).ne'
  have hsignificand : x.significand = y.significand := by
    rw [units, units, hplace] at h
    exact Nat.eq_of_mul_eq_mul_right (by positivity) h
  have hx := x.fraction_lt
  have hy := y.fraction_lt
  rw [significand_eq, significand_eq] at hsignificand
  constructor
  · apply Fin.ext
    split at hsignificand <;> split at hsignificand <;> omega
  · apply Fin.ext
    split at hsignificand <;> split at hsignificand <;> omega

theorem units_eq_zero_iff : x.units = 0 ↔ x.isZero = true := by
  have hpos : 0 < 2 ^ f := by positivity
  rw [units, Nat.mul_eq_zero, significand_eq, isZero_iff]
  constructor
  · rintro (hs | hp)
    · split at hs <;> omega
    · exact absurd hp (by positivity)
  · rintro ⟨he, hf⟩
    exact .inl (by rw [if_pos he, hf])

theorem eq_of_units_eq {x y : Binary w f} (hs : x.negative = y.negative) (h : x.units = y.units) :
    x = y := by
  obtain ⟨he, hf⟩ := fields_eq_of_units_eq h
  obtain ⟨sx, ex, fx⟩ := x
  obtain ⟨sy, ey, fy⟩ := y
  simp only at hs he hf
  rw [hs, he, hf]

/-- Equal fields, or two zeros: that is equality of numbers. -/
theorem same_iff_toRat_eq : x.same y = true ↔ x.toRat = y.toRat := by
  have hunit : (2 : ℚ) ^ leastPlace w f ≠ 0 := by positivity
  rw [same, Bool.or_eq_true, decide_eq_true_iff, Bool.and_eq_true, ← units_eq_zero_iff,
    ← units_eq_zero_iff]
  constructor
  · rintro (rfl | ⟨hx, hy⟩)
    · rfl
    · rw [toRat_eq_units, toRat_eq_units, hx, hy]
      simp
  · intro h
    rw [toRat_eq_units, toRat_eq_units, ← mul_assoc, ← mul_assoc] at h
    have hcount := mul_right_cancel₀ hunit h
    have hx : (0 : ℚ) ≤ x.units := Nat.cast_nonneg _
    have hy : (0 : ℚ) ≤ y.units := Nat.cast_nonneg _
    by_cases hs : x.negative = y.negative
    · left
      apply eq_of_units_eq hs
      have hne : y.sign ≠ 0 := by
        rw [sign]
        split <;> norm_num
      rw [sign, hs, ← sign] at hcount
      exact_mod_cast mul_left_cancel₀ hne hcount
    · right
      have hopposite : (x.units : ℚ) = -y.units := by
        rw [sign, sign] at hcount
        cases hnx : x.negative <;> cases hny : y.negative <;> simp_all
      constructor
      · exact_mod_cast (by linarith : (x.units : ℚ) = 0)
      · exact_mod_cast (by linarith : (y.units : ℚ) = 0)

end Units

/-- A number with a fraction that is counted in its own place, not in the least one. -/
theorem toRat_eq (x : Binary w f) :
    x.toRat = x.sign * (if x.exponent.val = 0 then
        (x.fraction.val : ℚ) / 2 ^ f * 2 ^ (1 - ((2 ^ (w - 1) - 1 : Nat) : Int))
      else (1 + (x.fraction.val : ℚ) / 2 ^ f) *
        2 ^ ((x.exponent.val : Int) - (2 ^ (w - 1) - 1 : Nat))) := by
  have hplace : (2 : ℚ) ^ x.scale =
      2 ^ ((max x.exponent.val 1 : Nat) - ((2 ^ (w - 1) - 1 : Nat) : Int)) / 2 ^ f := by
    have hscale : x.scale =
        ((max x.exponent.val 1 : Nat) - ((2 ^ (w - 1) - 1 : Nat) : Int)) - (f : Nat) := by
      rw [scale_eq, leastPlace]
      omega
    rw [hscale, zpow_sub₀ (by norm_num), zpow_natCast]
  rw [toRat, hplace, significand_eq]
  by_cases he : x.exponent.val = 0
  · rw [if_pos he, if_pos he, he]
    have hone : ((max 0 1 : Nat) : Int) = 1 := rfl
    rw [hone]
    ring
  · rw [if_neg he, if_neg he, Nat.max_eq_left (by omega)]
    push_cast
    field_simp

/-- The same number with its significand in smaller places. -/
theorem toRat_eq_of_shift {v g : Nat} {x : Binary w f} {y : Binary v g} (d : Nat)
    (hsign : y.negative = x.negative) (hsignificand : y.significand = x.significand * 2 ^ d)
    (hscale : y.scale = x.scale - d) : y.toRat = x.toRat := by
  have hplace : (2 : ℚ) ^ x.scale = 2 ^ d * 2 ^ y.scale := by
    rw [hscale, ← zpow_natCast, ← zpow_add₀ (by norm_num)]
    congr 1
    omega
  rw [toRat, toRat, sign, sign, hsign, hsignificand, hplace]
  push_cast
  ring

theorem toRat_of_isZero {x : Binary w f} (h : x.isZero = true) : x.toRat = 0 := by
  rw [toRat_eq_units, (units_eq_zero_iff x).mpr h]
  simp

end Binary

/-- The fields of an encoding are those of the number that it stands for. -/
theorem map_toRat_ofBits? (w f bits : Nat) :
    (Binary.ofBits? w f bits).map Binary.toRat = encoded? w f bits := by
  have hlt : bits / 2 ^ f % 2 ^ w < 2 ^ w := Nat.mod_lt _ (by positivity)
  rw [Binary.ofBits?, encoded?]
  by_cases hall : bits / 2 ^ f % 2 ^ w = 2 ^ w - 1
  · rw [dif_neg (by simp only [Nat.pow_eq]; omega), if_pos hall]
    rfl
  · rw [dif_pos (by simp only [Nat.pow_eq]; omega), if_neg hall, Option.map_some,
      Binary.toRat_eq, Binary.sign]
    simp only [Nat.pow_eq, decide_eq_true_eq]

/-- A fraction without a leading bit is moved up to its highest bit. -/
theorem shift_highest {n : Nat} (h : n ≠ 0) (hle : n.log2 ≤ 52) :
    2 ^ 52 + n % 2 ^ n.log2 * 2 ^ (52 - n.log2) = n * 2 ^ (52 - n.log2) := by
  have hlow : 2 ^ n.log2 ≤ n := Nat.log2_self_le h
  have hhigh : n < 2 ^ n.log2 + 2 ^ n.log2 := by
    rw [← Nat.two_mul, ← Nat.pow_succ']
    exact Nat.lt_log2_self
  have hmod : n = 2 ^ n.log2 + n % 2 ^ n.log2 := by
    rw [Nat.mod_eq_sub_mod hlow, Nat.mod_eq_of_lt (by omega)]
    omega
  have hpow : 2 ^ 52 = 2 ^ n.log2 * 2 ^ (52 - n.log2) := by
    rw [← Nat.pow_add, Nat.add_sub_cancel' hle]
  rw [hpow, ← Nat.add_mul, ← hmod]

theorem scale_binary32 (x : Binary32) : x.scale = (max x.exponent.val 1 : Nat) - 150 := rfl

theorem scale_binary64 (x : Binary64) : x.scale = (max x.exponent.val 1 : Nat) - 1075 := rfl

/-- A number of the narrow format is the same one in the wide format. -/
theorem toRat_widen (x : Binary32) : (Binary32.widen x).toRat = x.toRat := by
  by_cases hzero : x.isZero = true
  · have hwide : (Binary32.widen x).isZero = true := by
      rw [Binary32.widen, if_pos hzero]
      rfl
    rw [Binary.toRat_of_isZero hwide, Binary.toRat_of_isZero hzero]
  · by_cases he : x.exponent.val = 0
    · have hf : x.fraction.val ≠ 0 := fun h => hzero (x.isZero_iff.mpr ⟨he, h⟩)
      have hle := log2_fraction_le x
      apply Binary.toRat_eq_of_shift (52 - x.fraction.val.log2)
      · rw [Binary32.widen, if_neg hzero, if_pos he]
      · rw [Binary32.widen, if_neg hzero, if_pos he, Binary.significand_eq, Binary.significand_eq,
          if_pos he, if_neg (Nat.succ_ne_zero _)]
        exact shift_highest hf (by omega)
      · rw [Binary32.widen, if_neg hzero, if_pos he, scale_binary64, scale_binary32, he]
        simp only
        omega
    · apply Binary.toRat_eq_of_shift 29
      · rw [Binary32.widen, if_neg hzero, if_neg he]
      · rw [Binary32.widen, if_neg hzero, if_neg he, Binary.significand_eq, Binary.significand_eq,
          if_neg he, if_neg (Nat.succ_ne_zero _), Nat.add_mul]
        rfl
      · rw [Binary32.widen, if_neg hzero, if_neg he, scale_binary64, scale_binary32]
        simp only
        omega

end RenderLog.Number
