/-!
# Finite binary floating-point numbers

A format is given by the widths of its exponent and fraction fields. A number
holds the fields themselves; the exponent field is below the all-ones pattern,
so infinities and not-a-numbers are no values of the type, while the two zeros
stay apart.
-/
namespace RenderLog.Number

structure Binary (exponentWidth fractionWidth : Nat) where
  negative : Bool
  exponent : Fin (Nat.pow 2 exponentWidth - 1)
  fraction : Fin (Nat.pow 2 fractionWidth)
  deriving DecidableEq, Repr

abbrev Binary32 := Binary 8 23

abbrev Binary64 := Binary 11 52

variable {w f : Nat}

/-- Splits an encoding into its fields; none when it encodes no finite number. -/
def Binary.ofBits? (w f bits : Nat) : Option (Binary w f) :=
  if h : bits / Nat.pow 2 f % Nat.pow 2 w < Nat.pow 2 w - 1 then
    some ⟨decide (bits / Nat.pow 2 (w + f) % 2 = 1), ⟨_, h⟩,
      ⟨bits % Nat.pow 2 f, Nat.mod_lt _ (Nat.two_pow_pos f)⟩⟩
  else none

def Binary.isZero (x : Binary w f) : Bool :=
  decide (x.exponent.val = 0 ∧ x.fraction.val = 0)

/-- Numerical equality: the encoding is unique except for the sign of zero. -/
def Binary.same (x y : Binary w f) : Bool :=
  decide (x = y) || (x.isZero && y.isZero)

/-- The whole number that is scaled by a power of two; the leading bit is implicit
unless the exponent field is zero. -/
def Binary.significand (x : Binary w f) : Nat :=
  if x.exponent.val = 0 then x.fraction.val else Nat.pow 2 f + x.fraction.val

/-- Power of two that scales the significand. -/
def Binary.scale (x : Binary w f) : Int :=
  (max x.exponent.val 1 : Nat) - (Nat.pow 2 (w - 1) - 1 + f : Nat)

theorem fraction_bound {n k : Nat} (h : k ≤ 52) :
    n % Nat.pow 2 k * Nat.pow 2 (52 - k) < Nat.pow 2 52 := by
  have hs : k + (52 - k) = 52 := Nat.add_sub_cancel' h
  have hp : Nat.pow 2 k * Nat.pow 2 (52 - k) = Nat.pow 2 52 :=
    (Nat.pow_add 2 k (52 - k)).symm.trans (congrArg (Nat.pow 2) hs)
  rw [← hp]
  exact Nat.mul_lt_mul_of_pos_right (Nat.mod_lt _ (Nat.two_pow_pos k)) (Nat.two_pow_pos _)

theorem log2_fraction_le (x : Binary32) : x.fraction.val.log2 ≤ 22 := by
  by_cases h : x.fraction.val = 0
  · rw [h]; decide
  · have hlt : x.fraction.val.log2 < 23 := (Nat.log2_lt h).mpr x.fraction.isLt
    omega

/-- The same number in the wider format. A fraction without implicit leading bit
is shifted until its highest bit becomes the implicit one. -/
def Binary32.widen (x : Binary32) : Binary64 :=
  if x.isZero then ⟨x.negative, ⟨0, by decide⟩, ⟨0, by decide⟩⟩
  else if x.exponent.val = 0 then
    let high := x.fraction.val.log2
    have hh : high ≤ 22 := log2_fraction_le x
    have he : high + 874 < 2047 := by omega
    ⟨x.negative, ⟨high + 874, he⟩,
      ⟨x.fraction.val % Nat.pow 2 high * Nat.pow 2 (52 - high), fraction_bound (by omega)⟩⟩
  else
    have he : x.exponent.val < 255 := x.exponent.isLt
    have hf : x.fraction.val < 8388608 := x.fraction.isLt
    have he' : x.exponent.val + 896 < 2047 := by omega
    have hf' : x.fraction.val * 536870912 < 4503599627370496 := by omega
    ⟨x.negative, ⟨x.exponent.val + 896, he'⟩, ⟨x.fraction.val * Nat.pow 2 29, hf'⟩⟩

end RenderLog.Number
