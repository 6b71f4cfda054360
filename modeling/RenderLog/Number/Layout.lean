import RenderLog.Number.Shortest

/-!
# Layout of number texts

Whole numbers are written in decimal. A floating-point number is written with
its shortest digits: positionally while the exponent of the first digit lies
in a fixed range, and then always with a fraction digit, otherwise in
scientific notation with a signed exponent and a point only before further
digits. The sign of zero is kept.
-/
namespace RenderLog.Number

def natText (n : Nat) : List Char := Nat.toDigits 10 n

theorem natText_injective : Function.Injective natText := by
  intro m n h
  have hm := Nat.ofDigitChars_ten_toDigits (n := m)
  rw [show Nat.toDigits 10 m = Nat.toDigits 10 n from h, Nat.ofDigitChars_ten_toDigits] at hm
  exact hm.symm

def intText (n : Int) : List Char :=
  if n < 0 then '-' :: natText n.natAbs else natText n.natAbs

/-- The exponents of a first digit that is written positionally. -/
structure Layout where
  least : Int
  greatest : Int
  deriving DecidableEq, Repr

/-- Positional from a hundred-thousandth up to sixteen digits before the point. -/
def layout : Layout := ⟨-5, 15⟩

def positional (digits : List Char) (exponent : Int) : List Char :=
  if 0 ≤ exponent then digits ++ List.replicate exponent.toNat '0' ++ ['.', '0']
  else
    let whole := digits.length - exponent.natAbs
    if whole = 0 then '0' :: '.' :: List.replicate (exponent.natAbs - digits.length) '0' ++ digits
    else digits.take whole ++ '.' :: digits.drop whole

def scientific (digits : List Char) (first : Int) : List Char :=
  let mantissa := match digits with
    | [] => []
    | [d] => [d]
    | d :: rest => d :: '.' :: rest
  mantissa ++ 'e' :: (if first < 0 then '-' else '+') :: natText first.natAbs

def Decimal.text (l : Layout) (d : Decimal) : List Char :=
  let digits := natText d.coefficient
  let first := d.exponent + digits.length - 1
  if l.least ≤ first ∧ first ≤ l.greatest then positional digits d.exponent
  else scientific digits first

def Binary64.text (x : Binary64) : List Char :=
  if x.negative then '-' :: x.shortest.text layout else x.shortest.text layout

end RenderLog.Number
