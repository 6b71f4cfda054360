import RenderLog.Number.Binary

/-!
# Shortest decimals

The decimal with the fewest digits that reads back as a given binary number:
it lies in the interval of reals that round to the number, whose ends belong
to it when the significand is even. Among decimals of equally few digits the
nearest is taken and an exact tie goes to the even coefficient.

All comparisons are between natural numbers. The number and the ends of its
interval are counted in quarters of its last place, and a count on a decimal
grid is compared with them after both are scaled to a common unit.
-/
namespace RenderLog.Number

variable {w f : Nat}

structure Decimal where
  coefficient : Nat
  exponent : Int
  deriving DecidableEq, Repr

def digitCount (n : Nat) : Nat := (Nat.toDigits 10 n).length

/-- Number and interval in quarters of the last place, and whether the ends belong to it. -/
structure Span where
  low : Nat
  mid : Nat
  high : Nat
  closed : Bool
  scale : Int

/-- The place below a power of two is half as wide, so the interval is narrower there. -/
def Binary.span (x : Binary w f) : Span :=
  let mid := 4 * x.significand
  let below := if x.fraction.val = 0 ∧ 1 < x.exponent.val then 1 else 2
  ⟨mid - below, mid, mid + 2, x.significand % 2 == 0, x.scale - 2⟩

/-- Factors that bring a count of `10 ^ place` and a count of `2 ^ scale` to one unit. -/
def commonUnit (place scale : Int) : Nat × Nat :=
  (Nat.pow 10 place.toNat * Nat.pow 2 (-scale).toNat,
    Nat.pow 2 scale.toNat * Nat.pow 10 (-place).toNat)

/-- Whether `count * 10 ^ place` rounds to the number. -/
def Span.holds (s : Span) (place : Int) (count : Nat) : Bool :=
  let unit := commonUnit place s.scale
  let point := count * unit.1
  if s.closed then decide (s.low * unit.2 ≤ point ∧ point ≤ s.high * unit.2)
  else decide (s.low * unit.2 < point ∧ point < s.high * unit.2)

/-- The neighbour of the number on the grid of `10 ^ place` that is nearer to it. -/
def Span.nearest (s : Span) (place : Int) : Nat :=
  let unit := commonUnit place s.scale
  let count := s.mid * unit.2 / unit.1
  let rest := 2 * (s.mid * unit.2 % unit.1)
  if rest < unit.1 ∨ rest = unit.1 ∧ count % 2 = 0 then count else count + 1

def Span.onGrid? (s : Span) (place : Int) : Option Nat :=
  let unit := commonUnit place s.scale
  let floor := s.mid * unit.2 / unit.1
  let near := s.nearest place
  let far := if near = floor then floor + 1 else floor
  if s.holds place near then some near
  else if s.holds place far then some far
  else none

def Span.magnitude (s : Span) : Int :=
  let num := s.mid * Nat.pow 2 s.scale.toNat
  let den := Nat.pow 2 (-s.scale).toNat
  if den ≤ num then (digitCount (num / den) : Int) - 1
  else -(digitCount ((den + num - 1) / num - 1) : Int)

/-- Moves trailing zeros of the coefficient into the exponent, as many as given at most. -/
def Decimal.strip : Nat → Decimal → Decimal
  | 0, d => d
  | zeros + 1, d =>
    if d.coefficient ≠ 0 ∧ d.coefficient % 10 = 0 then
      Decimal.strip zeros ⟨d.coefficient / 10, d.exponent + 1⟩
    else d

/-- Tries grids of one more digit each, `tries` at most. -/
def Span.search (s : Span) (place : Int) : Nat → Decimal
  | 0 => ⟨s.nearest place, place⟩
  | tries + 1 =>
    match s.onGrid? place with
    | some count => ⟨count, place⟩
    | none => s.search (place - 1) tries

/-- Seventeen digits tell any two numbers of 53 significant bits apart. -/
def maxDigits : Nat := 17

def Binary64.shortest (x : Binary64) : Decimal :=
  if x.isZero then ⟨0, 0⟩
  else Decimal.strip maxDigits (x.span.search x.span.magnitude (maxDigits - 1))

end RenderLog.Number
