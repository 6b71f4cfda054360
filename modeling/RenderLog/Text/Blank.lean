/-!
# Blank characters

The characters of the Unicode property White_Space, kept as ranges of code
points, and trimming by that property. Core's `Char.isWhitespace` knows only
the four blanks of ASCII text, so the wider class is a table of its own.
-/
namespace RenderLog.Text

/-- White_Space as closed ranges of code points in ascending order. -/
def blankRanges : List (Nat × Nat) :=
  [(0x09, 0x0d), (0x20, 0x20), (0x85, 0x85), (0xa0, 0xa0), (0x1680, 0x1680),
   (0x2000, 0x200a), (0x2028, 0x2029), (0x202f, 0x202f), (0x205f, 0x205f),
   (0x3000, 0x3000)]

def isBlank (c : Char) : Bool :=
  blankRanges.any fun range => decide (range.1 ≤ c.toNat ∧ c.toNat ≤ range.2)

/-- Drops the blanks at both ends. -/
def trim (cs : List Char) : List Char :=
  ((cs.dropWhile isBlank).reverse.dropWhile isBlank).reverse

/-- Upper-case ASCII letters become lower case and every other character stays. -/
def lower (cs : List Char) : List Char := cs.map Char.toLower

end RenderLog.Text
