/-!
# Lexemes of a segment

A segment is cut into marks and plain characters from left to right. A doubled
asterisk or underscore is the mark of bold text, a single one that of italic
text, a backtick that of code. The cut depends on the segment alone: whether a
mark switches anything is decided later.
-/
namespace RenderLog.Markup

inductive Marker where
  | bold | italic | code
  deriving DecidableEq, Repr

inductive Lexeme where
  | plain (c : Char)
  | mark (m : Marker) (sign : Char)
  deriving DecidableEq, Repr

namespace Lexeme

/-- The character that the lexeme starts with and, when doubled, ends with. -/
def sign : Lexeme → Char
  | .plain c => c
  | .mark _ c => c

def chars : Lexeme → List Char
  | .mark .bold c => [c, c]
  | l => [l.sign]

/-- The lexeme of a character that is not doubled. -/
def ofChar (c : Char) : Lexeme :=
  if c = '*' ∨ c = '_' then .mark .italic c
  else if c = '\x60' then .mark .code c
  else .plain c

end Lexeme

def lexemes : List Char → List Lexeme
  | [] => []
  | [c] => [.ofChar c]
  | c :: d :: rest =>
    if c = d ∧ (c = '*' ∨ c = '_') then .mark .bold c :: lexemes rest
    else .ofChar c :: lexemes (d :: rest)

/-- Nothing is lost by the cut. -/
theorem flatMap_chars_lexemes (cs : List Char) : (lexemes cs).flatMap Lexeme.chars = cs := by
  have single (c : Char) : (Lexeme.ofChar c).chars = [c] := by
    unfold Lexeme.ofChar
    split
    · rfl
    · split <;> rfl
  fun_induction lexemes cs with
  | case1 => rfl
  | case2 c => simp [single]
  | case3 c d rest h ih => simp [ih, Lexeme.chars, h.1]
  | case4 c d rest h ih => simp [ih, single]

end RenderLog.Markup
