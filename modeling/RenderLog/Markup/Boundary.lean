import RenderLog.Text.Blank

/-!
# Boundaries of words

A marker opens only after a boundary and closes only before one, so that
`*word*` is emphasised and `a*b*c` is not. The ends of a segment, blanks and
the listed punctuation are boundaries.
-/
namespace RenderLog.Markup

def separators : List Char :=
  ['-', '–', '—', '!', '$', '%', '^', '&', '*', '(', ')', '_', '+', '|', '~', '=', '\x60',
   '\x7b', '\x7d', '[', ']', ':', '/', '\x5c', '\x22', '\x27', '“', '”', '‘', '’', ';', '<',
   '>', '?', ',', '.', '@', '#']

/-- No character stands for the start or the end of a segment. -/
def isBoundary : Option Char → Bool
  | none => true
  | some c => Text.isBlank c || separators.contains c

end RenderLog.Markup
