/-!
# Quoted text

A text as a JSON string. The quote, the backslash and the five control
characters with a letter of their own are written as a backslash and one
character, the other control characters by their code in four hexadecimal
digits, and everything else stands for itself.
-/
namespace RenderLog.Text

/-- Characters written as a backslash and the character beside them. -/
def shortEscapes : List (Char × Char) :=
  [('\x22', '\x22'), ('\x5c', '\x5c'), ('\x08', 'b'), ('\x0c', 'f'), ('\x0a', 'n'),
   ('\x0d', 'r'), ('\x09', 't')]

/-- Written form of one character between the quotes. -/
def escape (c : Char) : List Char :=
  match shortEscapes.lookup c with
  | some letter => ['\x5c', letter]
  | none =>
    if c.toNat < 0x20 then
      ['\x5c', 'u', '0', '0', Nat.digitChar (c.toNat / 16), Nat.digitChar (c.toNat % 16)]
    else [c]

def quoted (cs : List Char) : List Char :=
  '\x22' :: cs.flatMap escape ++ ['\x22']

end RenderLog.Text
