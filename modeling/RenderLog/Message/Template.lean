/-!
# Brace templates

A template is a text in which a pair of braces stands for a value and a
doubled brace for one brace. Reading cuts it into the literal segments around
its placeholders; writing doubles the braces of the segments and joins them by
placeholders. Well-formedness and the number of placeholders are decided on
the bytes of the text, without reading the segments.

Reading also accepts texts that are not well formed: a brace that belongs to
no pair is kept, and so is a placeholder beyond the number of values.
-/
namespace RenderLog.Template

/-- The bytes of a text; a brace is one byte and no part of another character. -/
def bytes (cs : List Char) : List UInt8 := cs.flatMap String.utf8EncodeChar

/-- Every brace belongs to a doubled brace or to a placeholder. -/
def bracesPair : List UInt8 → Bool
  | [] => true
  | [b] => decide (b ≠ 0x7b ∧ b ≠ 0x7d)
  | b :: d :: rest =>
    if b = 0x7b then decide (d = 0x7b ∨ d = 0x7d) && bracesPair rest
    else if b = 0x7d then decide (d = 0x7d) && bracesPair rest
    else bracesPair (d :: rest)

def isValid (cs : List Char) : Bool := bracesPair (bytes cs)

/-- The placeholders among bytes, whether they are well formed or not. -/
def placeholdersIn : List UInt8 → Nat
  | [] => 0
  | [_] => 0
  | b :: d :: rest =>
    if b = 0x7b ∧ d = 0x7d then placeholdersIn rest + 1
    else if b = d ∧ (b = 0x7b ∨ b = 0x7d) then placeholdersIn rest
    else placeholdersIn (d :: rest)

def placeholderCount (cs : List Char) : Nat := placeholdersIn (bytes cs)

def glue (cs : List Char) : List (List Char) → List (List Char)
  | [] => [cs]
  | segment :: rest => (cs ++ segment) :: rest

/-- The segments around the first `limit` placeholders; later ones are literal. -/
def segments (limit : Nat) : List Char → List (List Char)
  | [] => [[]]
  | [c] => [[c]]
  | c :: d :: rest =>
    if c = '\x7b' ∧ d = '\x7d' then
      if limit = 0 then glue ['\x7b', '\x7d'] (segments 0 rest)
      else [] :: segments (limit - 1) rest
    else if c = d ∧ (c = '\x7b' ∨ c = '\x7d') then glue [c] (segments limit rest)
    else glue [c] (segments limit (d :: rest))

def escape (cs : List Char) : List Char :=
  cs.flatMap fun c => if c = '\x7b' ∨ c = '\x7d' then [c, c] else [c]

/-- The template whose segments are the given ones. -/
def ofSegments : List (List Char) → List Char
  | [] => []
  | [segment] => escape segment
  | segment :: rest => escape segment ++ '\x7b' :: '\x7d' :: ofSegments rest

end RenderLog.Template
