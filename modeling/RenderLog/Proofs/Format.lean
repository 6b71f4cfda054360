import RenderLog.Line.Draft

/-!
# Reading formats back

A format spells a sequence of symbols: characters that are shown, the percent
sign among them, and directives. Reading goes from left to right and refuses a
percent sign that starts neither a directive nor a doubled percent sign. Every
sequence of symbols is read back from its spelling, so no literal text can be
mistaken for a directive.

A draft is described by symbols whose directives hold their arguments. Each
operation on drafts appends symbols and changes none that are there.
-/
namespace RenderLog

/-- A directive without its argument. -/
inductive Directive where
  | style | object
  deriving DecidableEq, Repr

def Directive.letter : Directive → Char
  | .style => 'c'
  | .object => 'o'

/-- The directive that consumes the argument. -/
def Arg.directive : Arg → Directive
  | .style _ => .style
  | .object _ => .object

inductive Symbol (α : Type) where
  | shown (c : Char)
  | directive (a : α)
  deriving DecidableEq, Repr

namespace Symbol
variable {α β : Type}

def map (f : α → β) : Symbol α → Symbol β
  | .shown c => .shown c
  | .directive a => .directive (f a)

def directive? : Symbol α → Option α
  | .shown _ => none
  | .directive a => some a

@[simp] theorem directive?_shown (c : Char) : (shown c : Symbol α).directive? = none := rfl

@[simp] theorem directive?_directive (a : α) : (directive a).directive? = some a := rfl

@[simp] theorem directive?_map (f : α → β) (s : Symbol α) :
    (s.map f).directive? = s.directive?.map f := by
  cases s <;> rfl

/-- Spelling of a symbol in a format. -/
def chars : Symbol Directive → List Char
  | .shown c => if c = '%' then ['%', '%'] else [c]
  | .directive d => ['%', d.letter]

end Symbol

def spell (symbols : List (Symbol Directive)) : List Char := symbols.flatMap Symbol.chars

@[simp] theorem spell_nil : spell [] = [] := rfl

@[simp] theorem spell_cons (s : Symbol Directive) (rest : List (Symbol Directive)) :
    spell (s :: rest) = s.chars ++ spell rest := rfl

@[simp] theorem spell_append (first second : List (Symbol Directive)) :
    spell (first ++ second) = spell first ++ spell second := by
  simp only [spell, List.flatMap_append]

theorem spell_map_shown (cs : List Char) :
    spell (cs.map Symbol.shown) = Draft.escapePercent cs := by
  induction cs with
  | nil => rfl
  | cons c cs ih =>
      rw [List.map_cons, spell_cons, ih]
      rfl

theorem map_map_shown {α β : Type} (f : α → β) (cs : List Char) :
    (cs.map Symbol.shown).map (Symbol.map f) = cs.map Symbol.shown := by
  rw [List.map_map]
  rfl

theorem filterMap_shown {α : Type} (cs : List Char) :
    (cs.map (Symbol.shown (α := α))).filterMap Symbol.directive? = [] := by
  simp [List.filterMap_eq_nil_iff]

/-- The symbols of a format, none when some percent sign belongs to no symbol. -/
def readFormat : List Char → Option (List (Symbol Directive))
  | [] => some []
  | [c] => if c = '%' then none else some [.shown c]
  | c :: d :: rest =>
    if c ≠ '%' then (readFormat (d :: rest)).map (.shown c :: ·)
    else if d = '%' then (readFormat rest).map (.shown '%' :: ·)
    else if d = 'c' then (readFormat rest).map (.directive .style :: ·)
    else if d = 'o' then (readFormat rest).map (.directive .object :: ·)
    else none

theorem readFormat_cons_of_ne {c : Char} (h : c ≠ '%') (rest : List Char) :
    readFormat (c :: rest) = (readFormat rest).map (.shown c :: ·) := by
  cases rest with
  | nil => simp [readFormat, h]
  | cons d rest => simp [readFormat, h]

theorem readFormat_directive (d : Directive) (rest : List Char) :
    readFormat ('%' :: d.letter :: rest) = (readFormat rest).map (.directive d :: ·) := by
  cases d <;> simp [readFormat, Directive.letter]

/-- Spelling is unambiguous. -/
theorem readFormat_spell (symbols : List (Symbol Directive)) :
    readFormat (spell symbols) = some symbols := by
  induction symbols with
  | nil => rfl
  | cons s rest ih =>
      rw [spell_cons]
      cases s with
      | shown c =>
          by_cases h : c = '%'
          · subst h
            simp [Symbol.chars, readFormat, ih]
          · simp only [Symbol.chars, h, if_false, List.singleton_append]
            rw [readFormat_cons_of_ne h, ih, Option.map_some]
      | directive d =>
          simp only [Symbol.chars, List.cons_append, List.nil_append]
          rw [readFormat_directive, ih, Option.map_some]

theorem countDirectives_cons_of_ne {c : Char} (h : c ≠ '%') (rest : List Char) :
    countDirectives (c :: rest) = countDirectives rest := by
  cases rest with
  | nil => rfl
  | cons d rest => simp [countDirectives, h]

/-- The count sees every directive and nothing else. -/
theorem countDirectives_spell (symbols : List (Symbol Directive)) :
    countDirectives (spell symbols) = (symbols.filterMap Symbol.directive?).length := by
  induction symbols with
  | nil => rfl
  | cons s rest ih =>
      rw [spell_cons]
      cases s with
      | shown c =>
          by_cases h : c = '%'
          · subst h
            simp [Symbol.chars, countDirectives, ih, List.filterMap_cons]
          · simp only [Symbol.chars, h, if_false, List.singleton_append]
            rw [countDirectives_cons_of_ne h, ih]
            rfl
      | directive d =>
          cases d <;> simp [Symbol.chars, Directive.letter, countDirectives, ih] <;> omega

/-- A draft consists of these symbols, apart from styles held back. -/
structure Draft.Consists (d : Draft) (symbols : List (Symbol Arg)) : Prop where
  format : d.format.toList = spell (symbols.map (Symbol.map Arg.directive))
  args : d.args.toList = symbols.filterMap Symbol.directive?

namespace Draft

theorem consists_empty : empty.Consists [] := ⟨rfl, rfl⟩

/-- The directive of the styles held back. -/
def heldSymbols (d : Draft) : List (Symbol Arg) :=
  match d.held with
  | none => []
  | some css => [.directive (.style css)]

variable {d : Draft} {symbols : List (Symbol Arg)}

theorem Consists.flush (h : d.Consists symbols) :
    d.flush.Consists (symbols ++ d.heldSymbols) := by
  obtain ⟨format, args, held⟩ := d
  cases held with
  | none => simpa [Draft.flush, heldSymbols] using h
  | some css =>
      refine ⟨?_, ?_⟩
      · have hf := h.format
        simp only at hf
        simp [Draft.flush, heldSymbols, hf, Symbol.map, Symbol.chars, Arg.directive,
          Directive.letter]
      · have ha := h.args
        simp only at ha
        simp [Draft.flush, heldSymbols, ha]

theorem Consists.text (h : d.Consists symbols) (cs : List Char) :
    (d.text cs).Consists (symbols ++ d.heldSymbols ++ cs.map Symbol.shown) := by
  have hf := h.flush
  refine ⟨?_, ?_⟩
  · rw [List.map_append, spell_append, ← hf.format, map_map_shown, spell_map_shown]
    simp [Draft.text]
  · rw [List.filterMap_append, ← hf.args, filterMap_shown, List.append_nil]
    rfl

/-- A style is only held back. -/
theorem Consists.style (h : d.Consists symbols) (css : String) : (d.style css).Consists symbols :=
  ⟨h.format, h.args⟩

theorem Consists.object (h : d.Consists symbols) (o : Object) :
    (d.object o).Consists (symbols ++ d.heldSymbols ++ [.directive (.object o)]) := by
  have hf := h.flush
  refine ⟨?_, ?_⟩
  · rw [List.map_append, spell_append, ← hf.format]
    simp [Draft.object, Symbol.map, Symbol.chars, Arg.directive, Directive.letter]
  · rw [List.filterMap_append, ← hf.args]
    simp [Draft.object]

end Draft

/-- The symbols of a styled line: its format spells them and its arguments are theirs. -/
def Line.Consists : Line → List (Symbol Arg) → Prop
  | .styled format args, symbols =>
    format.toList = spell (symbols.map (Symbol.map Arg.directive)) ∧
      args = symbols.filterMap Symbol.directive?
  | .plain _, _ => False

theorem Draft.Consists.line {d : Draft} {symbols : List (Symbol Arg)} (h : d.Consists symbols) :
    d.line.Consists (symbols ++ d.heldSymbols) :=
  ⟨h.flush.format, h.flush.args⟩

/-- The styled line of some symbols. -/
def Line.ofSymbols (symbols : List (Symbol Arg)) : Line :=
  .styled (String.ofList (spell (symbols.map (Symbol.map Arg.directive))))
    (symbols.filterMap Symbol.directive?)

theorem Line.Consists.eq_ofSymbols {l : Line} {symbols : List (Symbol Arg)}
    (h : l.Consists symbols) : l = .ofSymbols symbols := by
  cases l with
  | styled format args =>
      obtain ⟨hf, ha⟩ := h
      rw [ofSymbols, ← hf, ← ha, String.ofList_toList]
  | plain pieces => exact h.elim

end RenderLog
