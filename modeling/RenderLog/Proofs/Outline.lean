import Mathlib.Data.List.Basic
import RenderLog.Proofs.Renderings

/-!
# Outlines of lines

The directives and the styles of a styled line come from the segments, from the
highlights and from the kinds of the values. The text of a primitive value, the object
that a value is and the place of the call site are put into the outline that these
leave. Nothing that is put in adds a directive, takes one away or joins two, whatever
percent signs, marks or escapes it contains.

The reason that styles do not join is that no value is written as nothing.
-/
namespace RenderLog

def Arg.style? : Arg → Option String
  | .style css => some css
  | .object _ => none

def Line.directives? (l : Line) : Option (List Directive) :=
  l.format?.bind fun format => (readFormat format.toList).map (·.filterMap Symbol.directive?)

def Line.styles (l : Line) : List String := l.args.filterMap Arg.style?

/-- Puts texts between the pieces that are kept. -/
def weave : List (List Char) → List (List Char) → List Char
  | piece :: kept, text :: texts => piece ++ (text ++ weave kept texts)
  | kept, _ => kept.flatten

theorem weave_append (cs piece : List Char) (kept texts : List (List Char)) :
    weave ((cs ++ piece) :: kept) texts = cs ++ weave (piece :: kept) texts := by
  cases texts <;> simp [weave]

/-- Styled lines with the same directives and styles, and with formats that are the same once
these texts are cut out of them. -/
structure Line.Alike (l l' : Line) (texts texts' : List (List Char)) : Prop where
  directiveCount : l.directiveCount = l'.directiveCount
  directives : ∃ directives, l.directives? = some directives ∧ l'.directives? = some directives
  styles : l.styles = l'.styles
  format : ∃ kept, kept.length = texts.length + 1 ∧ kept.length = texts'.length + 1 ∧
    l.format? = some (String.ofList (weave kept (texts.map Draft.escapePercent))) ∧
    l'.format? = some (String.ofList (weave kept (texts'.map Draft.escapePercent)))

/-- Symbols that are the same apart from these texts, none of them empty, and from objects. -/
inductive SameBut : List (List Char) → List (List Char) → List (Symbol Arg) →
    List (Symbol Arg) → Prop
  | nil : SameBut [] [] [] []
  | symbol (s : Symbol Arg) {texts texts' : List (List Char)} {rest rest' : List (Symbol Arg)} :
      SameBut texts texts' rest rest' → SameBut texts texts' (s :: rest) (s :: rest')
  | object (o o' : Object) {texts texts' : List (List Char)} {rest rest' : List (Symbol Arg)} :
      SameBut texts texts' rest rest' →
      SameBut texts texts' (.directive (.object o) :: rest) (.directive (.object o') :: rest')
  | text {cs cs' : List Char} {texts texts' : List (List Char)} {rest rest' : List (Symbol Arg)} :
      cs ≠ [] → cs' ≠ [] → SameBut texts texts' rest rest' →
      SameBut (cs :: texts) (cs' :: texts') (cs.map .shown ++ rest) (cs'.map .shown ++ rest')

namespace SameBut
variable {texts texts' more more' : List (List Char)}
  {symbols symbols' rest rest' : List (Symbol Arg)}

theorem refl (symbols : List (Symbol Arg)) : SameBut [] [] symbols symbols := by
  induction symbols with
  | nil => exact .nil
  | cons s symbols ih => exact .symbol s ih

theorem append (h : SameBut texts texts' symbols symbols') (hrest : SameBut more more' rest rest') :
    SameBut (texts ++ more) (texts' ++ more') (symbols ++ rest) (symbols' ++ rest') := by
  induction h with
  | nil => exact hrest
  | symbol s _ ih => exact .symbol s ih
  | object o o' _ ih => exact .object o o' ih
  | text hcs hcs' _ ih =>
      rw [List.append_assoc, List.append_assoc]
      exact .text hcs hcs' ih

theorem leadStyle (h : SameBut texts texts' symbols symbols') (css : String) :
    SameBut texts texts' (leadStyle css symbols) (RenderLog.leadStyle css symbols') := by
  cases h with
  | nil => exact .symbol _ .nil
  | symbol s h =>
      cases s with
      | shown c => exact .symbol _ (.symbol _ h)
      | directive a =>
          cases a with
          | style more => exact .symbol _ h
          | object o => exact .symbol _ (.symbol _ h)
  | object o o' h => exact .symbol _ (.object o o' h)
  | text hcs hcs' h =>
      obtain ⟨c, cs, rfl⟩ := List.exists_cons_of_ne_nil hcs
      obtain ⟨c', cs', rfl⟩ := List.exists_cons_of_ne_nil hcs'
      exact .symbol _ (.text hcs hcs' h)

theorem joinStyles (h : SameBut texts texts' symbols symbols') :
    SameBut texts texts' (joinStyles symbols) (RenderLog.joinStyles symbols') := by
  induction h with
  | nil => exact .nil
  | symbol s _ ih =>
      cases s with
      | shown c => exact .symbol _ ih
      | directive a =>
          cases a with
          | style css => exact ih.leadStyle css
          | object o => exact .symbol _ ih
  | object o o' _ ih => exact .object o o' ih
  | text hcs hcs' _ ih =>
      rw [Draft.joinStyles_shown, Draft.joinStyles_shown]
      exact .text hcs hcs' ih

/-- Directives stand at the same places, and those of styles bring the same ones. -/
theorem map_style?_eq (h : SameBut texts texts' symbols symbols') :
    (symbols.filterMap Symbol.directive?).map Arg.style? =
      (symbols'.filterMap Symbol.directive?).map Arg.style? := by
  induction h with
  | nil => rfl
  | symbol s _ ih =>
      rw [List.filterMap_cons, List.filterMap_cons]
      cases s with
      | shown c => exact ih
      | directive a => exact congrArg (a.style? :: ·) ih
  | object o o' _ ih => exact congrArg (none :: ·) ih
  | text _ _ _ ih =>
      simp only [List.filterMap_append, filterMap_shown, List.nil_append]
      exact ih

/-- What is spelled outside the texts is the same. -/
theorem exists_kept (h : SameBut texts texts' symbols symbols') :
    ∃ piece kept, kept.length = texts.length ∧ kept.length = texts'.length ∧
      spell (symbols.map (Symbol.map Arg.directive)) =
        weave (piece :: kept) (texts.map Draft.escapePercent) ∧
      spell (symbols'.map (Symbol.map Arg.directive)) =
        weave (piece :: kept) (texts'.map Draft.escapePercent) := by
  induction h with
  | nil => exact ⟨[], [], rfl, rfl, rfl, rfl⟩
  | symbol s _ ih =>
      obtain ⟨piece, kept, hl, hl', hs, hs'⟩ := ih
      refine ⟨(s.map Arg.directive).chars ++ piece, kept, hl, hl', ?_, ?_⟩
      · rw [List.map_cons, spell_cons, hs, weave_append]
      · rw [List.map_cons, spell_cons, hs', weave_append]
  | object o o' _ ih =>
      obtain ⟨piece, kept, hl, hl', hs, hs'⟩ := ih
      refine ⟨(Symbol.directive Directive.object).chars ++ piece, kept, hl, hl', ?_, ?_⟩
      · rw [List.map_cons, spell_cons, hs, weave_append]
        rfl
      · rw [List.map_cons, spell_cons, hs', weave_append]
        rfl
  | text _ _ _ ih =>
      obtain ⟨piece, kept, hl, hl', hs, hs'⟩ := ih
      refine ⟨[], piece :: kept, ?_, ?_, ?_, ?_⟩
      · rw [List.length_cons, List.length_cons, hl]
      · rw [List.length_cons, List.length_cons, hl']
      · rw [List.map_append, spell_append, map_map_shown, spell_map_shown, hs]
        rfl
      · rw [List.map_append, spell_append, map_map_shown, spell_map_shown, hs']
        rfl

end SameBut

theorem Line.consists_ofSymbols (symbols : List (Symbol Arg)) :
    (Line.ofSymbols symbols).Consists symbols := ⟨String.toList_ofList, rfl⟩

theorem Line.format?_ofSymbols (symbols : List (Symbol Arg)) :
    (Line.ofSymbols symbols).format? =
      some (String.ofList (spell (symbols.map (Symbol.map Arg.directive)))) := rfl

theorem Line.directiveCount_ofSymbols (symbols : List (Symbol Arg)) :
    (Line.ofSymbols symbols).directiveCount = (Line.ofSymbols symbols).args.length :=
  (consists_ofSymbols symbols).directiveCount

theorem Line.directives?_ofSymbols (symbols : List (Symbol Arg)) :
    (Line.ofSymbols symbols).directives? =
      some ((Line.ofSymbols symbols).args.map Arg.directive) := by
  have hread := (consists_ofSymbols symbols).readFormat
  have hdirectives := (consists_ofSymbols symbols).directives
  rw [directives?, format?_ofSymbols, Option.bind_some, hread, Option.map_some, hdirectives]
  rfl

theorem Arg.directive_eq (a : Arg) :
    a.directive = a.style?.elim Directive.object fun _ => Directive.style := by
  cases a <;> rfl

theorem SameBut.alike {texts texts' : List (List Char)} {symbols symbols' : List (Symbol Arg)}
    (h : SameBut texts texts' symbols symbols') :
    (Line.ofSymbols symbols).Alike (Line.ofSymbols symbols') texts texts' := by
  have hargs : (Line.ofSymbols symbols).args.map Arg.style? =
      (Line.ofSymbols symbols').args.map Arg.style? := h.map_style?_eq
  have hlength := congrArg List.length hargs
  rw [List.length_map, List.length_map] at hlength
  have hkinds : (Line.ofSymbols symbols).args.map Arg.directive =
      (Line.ofSymbols symbols').args.map Arg.directive := by
    have hmap (args : List Arg) : args.map Arg.directive =
        (args.map Arg.style?).map fun css => css.elim .object fun _ => .style := by
      rw [List.map_map]
      exact List.map_congr_left fun a _ => a.directive_eq
    rw [hmap, hmap, hargs]
  refine ⟨?_, ?_, ?_, ?_⟩
  · rw [Line.directiveCount_ofSymbols, Line.directiveCount_ofSymbols, hlength]
  · refine ⟨_, Line.directives?_ofSymbols symbols, ?_⟩
    rw [Line.directives?_ofSymbols, hkinds]
  · have hstyles (args : List Arg) : args.filterMap Arg.style? =
        (args.map Arg.style?).filterMap id := by
      rw [List.filterMap_map]
      rfl
    rw [Line.styles, Line.styles, hstyles, hstyles, hargs]
  · obtain ⟨piece, kept, hl, hl', hs, hs'⟩ := h.exists_kept
    refine ⟨piece :: kept, ?_, ?_, ?_, ?_⟩
    · rw [List.length_cons, hl]
    · rw [List.length_cons, hl']
    · rw [Line.format?_ofSymbols, hs]
    · rw [Line.format?_ofSymbols, hs']

/-- The text that is put into a line for a value; an object is none. -/
def Value.text? (v : Value) : Option (List Char) :=
  if v.isObject then none else some v.inline.toList

theorem Value.text?_of_primitive {v : Value} (h : v.object? = none) :
    v.text? = some v.inline.toList := by
  rw [text?, isObject, h]
  rfl

theorem Value.text?_of_object {v : Value} {o : Object} (h : v.object? = some o) :
    v.text? = none := by
  rw [text?, isObject, h]
  rfl

/-- Corresponding values are both objects or both primitive. -/
def SameKinds (values values' : List Value) : Prop :=
  values.map Value.isObject = values'.map Value.isObject

theorem Value.sameBut {v v' : Value} (h : v.isObject = v'.isObject) :
    SameBut v.text?.toList v'.text?.toList v.symbols v'.symbols := by
  cases hv : v.object? with
  | none =>
      have hv' : v'.object? = none := by simpa [isObject, hv] using h
      have htext := SameBut.text (inline_ne_nil hv) (inline_ne_nil hv') .nil
      rw [text?_of_primitive hv, text?_of_primitive hv', symbols_of_primitive hv,
        symbols_of_primitive hv']
      simpa using htext
  | some o =>
      have hsome : v'.object?.isSome = true := by simpa [isObject, hv] using h.symm
      obtain ⟨o', hv'⟩ := Option.isSome_iff_exists.mp hsome
      rw [text?_of_object hv, text?_of_object hv', symbols_of_object hv, symbols_of_object hv']
      exact .object o o' .nil

namespace Markup
variable {values values' : List Value} {write : Item → List (Symbol Arg)}

def Cue.texts (values : List Value) : Cue → List (List Char)
  | .event _ => []
  | .segmentEnd i => (values[i]?.bind Value.text?).toList

theorem sameBut_ofValue (hw : ∀ v, write (.value v) = v.symbols) {v v' : Value}
    (h : v.isObject = v'.isObject) (marked : Bool) :
    SameBut v.text?.toList v'.text?.toList ((Item.ofValue v marked).flatMap write)
      ((Item.ofValue v' marked).flatMap write) := by
  have hv := Value.sameBut h
  rw [← hw v, ← hw v'] at hv
  cases marked with
  | false => simpa [Item.ofValue] using hv
  | true =>
      have hend := hv.append (.refl (write (.switch .changed false)))
      have hall := (SameBut.refl (write (.switch .changed true))).append hend
      simpa [Item.ofValue] using hall

/-- One step of reading a message writes the same, apart from the text of a value. -/
theorem sameBut_cue (hw : ∀ v, write (.value v) = v.symbols) (h : SameKinds values values')
    (highlights : Highlights) (c : Cue) :
    SameBut (c.texts values) (c.texts values') ((c.items values highlights).flatMap write)
      ((c.items values' highlights).flatMap write) := by
  cases c with
  | event e => exact .refl _
  | segmentEnd i =>
      have hi := congrArg (·[i]?) h
      simp only [List.getElem?_map] at hi
      rw [Cue.texts, Cue.texts, Cue.items, Cue.items]
      cases hv : values[i]? with
      | none =>
          cases hv' : values'[i]? with
          | none => exact .nil
          | some v' => simp [hv, hv'] at hi
      | some v =>
          cases hv' : values'[i]? with
          | none => simp [hv, hv'] at hi
          | some v' =>
              rw [hv, hv'] at hi
              exact sameBut_ofValue hw (Option.some.inj hi) _

theorem sameBut_cues (hw : ∀ v, write (.value v) = v.symbols) (h : SameKinds values values')
    (highlights : Highlights) (cues : List Cue) :
    SameBut (cues.flatMap (Cue.texts values)) (cues.flatMap (Cue.texts values'))
      ((cues.flatMap (Cue.items values highlights)).flatMap write)
      ((cues.flatMap (Cue.items values' highlights)).flatMap write) := by
  induction cues with
  | nil => exact .nil
  | cons c cues ih =>
      have happend := (sameBut_cue hw h highlights c).append ih
      simpa only [List.flatMap_cons, List.flatMap_append] using happend

theorem sameBut_body (h : SameKinds values values') (highlights : Highlights) (cues : List Cue)
    (medium : Medium) :
    SameBut (cues.flatMap (Cue.texts values)) (cues.flatMap (Cue.texts values'))
      (bodySymbols (cues.flatMap (Cue.items values highlights)) medium)
      (bodySymbols (cues.flatMap (Cue.items values' highlights)) medium) := by
  cases medium with
  | terminal => exact sameBut_cues (fun _ => rfl) h highlights cues
  | console => exact (sameBut_cues (fun _ => rfl) h highlights cues).joinStyles

/-- The texts of a reading are those of the values that segments have, in order. -/
theorem flatMap_texts_cues (values : List Value) (i : Nat) (segments : List (List Event)) :
    (cuesFrom i segments).flatMap (Cue.texts values) =
      ((values.drop i).take segments.length).filterMap Value.text? := by
  have hsegment (e : List Event × Nat) :
      e.1.flatMap (fun event => Cue.texts values (.event event)) ++
          Cue.texts values (.segmentEnd e.2) =
        values[e.2]?.elim [] fun v => v.text?.toList := by
    have hevents : e.1.flatMap (fun event => Cue.texts values (.event event)) = [] := by
      simp [Cue.texts]
    rw [hevents, List.nil_append, Cue.texts]
    cases values[e.2]? <;> rfl
  rw [flatMap_cuesFrom, List.filterMap_eq_flatMap_toList, ← flatMap_zipIdx_elim]
  simp only [hsegment]

end Markup

theorem sameBut_place {place place' : String} (hp : place ≠ "") (hp' : place' ≠ "")
    (medium : Medium) :
    SameBut [place.toList] [place'.toList] (placeSymbols place medium)
      (placeSymbols place' medium) := by
  have hne : place.toList ≠ [] := by simpa using hp
  have hne' : place'.toList ≠ [] := by simpa using hp'
  have htrace : SameBut [place.toList] [place'.toList] ((traceText place).map .shown)
      ((traceText place').map .shown) := by
    simp only [traceText, List.map_append, List.append_assoc]
    exact (SameBut.refl _).append (.text hne hne' (.refl _))
  cases medium with
  | terminal =>
      rw [placeSymbols_terminal, placeSymbols_terminal, List.map_append, List.map_append,
        List.map_append, List.map_append]
      exact ((SameBut.refl _).append htrace).append (.refl _)
  | console => exact .symbol _ htrace

theorem traceSymbols_of_ne {place : String} (h : place ≠ "") (medium : Medium) :
    traceSymbols (some place) medium = placeSymbols place medium := by
  have hempty : place.isEmpty = false := by simpa using h
  simp [traceSymbols, shownTrace, Option.filter, hempty]

namespace Message

/-- Messages that differ in primitive values and in objects. -/
structure SameShape (m m' : Message) : Prop where
  segments : m.segments = m'.segments
  kinds : SameKinds m.values m'.values

/-- The texts that values and the call site put into a styled line, in order. -/
def texts (m : Message) (place : String) : List (List Char) :=
  (m.values.take m.segments.length).filterMap Value.text? ++ [place.toList]

variable {m m' : Message} {place place' : String}

theorem alike_typesetStyled (h : m.SameShape m') (highlights : Highlights) (medium : Medium)
    (hp : place ≠ "") (hp' : place' ≠ "") :
    (m.typesetStyled highlights (some place) medium).Alike
      (m'.typesetStyled highlights (some place') medium) (m.texts place) (m'.texts place') := by
  have hbody := Markup.sameBut_body h.kinds highlights (Markup.cuesFrom 0 m.events) medium
  have htexts (values : List Value) :
      (Markup.cuesFrom 0 m.events).flatMap (Markup.Cue.texts values) =
        (values.take m.segments.length).filterMap Value.text? := by
    rw [Markup.flatMap_texts_cues, List.drop_zero, events, Markup.length_eventsOfSegments]
  have hevents : m'.events = m.events := by rw [events, events, h.segments]
  have hall := hbody.append (sameBut_place hp hp' medium)
  rw [htexts, htexts, ← traceSymbols_of_ne hp, ← traceSymbols_of_ne hp'] at hall
  rw [typesetStyled_eq, typesetStyled_eq, hevents, texts, texts, ← h.segments]
  exact hall.alike

/-- Whether objects make a message plain depends on the kinds of its values. -/
theorem plainObjects_eq {values values' : List Value} (h : SameKinds values values') :
    StylingRule.plainObjects values = StylingRule.plainObjects values' := by
  have hany (values : List Value) :
      StylingRule.plainObjects values = (values.map Value.isObject).any id := by
    rw [List.any_map]
    rfl
  rw [hany, hany, h]

/-- Neither values nor the call site can change more of a line than their own texts. On a
screen that refuses styles around objects both messages lose their styles or neither does. -/
theorem alike_typeset (h : m.SameShape m') (highlights : Highlights) (medium : Medium)
    (hp : place ≠ "") (hp' : place' ≠ "") :
    (m.typeset highlights (some place) ⟨medium, .lenient⟩).Alike
        (m'.typeset highlights (some place') ⟨medium, .lenient⟩)
        (m.texts place) (m'.texts place') ∧
      ((∃ pieces pieces',
          m.typeset highlights (some place) ⟨medium, .plainObjects⟩ = .plain pieces ∧
          m'.typeset highlights (some place') ⟨medium, .plainObjects⟩ = .plain pieces') ∨
        (m.typeset highlights (some place) ⟨medium, .plainObjects⟩).Alike
          (m'.typeset highlights (some place') ⟨medium, .plainObjects⟩)
          (m.texts place) (m'.texts place')) := by
  have hstyled := alike_typesetStyled h highlights medium hp hp'
  refine ⟨hstyled, ?_⟩
  have hrule := plainObjects_eq h.kinds
  cases hr : StylingRule.plainObjects m.values with
  | true =>
      left
      have hrefuses : (⟨medium, .plainObjects⟩ : Screen).refuses m.values = true := hr
      have hrefuses' : (⟨medium, .plainObjects⟩ : Screen).refuses m'.values = true :=
        hrule.symm.trans hr
      obtain ⟨pieces, hplain⟩ := typeset_plain_of_refuses hrefuses highlights (some place)
      obtain ⟨pieces', hplain'⟩ := typeset_plain_of_refuses hrefuses' highlights (some place')
      exact ⟨pieces, pieces', hplain, hplain'⟩
  | false =>
      right
      have hr' : StylingRule.plainObjects m'.values = false := hrule.symm.trans hr
      simpa [typeset, hr, hr'] using hstyled

/-- A text, an object and a number among marks and a percent sign. -/
def mixed (text debug : String) (n : Int) : Message :=
  ⟨["a **", "** b", "100%"], [.text text, .object ⟨0, debug⟩, .int n]⟩

/-- Directives, marks and an escape sequence in the values and in the call site are nothing but
text: the line has the directives and the styles of one with harmless values. -/
theorem alike_typeset_mixed :
    (mixed "x" "o" 1).SameShape (mixed "%c ** \x60\x1b[0m" "%o%c" (-7)) ∧ "p" ≠ "" ∧ "%c)%o" ≠ "" ∧
      ((mixed "%c ** \x60\x1b[0m" "%o%c" (-7)).typeset (.ofList [0]) (some "%c)%o")
        .console).directives? = some [.style, .style, .object, .style] ∧
      ((mixed "%c ** \x60\x1b[0m" "%o%c" (-7)).typeset (.ofList [0]) (some "%c)%o")
        .console).styles =
          [(Markup.Style.marker .bold).css true ++ Markup.Style.changed.css true,
            Markup.Style.changed.css false ++ (Markup.Style.marker .bold).css false, traceCss] ∧
      ∃ pieces, (mixed "%c ** \x60\x1b[0m" "%o%c" (-7)).typeset (.ofList [0]) (some "%c)%o")
        ⟨.console, .plainObjects⟩ = .plain pieces := by
  have hshape : (mixed "x" "o" 1).SameShape (mixed "%c ** \x60\x1b[0m" "%o%c" (-7)) := ⟨rfl, rfl⟩
  have hp : "p" ≠ "" := by decide
  have hp' : "%c)%o" ≠ "" := by decide
  obtain ⟨hstyled, hplain⟩ := alike_typeset hshape (.ofList [0]) .console hp hp'
  refine ⟨hshape, hp, hp', ?_, ?_, ?_⟩
  · obtain ⟨directives, h, h'⟩ := hstyled.directives
    exact h'.trans (h.symm.trans rfl)
  · exact hstyled.styles.symm.trans rfl
  · rcases hplain with ⟨_, pieces, -, h⟩ | h
    · exact ⟨pieces, h⟩
    · obtain ⟨directives, hsome, -⟩ := h.directives
      cases hsome

end Message
end RenderLog
