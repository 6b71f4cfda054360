import RenderLog.Line.Typeset
import RenderLog.Proofs.Format

/-!
# Directives of typeset lines

The format of a styled line reads without rest into shown characters and
directives, and its directives stand in the order and of the kinds of its
arguments. This holds of every message, also when segments and values do not
fit, and whatever percent signs its texts contain.
-/
namespace RenderLog

namespace Draft

/-- The draft can be read as symbols. -/
def Formed (d : Draft) : Prop := ∃ symbols, d.Consists symbols

variable {d : Draft}

theorem item_value_of_primitive (d : Draft) (medium : Medium) {v : Value} (h : v.object? = none) :
    d.item medium (.value v) = d.text v.inline.toList := by
  cases v with
  | object o => cases h
  | _ => rfl

theorem item_value_of_object (d : Draft) (medium : Medium) {v : Value} {o : Object}
    (h : v.object? = some o) : d.item medium (.value v) = d.object o := by
  cases v with
  | object p =>
      cases h
      rfl
  | _ => cases h

theorem Formed.item (h : d.Formed) (medium : Medium) (i : Markup.Item) :
    (d.item medium i).Formed := by
  obtain ⟨symbols, hs⟩ := h
  cases i with
  | literal c => exact ⟨_, hs.text [c]⟩
  | switch s on =>
      cases medium with
      | terminal => exact ⟨_, hs.text (s.escape on).toList⟩
      | console => exact ⟨_, hs.style (s.css on)⟩
  | value v =>
      cases hv : v.object? with
      | none =>
          rw [item_value_of_primitive d medium hv]
          exact ⟨_, hs.text v.inline.toList⟩
      | some o =>
          rw [item_value_of_object d medium hv]
          exact ⟨_, hs.object o⟩

theorem Formed.items (h : d.Formed) (medium : Medium) (items : List Markup.Item) :
    (items.foldl (Draft.item medium) d).Formed := by
  induction items generalizing d with
  | nil => exact h
  | cons i items ih => exact ih (h.item medium i)

theorem Formed.trace (h : d.Formed) (medium : Medium) (trace : String) :
    (d.trace medium trace).Formed := by
  obtain ⟨symbols, hs⟩ := h
  cases medium with
  | terminal => exact ⟨_, hs.text _⟩
  | console => exact ⟨_, (hs.flush.style traceCss).text _⟩

theorem Formed.line (h : d.Formed) : ∃ symbols, d.line.Consists symbols := by
  obtain ⟨symbols, hs⟩ := h
  exact ⟨_, hs.line⟩

end Draft

/-- A styled line consists of symbols, whatever the message. -/
theorem Message.typesetStyled_consists (m : Message) (highlights : Highlights)
    (trace : Option String) (medium : Medium) :
    ∃ symbols, (m.typesetStyled highlights trace medium).Consists symbols := by
  have body : ((m.items highlights).foldl (Draft.item medium) Draft.empty).Formed :=
    Draft.Formed.items ⟨_, Draft.consists_empty⟩ medium _
  unfold Message.typesetStyled
  cases shownTrace trace with
  | none => exact body.line
  | some t => exact (body.trace medium t).line

theorem Message.typeset_plain_of_refuses {m : Message} {screen : Screen}
    (h : screen.refuses m.values = true) (highlights : Highlights) (trace : Option String) :
    ∃ pieces, m.typeset highlights trace screen = .plain pieces := by
  unfold Message.typeset Message.typesetPlain
  rw [if_pos h]
  cases shownTrace trace with
  | none => exact ⟨_, rfl⟩
  | some t => exact ⟨_, rfl⟩

namespace Line
variable {format : String} {args : List Arg} {symbols : List (Symbol Arg)}

/-- The strict reader finds the symbols of a line again, without their arguments. -/
theorem Consists.readFormat (h : (styled format args).Consists symbols) :
    readFormat format.toList = some (symbols.map (Symbol.map Arg.directive)) := by
  rw [h.1, readFormat_spell]

theorem Consists.directives (h : (styled format args).Consists symbols) :
    (symbols.map (Symbol.map Arg.directive)).filterMap Symbol.directive? =
      args.map Arg.directive := by
  rw [h.2, List.filterMap_map, List.map_filterMap]
  congr 1
  funext s
  exact Symbol.directive?_map Arg.directive s

theorem Consists.directiveCount (h : (styled format args).Consists symbols) :
    (styled format args).directiveCount = args.length := by
  have hd := congrArg List.length h.directives
  rw [List.length_map] at hd
  rw [← hd, ← countDirectives_spell, ← h.1]
  rfl

end Line

/-- The directives of a styled line are those of its arguments, one for one: the format
is read without rest, and the count of its directives is the number of arguments. -/
theorem Message.directives_of_typeset {m : Message} {highlights : Highlights}
    {trace : Option String} {screen : Screen} {format : String} {args : List Arg}
    (h : m.typeset highlights trace screen = .styled format args) :
    (Line.styled format args).directiveCount = args.length ∧
      ∃ symbols, readFormat format.toList = some symbols ∧
        symbols.filterMap Symbol.directive? = args.map Arg.directive := by
  have hs : ∃ symbols, (Line.styled format args).Consists symbols := by
    cases hr : screen.refuses m.values with
    | true =>
        obtain ⟨pieces, hp⟩ := Message.typeset_plain_of_refuses hr highlights trace
        rw [hp] at h
        cases h
    | false =>
        rw [← h, Message.typeset, hr]
        exact m.typesetStyled_consists highlights trace screen.medium
  obtain ⟨symbols, hs⟩ := hs
  exact ⟨hs.directiveCount, _, hs.readFormat, hs.directives⟩

/-- Percent signs in a segment and in the call site, next to joined styles and an object. -/
theorem Message.directives_of_typeset_percent :
    (⟨["5% **", "%c** 100%"], [.object ⟨0, "%o"⟩]⟩ : Message).typeset (.ofList [0]) (some "a%o")
        .console =
      .styled "5%% %c%o%c%%c%c 100%%%c(@ a%%o)"
        [.style ((Markup.Style.marker .bold).css true ++ Markup.Style.changed.css true),
          .object ⟨0, "%o"⟩, .style (Markup.Style.changed.css false),
          .style ((Markup.Style.marker .bold).css false), .style traceCss] ∧
    countDirectives "5%% %c%o%c%%c%c 100%%%c(@ a%%o)".toList = 5 ∧
    ∃ symbols, readFormat "5%% %c%o%c%%c%c 100%%%c(@ a%%o)".toList = some symbols ∧
      symbols.filterMap Symbol.directive? = [.style, .object, .style, .style, .style] := by
  have h : (⟨["5% **", "%c** 100%"], [.object ⟨0, "%o"⟩]⟩ : Message).typeset (.ofList [0])
      (some "a%o") .console =
        .styled "5%% %c%o%c%%c%c 100%%%c(@ a%%o)"
          [.style ((Markup.Style.marker .bold).css true ++ Markup.Style.changed.css true),
            .object ⟨0, "%o"⟩, .style (Markup.Style.changed.css false),
            .style ((Markup.Style.marker .bold).css false), .style traceCss] := by
    rfl
  exact ⟨h, Message.directives_of_typeset h⟩

end RenderLog
