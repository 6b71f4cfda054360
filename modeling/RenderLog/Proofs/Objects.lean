import RenderLog.Proofs.PlainLines
import RenderLog.Proofs.Restyling

/-!
# Objects in lines

Objects have no text of their own inside a format. They travel beside it, as the arguments
of directives or, in a line without styles, as pieces. Either way a line carries the objects
of its message, each as often as it stands there and in the same order; a value without a
segment is left out, be it an object or not.

A styled line shows an object by its debug text, behind the segment that it belongs to. So
each directive has met its own argument, and none is left over.
-/
namespace RenderLog

theorem Value.flatMap_object?_symbols (v : Value) :
    v.symbols.flatMap (fun s => s.object?.toList) = v.object?.toList := by
  cases hv : v.object? with
  | none =>
      rw [symbols_of_primitive hv, List.flatMap_map]
      exact List.flatMap_eq_nil_iff.mpr fun _ _ => rfl
  | some o =>
      rw [symbols_of_object hv]
      rfl

theorem Markup.flatMap_object?_event (medium : Medium) (e : Markup.Event) :
    (Markup.Item.symbols medium (.ofEvent e)).flatMap (fun s => s.object?.toList) = [] := by
  cases e with
  | literal c => cases medium <;> rfl
  | toggle m on =>
      cases medium with
      | terminal =>
          apply List.flatMap_eq_nil_iff.mpr
          intro s hs
          obtain ⟨c, -, rfl⟩ := List.mem_map.mp hs
          rfl
      | console => rfl

theorem flatMap_object?_traceSymbols (trace : Option String) (medium : Medium) :
    (traceSymbols trace medium).flatMap (fun s => s.object?.toList) = [] := by
  have hshown (cs : List Char) :
      (cs.map Symbol.shown).flatMap (fun s : Symbol Arg => s.object?.toList) = [] := by
    rw [List.flatMap_map]
    exact List.flatMap_eq_nil_iff.mpr fun _ _ => rfl
  rw [traceSymbols]
  cases shownTrace trace with
  | none => rfl
  | some place =>
      cases medium with
      | terminal => exact hshown _
      | console => exact hshown _

namespace Piece

theorem object?_ofValue (v : Value) : (ofValue v).object? = v.object? := by
  cases v <;> rfl

theorem filterMap_object?_ofSegment (first last : Bool) (events : List Markup.Event) :
    (ofSegment first last events).filterMap Piece.object? = [] := by
  rw [ofSegment_eq, ofText]
  split <;> rfl

/-- The pieces of a message carry the objects of the values that have a segment. -/
theorem filterMap_object?_ofEvents (first : Bool) (segments : List (List Markup.Event))
    (values : List Value) :
    (ofEvents first segments values).filterMap Piece.object? =
      (values.take segments.length).filterMap Value.object? := by
  induction segments generalizing first values with
  | nil => rw [ofEvents, List.length_nil, List.take_zero, List.filterMap_nil, List.filterMap_nil]
  | cons events rest ih =>
      cases values with
      | nil =>
          have hrest := ih false []
          rw [List.take_nil] at hrest
          rw [ofEvents, List.filterMap_append, filterMap_object?_ofSegment, hrest, List.take_nil,
            List.nil_append]
      | cons v values =>
          rw [ofEvents, List.filterMap_append, filterMap_object?_ofSegment, List.nil_append,
            List.filterMap_cons, object?_ofValue, ih, List.length_cons, List.take_succ_cons,
            List.filterMap_cons]

end Piece

namespace Message
variable {m : Message} {rule : StylingRule}

theorem objects_plain (m : Message) (trace : Option String) :
    (m.typesetPlain trace).objects =
      (m.values.take m.segments.length).filterMap Value.object? := by
  have hbody := Piece.filterMap_object?_ofEvents true m.events m.values
  rw [events, Markup.length_eventsOfSegments] at hbody
  rw [typesetPlain]
  cases shownTrace trace with
  | none => exact hbody
  | some place =>
      rw [Line.objects, List.filterMap_append]
      exact (List.append_nil _).trans hbody

theorem objects_styled (h : rule m.values = false) (highlights : Highlights)
    (trace : Option String) (medium : Medium) :
    (m.typeset highlights trace ⟨medium, rule⟩).objects =
      (m.values.take m.segments.length).filterMap Value.object? := by
  have hsegments := Markup.flatMap_zipIdx_elim m.values (fun v => v.object?.toList) 0 m.events
  rw [List.drop_zero, events, Markup.length_eventsOfSegments] at hsegments
  rw [typeset_styled h, Line.objects_ofSymbols, List.flatMap_append, flatMap_object?_traceSymbols,
    List.append_nil, flatMap_bodySymbols fun _ => rfl, List.filterMap_eq_flatMap_toList,
    ← hsegments]
  have hnone (es : List Markup.Event) :
      es.flatMap (fun event => (Markup.Item.symbols medium (.ofEvent event)).flatMap
        fun s => s.object?.toList) = [] :=
    List.flatMap_eq_nil_iff.mpr fun event _ => Markup.flatMap_object?_event medium event
  simp only [hnone, Value.flatMap_object?_symbols, List.nil_append, events]

/-- A line carries the objects among the values that have a segment, each as often as it stands
there and in order, whether it is styled or plain. A styled line shows each of them by its debug
text behind the segment that it belongs to. -/
theorem objects_of_typeset (m : Message) (highlights : Highlights) (trace : Option String)
    (screen : Screen) :
    (m.typeset highlights trace screen).objects =
        (m.values.take m.segments.length).filterMap Value.object? ∧
      (screen.refuses m.values = false →
        (m.typeset highlights trace screen).display =
          String.ofList
            (shownText (m.events.map (·.flatMap (Markup.Event.shown screen.medium))) m.values ++
              (traceSymbols trace screen.medium).flatMap Symbol.text)) := by
  obtain ⟨medium, rule⟩ := screen
  refine ⟨?_, fun h => display_of_styled h highlights trace medium⟩
  cases hr : rule m.values with
  | true =>
      rw [typeset, if_pos hr]
      exact objects_plain m trace
  | false => exact objects_styled hr highlights trace medium

/-- One object twice, in bold text and behind a percent sign, another whose debug text looks like
a directive, and one without a segment. -/
theorem objects_of_typeset_twice :
    let o : Object := ⟨0, "[1]"⟩
    let p : Object := ⟨1, "%o"⟩
    let m : Message := ⟨["a **", "** 5%", "", ""],
      [.object o, .text "%o", .object o, .object p, .object ⟨2, "lost"⟩]⟩
    Screen.console.refuses m.values = false ∧
      (m.typeset (.ofList [0]) (some "x") .console).objects = [o, o, p] ∧
      (m.typeset (.ofList [0]) (some "x") .console).display = "a [1] 5%\x22%o\x22[1]%o(@ x)" ∧
      (m.typeset (.ofList [0]) (some "x") .terminal).display =
        "a \x1b[1m[1]\x1b[22m 5%\x22%o\x22[1]%o  \x1b[2m(@ x)\x1b[22m" ∧
      (m.typeset (.ofList [0]) (some "x") ⟨.console, .plainObjects⟩).objects = [o, o, p] := by
  intro o p m
  have hrefuses : Screen.console.refuses m.values = false := rfl
  obtain ⟨hobjects, hdisplay⟩ := objects_of_typeset m (.ofList [0]) (some "x") .console
  obtain ⟨-, hterminal⟩ := objects_of_typeset m (.ofList [0]) (some "x") .terminal
  obtain ⟨hplain, -⟩ := objects_of_typeset m (.ofList [0]) (some "x") ⟨.console, .plainObjects⟩
  have hcarried : (m.values.take m.segments.length).filterMap Value.object? = [o, o, p] := rfl
  refine ⟨hrefuses, hobjects.trans hcarried, (hdisplay hrefuses).trans ?_,
    (hterminal hrefuses).trans ?_, hplain.trans hcarried⟩
  · decide
  · decide

end Message
end RenderLog
