import RenderLog.Line.Draft
import RenderLog.Markup.Item
import RenderLog.Screen

/-!
# Typesetting

From a message to a line. With styling the items of the message are written to a
draft: for a terminal a style is an escape sequence in the text, for a console it
is the argument of a directive. Without styling the switches are dropped and each
segment becomes a piece; the blank on either side of a value is dropped too,
because pieces are shown with a blank between them.

The call site may be appended, dimmed where styles exist.
-/
namespace RenderLog

def traceCss : String :=
  "color: #999; font-style: italic; font-size: 0.9em; padding-left: 2em;"

def traceText (trace : String) : List Char := "(@ ".toList ++ trace.toList ++ [')']

namespace Draft

def item (medium : Medium) (d : Draft) : Markup.Item → Draft
  | .literal c => d.text [c]
  | .switch s on =>
    match medium with
    | .terminal => d.text (s.escape on).toList
    | .console => d.style (s.css on)
  | .value (.object o) => d.object o
  | .value v => d.text v.inline.toList

/-- The style of the call site is not joined with styles before it. -/
def trace (medium : Medium) (d : Draft) (trace : String) : Draft :=
  match medium with
  | .terminal => d.text ("  \x1b[2m".toList ++ traceText trace ++ "\x1b[22m".toList)
  | .console => (d.flush.style traceCss).text (traceText trace)

end Draft

namespace Piece

/-- Drops the blank before a value that follows. -/
def dropBlankEnd (cs : List Char) : List Char :=
  if cs.getLast? = some ' ' then cs.dropLast else cs

def dropBlankStart (cs : List Char) : List Char :=
  if cs.head? = some ' ' then cs.tail else cs

/-- The piece of a segment, none when nothing is left of it. -/
def ofSegment (first last : Bool) (events : List Markup.Event) : List Piece :=
  let text := events.filterMap Markup.Event.literal?
  let text := if last then text else dropBlankEnd text
  let text := if first then text else dropBlankStart text
  if text.isEmpty then [] else [.text (String.ofList text)]

/-- A text is shown as inside a line, other values as on their own. -/
def ofValue : Value → Piece
  | .text s => .text (Value.text s).inline
  | v => .value v

/-- Pieces of the segments with their values; a segment is last when it has no value. -/
def ofEvents (first : Bool) : List (List Markup.Event) → List Value → List Piece
  | [], _ => []
  | events :: rest, [] => ofSegment first true events ++ ofEvents false rest []
  | events :: rest, v :: values =>
    ofSegment first false events ++ ofValue v :: ofEvents false rest values

end Piece

/-- The call site that is shown: one without a place is none. -/
def shownTrace (trace : Option String) : Option String := trace.filter fun t => !t.isEmpty

namespace Message

def typesetStyled (m : Message) (highlights : Highlights) (trace : Option String)
    (medium : Medium) : Line :=
  let body := (m.items highlights).foldl (Draft.item medium) Draft.empty
  match shownTrace trace with
  | none => body.line
  | some t => (body.trace medium t).line

def typesetPlain (m : Message) (trace : Option String) : Line :=
  let body := Piece.ofEvents true m.events m.values
  match shownTrace trace with
  | none => .plain body
  | some t => .plain (body ++ [.text (String.ofList (' ' :: traceText t))])

def typeset (m : Message) (highlights : Highlights) (trace : Option String)
    (screen : Screen) : Line :=
  if screen.refuses m.values then m.typesetPlain trace
  else m.typesetStyled highlights trace screen.medium

end Message
end RenderLog
