import RenderLog.Highlights
import RenderLog.Markup.Event
import RenderLog.Markup.Style
import RenderLog.Message

/-!
# Lines as items

A message read as one sequence of items: its literal characters, the points at
which a style is switched, and its values. A value marked as changed stands
between a switch on and a switch off. The sequence does not depend on the screen.
-/
namespace RenderLog.Markup

inductive Item where
  | literal (c : Char)
  | switch (s : Style) (on : Bool)
  | value (v : Value)
  deriving DecidableEq, Repr

def Item.ofEvent : Event → Item
  | .literal c => .literal c
  | .toggle m on => .switch (.marker m) on

def Item.ofValue (v : Value) (marked : Bool) : List Item :=
  if marked then [.switch .changed true, .value v, .switch .changed false] else [.value v]

/-- Puts the values, the first of them at position `i`, behind the events of their segments. -/
def interleave (highlights : Highlights) (i : Nat) : List (List Event) → List Value → List Item
  | [], _ => []
  | events :: rest, [] => events.map Item.ofEvent ++ interleave highlights (i + 1) rest []
  | events :: rest, v :: values =>
    events.map Item.ofEvent ++ Item.ofValue v (highlights.marks i) ++
      interleave highlights (i + 1) rest values

end RenderLog.Markup

namespace RenderLog.Message

/-- The events of each segment, with all markers closed at the start. -/
def events (m : Message) : List (List Markup.Event) :=
  Markup.eventsOfSegments Markup.OpenMarkers.none m.segments

def items (m : Message) (highlights : Highlights) : List Markup.Item :=
  Markup.interleave highlights 0 m.events m.values

end RenderLog.Message
