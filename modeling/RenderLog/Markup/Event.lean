import RenderLog.Markup.Boundary
import RenderLog.Markup.Lexeme

/-!
# Markup events

What the marks of a message mean. A mark whose marker is open closes it before
a boundary; a mark whose marker is closed opens it after one; a mark that can do
neither is literal text. Right after a switch the position counts as the start
of the segment, so marks can follow each other.

Open markers are carried from one segment to the next. The preceding character
is not, since a value stands between two segments.
-/
namespace RenderLog.Markup

inductive Event where
  | literal (c : Char)
  | toggle (m : Marker) (on : Bool)
  deriving DecidableEq, Repr

def Event.literal? : Event → Option Char
  | .literal c => some c
  | .toggle _ _ => none

structure OpenMarkers where
  bold : Bool
  italic : Bool
  code : Bool
  deriving DecidableEq, Repr

namespace OpenMarkers

def none : OpenMarkers := ⟨false, false, false⟩

def isOpen (s : OpenMarkers) : Marker → Bool
  | .bold => s.bold
  | .italic => s.italic
  | .code => s.code

def set (s : OpenMarkers) (m : Marker) (on : Bool) : OpenMarkers :=
  match m with
  | .bold => {s with bold := on}
  | .italic => {s with italic := on}
  | .code => {s with code := on}

@[simp] theorem isOpen_set_self (s : OpenMarkers) (m : Marker) (on : Bool) :
    (s.set m on).isOpen m = on := by
  cases m <;> rfl

theorem isOpen_set_of_ne (s : OpenMarkers) {m k : Marker} (on : Bool) (h : k ≠ m) :
    (s.set m on).isOpen k = s.isOpen k := by
  cases m <;> cases k <;> simp_all [set, isOpen]

def step (s : OpenMarkers) : Event → OpenMarkers
  | .literal _ => s
  | .toggle m on => s.set m on

/-- The open markers after a run of events. -/
def after (s : OpenMarkers) (events : List Event) : OpenMarkers := events.foldl step s

end OpenMarkers

/-- Events of the lexemes that follow `prev` with some markers open. -/
def eventsAfter (s : OpenMarkers) (prev : Option Char) : List Lexeme → List Event
  | [] => []
  | .plain c :: rest => .literal c :: eventsAfter s (some c) rest
  | .mark m c :: rest =>
    if s.isOpen m && isBoundary (rest.head?.map Lexeme.sign) then
      .toggle m false :: eventsAfter (s.set m false) none rest
    else if !s.isOpen m && isBoundary prev then
      .toggle m true :: eventsAfter (s.set m true) none rest
    else (Lexeme.mark m c).chars.map .literal ++ eventsAfter s (some c) rest

/-- Events of one segment. -/
def events (s : OpenMarkers) (segment : List Char) : List Event :=
  eventsAfter s none (lexemes segment)

/-- Events of each segment of a message. -/
def eventsOfSegments (s : OpenMarkers) : List String → List (List Event)
  | [] => []
  | segment :: rest =>
    let here := events s segment.toList
    here :: eventsOfSegments (s.after here) rest

end RenderLog.Markup
