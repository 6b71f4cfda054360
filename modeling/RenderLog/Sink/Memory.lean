import RenderLog.Sink

/-!
# Sinks that keep what they get

A memory keeps the lines. A facade keeps the events that a general logging
facade would pass on, all with one target and level.
-/
namespace RenderLog.Sink

/-- Lines written so far, oldest first. -/
structure Memory where
  lines : List Line
  deriving DecidableEq, Repr

namespace Memory

def empty : Memory := ⟨[]⟩

def texts (s : Memory) : List String := s.lines.map Line.display

def size (s : Memory) : Nat := s.lines.length

def isEmpty (s : Memory) : Bool := s.lines.isEmpty

def push (s : Memory) (l : Line) : Memory := ⟨s.lines ++ [l]⟩

instance : Sink Memory := ⟨fun s l => (s.push l, .ok ())⟩

end Memory

structure FacadeEvent where
  target : String
  level : String
  message : String
  deriving DecidableEq, Repr

/-- Events passed on so far, oldest first. -/
structure Facade where
  events : List FacadeEvent
  deriving DecidableEq, Repr

namespace Facade

def empty : Facade := ⟨[]⟩

def event (l : Line) : FacadeEvent := ⟨"lifecycle", "INFO", l.display⟩

def push (s : Facade) (l : Line) : Facade := ⟨s.events ++ [event l]⟩

instance : Sink Facade := ⟨fun s l => (s.push l, .ok ())⟩

end Facade
end RenderLog.Sink
