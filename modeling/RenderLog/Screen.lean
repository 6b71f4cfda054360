import RenderLog.Value

/-!
# Screens

Where lines are shown, and when a screen refuses their styling. The rule looks at
the values of a message; besides the two here a host may bring any other.
-/
namespace RenderLog

inductive Medium where
  | terminal | console
  deriving DecidableEq, Repr

/-- Whether a message with these values loses its styling. -/
abbrev StylingRule := List Value → Bool

namespace StylingRule

/-- Nothing loses its styling. -/
def lenient : StylingRule := fun _ => false

/-- Some embedded consoles garble styled lines that carry objects. -/
def plainObjects : StylingRule := fun values => values.any Value.isObject

end StylingRule

structure Screen where
  medium : Medium
  refuses : StylingRule

namespace Screen

def terminal : Screen := ⟨.terminal, .lenient⟩

def console : Screen := ⟨.console, .lenient⟩

instance : Inhabited Screen := ⟨terminal⟩

/-- Shows the medium and leaves the rule out. -/
def describe (screen : Screen) : String :=
  let name := match screen.medium with
    | .terminal => "Terminal"
    | .console => "Console"
  "Environment \x7b target: " ++ name ++ ", .. \x7d"

end Screen
end RenderLog
