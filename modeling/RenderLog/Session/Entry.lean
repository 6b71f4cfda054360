import RenderLog.Line.Typeset

/-!
# Log entries

What a unit reports: that it was rendered, mounted or unmounted, or a message of
its own. The life of a unit is told with its label and, from the second live
activation on, its number. The label holds the name in code marks.
-/
namespace RenderLog

/-- A unit without a name is called a component. -/
def unitLabel : Option String → String
  | none => "Component"
  | some name =>
    if name.isEmpty then "Component"
    else String.ofList ('\x60' :: '<' :: name.toList ++ ['/', '>', '\x60'])

/-- Numbers are shown from one, and the first is left out. -/
def numberNote (number : Nat) : String :=
  if number = 0 then ""
  else String.ofList (" (".toList ++ Number.natText (number + 1) ++ [')'])

inductive Entry where
  | rendered (label : String) (number : Nat) (props : Value)
  | mounted (label : String) (number : Nat)
  | unmounted (label : String) (number : Nat)
  | logged (message : Message) (highlights : Highlights) (trace : String)
  deriving DecidableEq

namespace Entry

def message : Entry → Message
  | .rendered label number props =>
    ⟨[label ++ numberNote number ++ " rendered with props: \x60", "\x60."], [props]⟩
  | .mounted label number => .ofText (label ++ numberNote number ++ " mounted.")
  | .unmounted label number => .ofText (label ++ numberNote number ++ " unmounted.")
  | .logged message _ _ => message

def highlights : Entry → Highlights
  | .logged _ highlights _ => highlights
  | _ => .none

def trace : Entry → Option String
  | .logged _ _ trace => some trace
  | _ => none

def typeset (e : Entry) (screen : Screen) : Line :=
  e.message.typeset e.highlights e.trace screen

end Entry
end RenderLog
