import RenderLog.Message.Template
import RenderLog.Value

/-!
# Messages

Literal segments with a value after each but the last. Nothing forces the two
lists to fit: a segment without a value stands alone, and a value without a
segment is never shown.
-/
namespace RenderLog

structure Message where
  segments : List String
  values : List Value
  deriving DecidableEq, Repr

namespace Message

/-- A message without segments stands for nothing to log. -/
def empty : Message := ⟨[], []⟩

def isEmpty (m : Message) : Bool := m.segments.isEmpty

def ofText (s : String) : Message := ⟨[s], []⟩

/-- Fills a brace template; values beyond its placeholders are dropped. -/
def ofTemplate (template : String) (values : List Value) : Message :=
  let segments := Template.segments values.length template.toList
  ⟨segments.map String.ofList, values.take (segments.length - 1)⟩

/-- A bare list of values, separated by commas. -/
def ofValues : List Value → Message
  | [] => ⟨[""], []⟩
  | v :: rest => ⟨"" :: rest.map (fun _ => ", ") ++ [""], v :: rest⟩

end Message
end RenderLog
