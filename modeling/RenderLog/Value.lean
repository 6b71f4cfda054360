import RenderLog.Number.Layout
import RenderLog.Text.Quoted

/-!
# Values

What a unit may log. Null, truth values, numbers and texts are primitive and
compared by content. An object has an identity, by which it is compared, and a
debug text, by which it is shown; nothing else is known of it.
-/
namespace RenderLog

/-- Occurrences of one identity are the same object. -/
structure Object where
  identity : Nat
  text : String
  deriving DecidableEq, Repr

inductive Number where
  | int (n : Int)
  | float (x : Number.Binary64)
  deriving DecidableEq, Repr

/-- Whole numbers equal whole numbers and floating-point numbers equal each other
numerically; a whole number never equals a floating-point one. -/
def Number.same : Number → Number → Bool
  | .int m, .int n => decide (m = n)
  | .float x, .float y => x.same y
  | _, _ => false

def Number.text : Number → List Char
  | .int n => intText n
  | .float x => Binary64.text x

inductive Value where
  | null
  | bool (b : Bool)
  | number (n : Number)
  | text (s : String)
  | object (o : Object)
  deriving DecidableEq, Repr

namespace Value

def int (n : Int) : Value := .number (.int n)

/-- An encoding of no finite number is null. -/
def ofBits64 (bits : Nat) : Value :=
  match Number.Binary.ofBits? 11 52 bits with
  | some x => .number (.float x)
  | none => .null

/-- A number of the narrow format is kept exactly in the wide one. -/
def ofBits32 (bits : Nat) : Value :=
  match Number.Binary.ofBits? 8 23 bits with
  | some x => .number (.float (Number.Binary32.widen x))
  | none => .null

/-- An absent value is null. -/
def ofOption : Option Value → Value
  | none => .null
  | some v => v

def object? : Value → Option Object
  | .object o => some o
  | _ => none

def isObject (v : Value) : Bool := v.object?.isSome

/-- Sameness between two renders: primitives by content, objects by identity. -/
def same : Value → Value → Bool
  | .null, .null => true
  | .bool a, .bool b => a == b
  | .number m, .number n => m.same n
  | .text s, .text t => decide (s = t)
  | .object o, .object p => decide (o.identity = p.identity)
  | _, _ => false

/-- Text of a value on its own; a text stands unquoted. -/
def display : Value → String
  | .null => "null"
  | .bool true => "true"
  | .bool false => "false"
  | .number n => String.ofList n.text
  | .text s => s
  | .object o => o.text

/-- Why a value has no JSON form. -/
inductive JsonError where
  | object
  deriving DecidableEq, Repr

def JsonError.message : JsonError → String
  | .object => "rich values have no inline form"

def json : Value → Except JsonError String
  | .text s => .ok (String.ofList (Text.quoted s.toList))
  | .object _ => .error .object
  | v => .ok v.display

/-- Text of a value inside a line: its JSON form, or the debug text of an object. -/
def inline (v : Value) : String :=
  match v.json with
  | .ok s => s
  | .error _ => v.display

end Value
end RenderLog
