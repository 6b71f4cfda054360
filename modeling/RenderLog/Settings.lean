import RenderLog.Screen
import RenderLog.Text.Blank

/-!
# Settings

Three variables choose whether to log, on which medium, and whether the console is
a restricted one. A value is read without the blanks around it and without regard
to the case of ASCII letters. The first variable with an unknown value, in the
order of the variables, is refused with the value as it was given.

Without a value a debug build logs and a release build does not.
-/
namespace RenderLog

inductive Variable where
  | enabled | medium | sandbox
  deriving DecidableEq, Repr

namespace Variable

def name : Variable → String
  | .enabled => "LIFECYCLE_LOG"
  | .medium => "LIFECYCLE_LOG_TARGET"
  | .sandbox => "LIFECYCLE_LOG_SANDBOX"

/-- What a value should have been. -/
def expected : Variable → String
  | .medium => "terminal or console"
  | _ => "on/off, true/false or 1/0"

end Variable

/-- A variable has a value without meaning. -/
structure SettingError where
  key : Variable
  value : String
  deriving DecidableEq, Repr

def SettingError.message (e : SettingError) : String :=
  "invalid value '" ++ e.value ++ "' for " ++ e.key.name ++ ": expected " ++ e.key.expected

/-- How the program was built. -/
inductive Build where
  | debug | release
  deriving DecidableEq, Repr

def Build.isDebug : Build → Bool
  | .debug => true
  | .release => false

structure Settings where
  enabled : Bool
  medium : Medium
  sandbox : Bool
  deriving DecidableEq, Repr

namespace Settings

def default (build : Build := .debug) : Settings := ⟨build.isDebug, .terminal, false⟩

/-- The form in which a value is compared. -/
def normal (value : String) : String := String.ofList (Text.lower (Text.trim value.toList))

def flags : List (String × Bool) :=
  [("1", true), ("true", true), ("on", true), ("yes", true),
   ("0", false), ("false", false), ("off", false), ("no", false)]

def media : List (String × Medium) :=
  [("terminal", .terminal), ("tty", .terminal), ("console", .console), ("browser", .console)]

/-- Meaning of a variable among the accepted values; `unset` when it has no value. -/
def readVariable {α : Type} (key : Variable) (accepted : List (String × α)) (unset : α) :
    Option String → Except SettingError α
  | none => .ok unset
  | some value =>
    match accepted.lookup (normal value) with
    | some a => .ok a
    | none => .error ⟨key, value⟩

def read (lookup : Variable → Option String) (build : Build := .debug) :
    Except SettingError Settings := do
  let unset := default build
  let enabled ← readVariable .enabled flags unset.enabled (lookup .enabled)
  let medium ← readVariable .medium media unset.medium (lookup .medium)
  let sandbox ← readVariable .sandbox flags unset.sandbox (lookup .sandbox)
  return ⟨enabled, medium, sandbox⟩

/-- A restricted console refuses the styling of lines that carry objects. -/
def screen (s : Settings) : Screen :=
  ⟨s.medium, if s.sandbox then .plainObjects else .lenient⟩

end Settings
end RenderLog
