import RenderLog.Session
import RenderLog.Sink.Memory

/-!
# Demonstration

Two activations of a counter are taken through a few renders, the way a host
would drive them. The settings decide whether and how their lines come out;
settings that cannot be read are taken as if no variable were set.
-/
namespace RenderLog.Demo

def owner : Owner := .type "Counter"

/-- The counter logs through the entry point and is rendered by the host. -/
def activation : Activation :=
  ⟨owner, some "Counter",
    [⟨"use_lifecycle_log", "src/lib.rs:1"⟩, ⟨"Counter", "src/counter.rs:12"⟩,
     ⟨"render_tree", "src/host.rs:42"⟩]⟩

def props : Value := .object ⟨0, "CounterProps \x7b label: \"clicks\", step: 1 \x7d"⟩

def message (count : Int) : Message :=
  .ofTemplate "count is **\x7b\x7d**, label \x60\x7b\x7d\x60" [.int count, .text "clicks"]

def first : ReporterId := "first"

def second : ReporterId := "second"

def render (id : ReporterId) (count : Int) : List (ReporterId × Step) :=
  [(id, .logMessage (message count)), (id, .update props)]

/-- Both counters appear, the first counts on, then both go. -/
def script (logger : Logger) : List (ReporterId × Step) :=
  [(first, .attach logger activation), (second, .attach logger activation)] ++
  render first 0 ++ [(first, .mount)] ++
  render second 0 ++ [(second, .mount)] ++
  render first 1 ++ render first 2 ++
  [(first, .unmount), (second, .unmount)]

def lines (settings : Settings) : List String :=
  let start : Session Sink.Memory := .start (.const .empty)
  let (s, _) := start.run (script (.ofSettings settings 0))
  (s.sinks.get 0).texts

/-- The settings of a look-up, the defaults if one of them is refused. -/
def settings (lookup : Variable → Option String) (build : Build) : Settings :=
  match Settings.read lookup build with
  | .ok s => s
  | .error _ => .default build

def output (lookup : Variable → Option String) (build : Build := .debug) : List String :=
  lines (settings lookup build)

end RenderLog.Demo
