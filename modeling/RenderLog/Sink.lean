import RenderLog.Line

/-!
# Sinks

Where lines go. A sink takes one line after another and may fail at any of them;
a failure is reported and the sink goes on from the state it left.
-/
namespace RenderLog

/-- Why a line was not written: refused with the words of the device, or not taken. -/
inductive WriteError where
  | refused (words : String)
  | noProgress
  deriving DecidableEq, Repr

namespace WriteError

def cause : WriteError → String
  | .refused words => words
  | .noProgress => "failed to write whole buffer"

def message (e : WriteError) : String := "failed to write log record: " ++ e.cause

end WriteError

class Sink (σ : Type) where
  write : σ → Line → σ × Except WriteError Unit

/-- Writes lines one after another, and says what came of each. -/
def Sink.writeAll {σ : Type} [Sink σ] (sink : σ) : List Line → σ × List (Except WriteError Unit)
  | [] => (sink, [])
  | l :: rest =>
    let (sink, result) := Sink.write sink l
    let (sink, results) := writeAll sink rest
    (sink, result :: results)

end RenderLog
