import RenderLog.Sink.Memory
import RenderLog.Sink.Stream

/-!
# Sinks of any kind

A session whose loggers write to sinks of different kinds has outlets for sinks.
-/
namespace RenderLog.Sink

inductive Outlet where
  | memory (s : Memory)
  | facade (s : Facade)
  | stream (s : Stream)
  deriving DecidableEq, Repr

namespace Outlet

def push : Outlet → Line → Outlet × Except WriteError Unit
  | .memory s, l => (.memory (s.push l), .ok ())
  | .facade s, l => (.facade (s.push l), .ok ())
  | .stream s, l =>
    let (s, result) := s.push l
    (.stream s, result)

instance : Sink Outlet := ⟨push⟩

end Outlet
end RenderLog.Sink
