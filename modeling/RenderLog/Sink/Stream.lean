import RenderLog.Sink

/-!
# Sinks that write to a device

A device takes bytes while it has room. Of bytes that do not fit it takes the
first ones; when full it refuses, or takes nothing and says so. A line goes to the
device chunk after chunk, each of them until all of it is taken, and is then flushed.
The first failure ends the line.
-/
namespace RenderLog.Sink

structure Device where
  /-- Bytes that can still be taken; none for a device without limit. -/
  room : Option Nat
  /-- Words of a full device; without any it takes nothing. -/
  fullWords : Option String
  /-- Words of a failing flush. -/
  flushWords : Option String
  taken : List UInt8
  deriving DecidableEq, Repr

namespace Device

/-- A device without limit or faults. -/
def unlimited : Device := ⟨none, none, none, []⟩

/-- Offers bytes once; the device says how many it took. -/
def offer (d : Device) (bytes : List UInt8) : Device × Except WriteError Nat :=
  match d.room with
  | none => ({d with taken := d.taken ++ bytes}, .ok bytes.length)
  | some 0 =>
    match d.fullWords with
    | some words => (d, .error (.refused words))
    | none => (d, .ok 0)
  | some room =>
    let head := bytes.take room
    ({d with room := some (room - head.length), taken := d.taken ++ head}, .ok head.length)

/-- Offers what is left until nothing is. -/
def put (d : Device) (bytes : List UInt8) : Device × Except WriteError Unit :=
  if bytes.isEmpty then (d, .ok ())
  else
    match d.offer bytes with
    | (d, .error e) => (d, .error e)
    | (d, .ok 0) => (d, .error .noProgress)
    | (d, .ok (n + 1)) => d.put (bytes.drop (n + 1))
  termination_by bytes.length
  decreasing_by
    cases bytes with
    | nil => contradiction
    | cons b rest => simp only [List.drop_succ_cons, List.length_cons, List.length_drop]; omega

/-- Puts one text after another until one fails. -/
def putAll (d : Device) : List (List UInt8) → Device × Except WriteError Unit
  | [] => (d, .ok ())
  | bytes :: rest =>
    match d.put bytes with
    | (d, .error e) => (d, .error e)
    | (d, .ok ()) => d.putAll rest

def flush (d : Device) : Except WriteError Unit :=
  match d.flushWords with
  | none => .ok ()
  | some words => .error (.refused words)

end Device

def utf8 (s : String) : List UInt8 := s.toList.flatMap String.utf8EncodeChar

/-- What is put for a line: its chunks and its end. -/
def writes (l : Line) : List (List UInt8) := (l.chunks ++ ["\n"]).map utf8

structure Stream where
  device : Device
  deriving DecidableEq, Repr

namespace Stream

def push (s : Stream) (l : Line) : Stream × Except WriteError Unit :=
  match s.device.putAll (writes l) with
  | (device, .error e) => (⟨device⟩, .error e)
  | (device, .ok ()) => (⟨device⟩, device.flush)

instance : Sink Stream := ⟨push⟩

end Stream
end RenderLog.Sink
