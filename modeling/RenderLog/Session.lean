import RenderLog.Session.Reporter
import RenderLog.Settings
import RenderLog.Sink

/-!
# Sessions

Many reporters at work. A logger names the screen, the registry and the sink of
its reporters; loggers may share a registry or a sink. A disabled logger hands
values through and does nothing else.

What a step reports is settled before the first write; the lines of a step come out
the same when some are written in between. A sink that fails loses the line and
changes nothing besides itself.
-/
namespace RenderLog

/-- Either the registry of the whole process or one made by the host. -/
inductive RegistryId where
  | process
  | named (name : String)
  deriving DecidableEq, Repr

abbrev SinkId := Nat

abbrev ReporterId := String

structure Channel where
  screen : Screen
  registry : RegistryId
  sink : SinkId

inductive Logger where
  | disabled
  | enabled (channel : Channel)

namespace Logger

def isEnabled : Logger → Bool
  | .disabled => false
  | .enabled _ => true

/-- A logger set up by settings uses the registry of the process. -/
def ofSettings (s : Settings) (sink : SinkId) : Logger :=
  if s.enabled then .enabled ⟨s.screen, .process, sink⟩ else .disabled

/-- A disabled logger does not walk the frames. -/
def site (logger : Logger) (a : Activation) : CallSite :=
  match logger with
  | .disabled => .empty
  | .enabled _ => .ofFrames a.frames

end Logger

structure Attached where
  logger : Logger
  reporter : Reporter

structure Session (σ : Type) where
  registries : Table RegistryId Registry
  sinks : Table SinkId σ
  reporters : Table ReporterId (Option Attached)
  /-- Serial of the next activation. -/
  nextSerial : Nat

inductive Step where
  | attach (logger : Logger) (activation : Activation)
  | logValues (values : List Value)
  | logMessage (message : Message)
  | update (props : Value)
  | mount
  | unmount

/-- An entry handed to a sink, and what became of it. -/
structure Delivery where
  sink : SinkId
  entry : Entry
  line : Line
  result : Except WriteError Unit

/-- What is said about a line that was lost. -/
structure Warning where
  message : String
  err : String
  deriving DecidableEq, Repr

def Delivery.warning? (d : Delivery) : Option Warning :=
  match d.result with
  | .ok () => none
  | .error e => some ⟨"dropping lifecycle record", e.message⟩

structure Reply where
  returned : Option Value
  deliveries : List Delivery

def Reply.silent : Reply := ⟨none, []⟩

namespace Session
variable {σ : Type}

def start (sinks : Table SinkId σ) : Session σ := ⟨.const .empty, sinks, .const none, 0⟩

/-- An identity that no activation has. -/
def freshActivation (s : Session σ) : ActivationId × Session σ :=
  (⟨s.nextSerial⟩, {s with nextSerial := s.nextSerial + 1})

/-- A new reporter takes the place of one with the same identifier. -/
def attach (s : Session σ) (id : ReporterId) (logger : Logger) (a : Activation) : Session σ :=
  let (activation, s) := s.freshActivation
  let reporter := Reporter.ofActivation a (logger.site a) activation
  {s with reporters := s.reporters.set id (some ⟨logger, reporter⟩)}

/-- Changes the reporter of an enabled logger; nothing is looked up or written. -/
def log (s : Session σ) (id : ReporterId) (change : Reporter → Reporter) : Session σ :=
  match s.reporters.get id with
  | some ⟨.enabled channel, reporter⟩ =>
    {s with reporters := s.reporters.set id (some ⟨.enabled channel, change reporter⟩)}
  | _ => s

/-- Writes entries in order; the outcome of a write has no influence on the next. -/
def deliver [Sink σ] (channel : Channel) (s : Session σ) : List Entry → Session σ × List Delivery
  | [] => (s, [])
  | entry :: rest =>
    let line := entry.typeset channel.screen
    let (sink, result) := Sink.write (s.sinks.get channel.sink) line
    let (s, deliveries) := deliver channel {s with sinks := s.sinks.set channel.sink sink} rest
    (s, ⟨channel.sink, entry, line, result⟩ :: deliveries)

/-- Notifies the reporter of an enabled logger, then writes what it reports. -/
def notify [Sink σ] (s : Session σ) (id : ReporterId)
    (event : Reporter → Registry → Reporter.Outcome) : Session σ × Reply :=
  match s.reporters.get id with
  | some ⟨.enabled channel, reporter⟩ =>
    let outcome := event reporter (s.registries.get channel.registry)
    let s : Session σ :=
      {s with
        registries := s.registries.set channel.registry outcome.registry
        reporters := s.reporters.set id (some ⟨.enabled channel, outcome.reporter⟩)}
    let (s, deliveries) := s.deliver channel outcome.entries
    (s, ⟨none, deliveries⟩)
  | _ => (s, .silent)

/-- One step of the reporter `id`. Logging gives the first value back. -/
def perform [Sink σ] (s : Session σ) (id : ReporterId) : Step → Session σ × Reply
  | .attach logger a => (s.attach id logger a, .silent)
  | .logValues values => (s.log id (·.logValues values), ⟨values.head?, []⟩)
  | .logMessage m => (s.log id (·.logMessage m), ⟨m.values.head?, []⟩)
  | .update props => s.notify id (Reporter.update props)
  | .mount => s.notify id Reporter.mount
  | .unmount => s.notify id Reporter.unmount

def run [Sink σ] (s : Session σ) : List (ReporterId × Step) → Session σ × List Reply
  | [] => (s, [])
  | (id, step) :: rest =>
    let (s, reply) := s.perform id step
    let (s, replies) := s.run rest
    (s, reply :: replies)

end Session
end RenderLog
