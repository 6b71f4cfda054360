import RenderLog.CallSite
import RenderLog.Registry
import RenderLog.Session.Entry

/-!
# Reporters

The state of one call site of one activation. During a render the unit logs; the
update after it writes what was logged, if that is new, and the values become
those to compare with. The activation is mounted after its first update and
unmounted at its end.

Only a reporter at the primary call site of its owner tells the life of the
activation and takes a number for it. Which call site is primary is looked up
each time. The number announced at the mount is kept until the unmount, and only
a reporter that announced a mount gives its registrations back.
-/
namespace RenderLog

/-- What the host tells about an activation. -/
structure Activation where
  owner : Owner
  name : Option String
  frames : List Frame
  deriving DecidableEq, Repr

structure Reporter where
  owner : Owner
  label : String
  site : CallSite
  id : ActivationId
  /-- Values of the render before; none until the first update. -/
  before : Option (List Value)
  /-- Values logged since the last update. -/
  now : List Value
  /-- Message logged since the last update. -/
  message : Option Message
  /-- Number announced when the activation was mounted. -/
  announced : Option Nat
  deriving DecidableEq, Repr

namespace Reporter

def ofActivation (a : Activation) (site : CallSite) (id : ActivationId) : Reporter :=
  ⟨a.owner, unitLabel a.name, site, id, none, [], none, none⟩

/-- Logs a bare list of values; an empty one is no message. -/
def logValues (p : Reporter) (values : List Value) : Reporter :=
  {p with
    now := values
    message := if values.isEmpty then none else some (.ofValues values)}

def logMessage (p : Reporter) (m : Message) : Reporter :=
  {p with
    now := m.values
    message := if m.isEmpty then none else some m}

/-- The number under which the activation is told; none away from the primary call site. -/
def number (p : Reporter) (r : Registry) : Option Nat × Registry :=
  let (site, r) := r.numberSite p.owner p.site.path
  if site = Registry.primarySite then
    let (number, r) := r.numberActivation p.owner p.id
    (some number, r)
  else (none, r)

/-- The message of this render, if there is one and its values changed. -/
def changedMessage (p : Reporter) : List Entry :=
  match Highlights.between p.before p.now, p.message with
  | some highlights, some m => [.logged m highlights p.site.trace]
  | _, _ => []

/-- The values of this render become those of the render before. -/
def settle (p : Reporter) : Reporter :=
  {p with before := some p.now, now := [], message := none}

/-- New state of a reporter and of the registry, and what is reported. -/
structure Outcome where
  reporter : Reporter
  registry : Registry
  entries : List Entry

def update (props : Value) (p : Reporter) (r : Registry) : Outcome :=
  match p.number r with
  | (some n, r) => ⟨p.settle, r, .rendered p.label n props :: p.changedMessage⟩
  | (none, r) => ⟨p.settle, r, p.changedMessage⟩

def mount (p : Reporter) (r : Registry) : Outcome :=
  match p.number r with
  | (some n, r) => ⟨{p with announced := some n}, r, [.mounted p.label n]⟩
  | (none, r) => ⟨p, r, []⟩

def unmount (p : Reporter) (r : Registry) : Outcome :=
  match p.announced with
  | some n =>
    ⟨{p with announced := none},
      (r.dropActivation p.owner p.id).dropSite p.owner p.site.path,
      [.unmounted p.label n]⟩
  | none => ⟨p, r, []⟩

end Reporter
end RenderLog
