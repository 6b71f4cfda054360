import RenderLog.Registry.Numbering
import RenderLog.Table

/-!
# Registry of what is live

Which call sites and which activations of an owner are live, each with a number.
The call site numbered zero is the primary one and reports the owner's life; the
number of an activation tells it from others of the same owner.
-/
namespace RenderLog

/-- A kind of unit: known by a token, or by the type that implements it. -/
inductive Owner where
  | token (bits : UInt64)
  | type (name : String)
  deriving DecidableEq, Repr

/-- Tells one activation from all others. -/
structure ActivationId where
  serial : Nat
  deriving DecidableEq, Repr

/-- What is live of one owner. Call sites are known by their paths. -/
structure Roster where
  sites : Numbering String
  activations : Numbering ActivationId
  deriving DecidableEq, Repr

/-- The roster of every owner. -/
structure Registry where
  rosters : Table Owner Roster

namespace Registry

def primarySite : Nat := 0

def empty : Registry := ⟨.const ⟨.empty, .empty⟩⟩

def roster (r : Registry) (owner : Owner) : Roster := r.rosters.get owner

def setRoster (r : Registry) (owner : Owner) (roster : Roster) : Registry :=
  ⟨r.rosters.set owner roster⟩

@[simp] theorem roster_empty (owner : Owner) : empty.roster owner = ⟨.empty, .empty⟩ := rfl

@[simp] theorem roster_setRoster_self (r : Registry) (owner : Owner) (entry : Roster) :
    (r.setRoster owner entry).roster owner = entry := by
  simp [setRoster, roster]

theorem roster_setRoster_of_ne (r : Registry) {owner o : Owner} (entry : Roster)
    (h : o ≠ owner) : (r.setRoster owner entry).roster o = r.roster o := by
  simp [setRoster, roster, Table.get_set_of_ne _ _ h]

def siteCount (r : Registry) (owner : Owner) : Nat := (r.roster owner).sites.count

def activationCount (r : Registry) (owner : Owner) : Nat := (r.roster owner).activations.count

/-- The number of a call site, which becomes live if it is not. -/
def numberSite (r : Registry) (owner : Owner) (path : String) : Nat × Registry :=
  let roster := r.roster owner
  let (i, sites) := roster.sites.resolve path
  (i, r.setRoster owner {roster with sites := sites})

def dropSite (r : Registry) (owner : Owner) (path : String) : Registry :=
  let roster := r.roster owner
  r.setRoster owner {roster with sites := roster.sites.release path}

/-- The number of an activation, which becomes live if it is not. -/
def numberActivation (r : Registry) (owner : Owner) (id : ActivationId) : Nat × Registry :=
  let roster := r.roster owner
  let (i, activations) := roster.activations.resolve id
  (i, r.setRoster owner {roster with activations := activations})

def dropActivation (r : Registry) (owner : Owner) (id : ActivationId) : Registry :=
  let roster := r.roster owner
  r.setRoster owner {roster with activations := roster.activations.release id}

end Registry
end RenderLog
