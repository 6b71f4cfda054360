import RenderLog.Proofs.Numbering
import RenderLog.Session

/-!
# What a reporter does

A step of a reporter changes the roster of its owner and no other. A lookup at
the primary call site resolves the site and the activation, one away from it
resolves the site alone; an unmount that is reported releases both.

The laws here say for each kind of step what becomes of the reporter, of the
registry and of the log. Nothing after them unfolds a lookup.
-/
namespace RenderLog

namespace Registry

theorem setRoster_setRoster (r : Registry) (owner : Owner) (first second : Roster) :
    (r.setRoster owner first).setRoster owner second = r.setRoster owner second := by
  simp only [setRoster, Table.set_set]

/-- A release of an activation and of a site, as one change of the roster. -/
theorem dropSite_dropActivation (r : Registry) (owner : Owner) (path : String)
    (id : ActivationId) :
    (r.dropActivation owner id).dropSite owner path =
      r.setRoster owner
        ⟨(r.roster owner).sites.release path, (r.roster owner).activations.release id⟩ := by
  simp only [dropSite, dropActivation, roster_setRoster_self, setRoster_setRoster]

/-- A call site is primary when it would be given the first number. -/
def isPrimary (r : Registry) (owner : Owner) (path : String) : Bool :=
  decide (((r.roster owner).sites.resolve path).1 = primarySite)

theorem isPrimary_of_forall {r : Registry} {owner : Owner} {path : String}
    (h : ∀ other ∈ (r.roster owner).sites.keys, other = path) :
    r.isPrimary owner path = true := by
  unfold isPrimary Numbering.resolve Numbering.index?
  cases hk : (r.roster owner).sites.keys with
  | nil => simp [Numbering.count, hk, primarySite]
  | cons first rest =>
      have hf : first = path := h first (by rw [hk]; exact List.mem_cons_self)
      simp [List.idxOf?_cons, hf, primarySite]

end Registry

namespace Reporter

/-- Whether the reporter stands at the primary call site of its owner. -/
def leads (p : Reporter) (r : Registry) : Bool := r.isPrimary p.owner p.site.path

variable {p : Reporter} {r : Registry}

theorem number_of_leads (h : p.leads r = true) :
    p.number r =
      (some ((r.roster p.owner).activations.resolve p.id).1,
        r.setRoster p.owner
          ⟨((r.roster p.owner).sites.resolve p.site.path).2,
            ((r.roster p.owner).activations.resolve p.id).2⟩) := by
  have hp : ((r.roster p.owner).sites.resolve p.site.path).1 = Registry.primarySite :=
    of_decide_eq_true h
  simp only [number, Registry.numberSite, hp, if_true, Registry.numberActivation,
    Registry.roster_setRoster_self, Registry.setRoster_setRoster]

theorem number_of_not_leads (h : p.leads r = false) :
    p.number r =
      (none, r.setRoster p.owner
        ⟨((r.roster p.owner).sites.resolve p.site.path).2, (r.roster p.owner).activations⟩) := by
  have hp : ((r.roster p.owner).sites.resolve p.site.path).1 ≠ Registry.primarySite :=
    of_decide_eq_false h
  simp only [number, Registry.numberSite, hp, if_false]

/-- What a reporter does at a step; an attachment is not its own doing. -/
def act (p : Reporter) (r : Registry) : Step → Outcome
  | .attach _ _ => ⟨p, r, []⟩
  | .logValues values => ⟨p.logValues values, r, []⟩
  | .logMessage m => ⟨p.logMessage m, r, []⟩
  | .update props => p.update props r
  | .mount => p.mount r
  | .unmount => p.unmount r

theorem update_of_leads (h : p.leads r = true) (props : Value) :
    p.update props r =
      ⟨p.settle, (p.number r).2,
        .rendered p.label ((r.roster p.owner).activations.resolve p.id).1 props ::
          p.changedMessage⟩ := by
  simp only [update, number_of_leads h]

theorem update_of_not_leads (h : p.leads r = false) (props : Value) :
    p.update props r = ⟨p.settle, (p.number r).2, p.changedMessage⟩ := by
  simp only [update, number_of_not_leads h]

theorem mount_of_leads (h : p.leads r = true) :
    p.mount r =
      ⟨{p with announced := some ((r.roster p.owner).activations.resolve p.id).1},
        (p.number r).2,
        [.mounted p.label ((r.roster p.owner).activations.resolve p.id).1]⟩ := by
  simp only [mount, number_of_leads h]

theorem mount_of_not_leads (h : p.leads r = false) : p.mount r = ⟨p, (p.number r).2, []⟩ := by
  simp only [mount, number_of_not_leads h]

theorem unmount_of_announced {n : Nat} (h : p.announced = some n) :
    p.unmount r =
      ⟨{p with announced := none},
        r.setRoster p.owner
          ⟨(r.roster p.owner).sites.release p.site.path,
            (r.roster p.owner).activations.release p.id⟩,
        [.unmounted p.label n]⟩ := by
  simp only [unmount, h, Registry.dropSite_dropActivation]

theorem unmount_of_not_announced (h : p.announced = none) : p.unmount r = ⟨p, r, []⟩ := by
  simp only [unmount, h]

section Roster
variable {owner : Owner}

/-- A lookup resolves the site, and the activation when the site is primary. -/
theorem number_roster (p : Reporter) (r : Registry) :
    (p.number r).2.roster p.owner =
      ⟨((r.roster p.owner).sites.resolve p.site.path).2,
        if p.leads r then ((r.roster p.owner).activations.resolve p.id).2
        else (r.roster p.owner).activations⟩ := by
  cases h : p.leads r with
  | true => rw [number_of_leads h, Registry.roster_setRoster_self, if_pos rfl]
  | false => rw [number_of_not_leads h, Registry.roster_setRoster_self, if_neg Bool.false_ne_true]

theorem number_roster_of_ne (p : Reporter) (r : Registry) (hne : owner ≠ p.owner) :
    (p.number r).2.roster owner = r.roster owner := by
  cases h : p.leads r with
  | true => rw [number_of_leads h, Registry.roster_setRoster_of_ne _ _ hne]
  | false => rw [number_of_not_leads h, Registry.roster_setRoster_of_ne _ _ hne]

theorem update_registry (p : Reporter) (r : Registry) (props : Value) :
    (p.update props r).registry = (p.number r).2 := by
  cases h : p.leads r with
  | true => rw [update_of_leads h]
  | false => rw [update_of_not_leads h]

theorem mount_registry (p : Reporter) (r : Registry) : (p.mount r).registry = (p.number r).2 := by
  cases h : p.leads r with
  | true => rw [mount_of_leads h]
  | false => rw [mount_of_not_leads h]

def rosterAfter (p : Reporter) (r : Registry) : Step → Roster
  | .update _ | .mount => (p.number r).2.roster p.owner
  | .unmount =>
    if p.announced.isSome then
      ⟨(r.roster p.owner).sites.release p.site.path,
        (r.roster p.owner).activations.release p.id⟩
    else r.roster p.owner
  | _ => r.roster p.owner

/-- The call sites listed after a step of a reporter at the path: every lookup lists it,
primary or not, and an unmount takes it off when a number was announced. -/
def sitesAfter (sites : Numbering String) (path : String) (announced : Bool) :
    Step → Numbering String
  | .update _ | .mount => (sites.resolve path).2
  | .unmount => if announced then sites.release path else sites
  | _ => sites

/-- A step lists no call site but that of the reporter. -/
theorem mem_sitesAfter {sites : Numbering String} {path other : String} {announced : Bool}
    {step : Step} (h : other ∈ (sitesAfter sites path announced step).keys) :
    other ∈ sites.keys ∨ other = path := by
  cases step with
  | update props => exact Numbering.mem_resolve.mp h
  | mount => exact Numbering.mem_resolve.mp h
  | unmount =>
      rw [sitesAfter] at h
      split at h
      · exact .inl (Numbering.mem_of_mem_release h)
      · exact .inl h
  | _ => exact .inl h

theorem rosterAfter_sites (p : Reporter) (r : Registry) (step : Step) :
    (p.rosterAfter r step).sites =
      sitesAfter (r.roster p.owner).sites p.site.path p.announced.isSome step := by
  cases step with
  | update props => rw [rosterAfter, number_roster, sitesAfter]
  | mount => rw [rosterAfter, number_roster, sitesAfter]
  | unmount =>
      rw [rosterAfter]
      cases p.announced <;> rfl
  | _ => rfl

/-- The activation is registered by lookups at the primary site only. -/
theorem rosterAfter_activations (p : Reporter) (r : Registry) (step : Step) :
    (p.rosterAfter r step).activations =
      match step with
      | .update _ | .mount =>
        if p.leads r then ((r.roster p.owner).activations.resolve p.id).2
        else (r.roster p.owner).activations
      | .unmount =>
        if p.announced.isSome then (r.roster p.owner).activations.release p.id
        else (r.roster p.owner).activations
      | _ => (r.roster p.owner).activations := by
  cases step with
  | update props => rw [rosterAfter, number_roster]
  | mount => rw [rosterAfter, number_roster]
  | unmount =>
      rw [rosterAfter]
      cases p.announced <;> rfl
  | _ => rfl

/-- A step registers no activation but that of the reporter. -/
theorem mem_rosterAfter {p : Reporter} {r : Registry} {step : Step} {k : ActivationId}
    (h : k ∈ (p.rosterAfter r step).activations.keys) :
    k ∈ (r.roster p.owner).activations.keys ∨ k = p.id := by
  have looked (hk : k ∈ (if p.leads r then ((r.roster p.owner).activations.resolve p.id).2
      else (r.roster p.owner).activations).keys) :
      k ∈ (r.roster p.owner).activations.keys ∨ k = p.id := by
    split at hk
    · exact Numbering.mem_resolve.mp hk
    · exact .inl hk
  rw [rosterAfter_activations] at h
  cases step with
  | update props => exact looked h
  | mount => exact looked h
  | unmount =>
      cases ha : p.announced with
      | some n =>
          rw [ha] at h
          exact .inl (Numbering.mem_of_mem_release h)
      | none =>
          rw [ha] at h
          exact .inl h
  | _ => exact .inl h

theorem act_roster (p : Reporter) (r : Registry) (step : Step) :
    (p.act r step).registry.roster p.owner = p.rosterAfter r step := by
  cases step with
  | update props => rw [act, update_registry, rosterAfter]
  | mount => rw [act, mount_registry, rosterAfter]
  | unmount =>
      cases h : p.announced with
      | some n =>
          rw [act, unmount_of_announced h, Registry.roster_setRoster_self, rosterAfter, h]
          rfl
      | none =>
          rw [act, unmount_of_not_announced h, rosterAfter, h]
          rfl
  | _ => rfl

theorem act_roster_of_ne (p : Reporter) (r : Registry) (step : Step) (hne : owner ≠ p.owner) :
    (p.act r step).registry.roster owner = r.roster owner := by
  cases step with
  | update props => rw [act, update_registry, number_roster_of_ne p r hne]
  | mount => rw [act, mount_registry, number_roster_of_ne p r hne]
  | unmount =>
      cases h : p.announced with
      | some n => rw [act, unmount_of_announced h, Registry.roster_setRoster_of_ne _ _ hne]
      | none => rw [act, unmount_of_not_announced h]
  | _ => rfl

end Roster

/-- The number kept after a step: a mount at the primary site takes a new one, and an
unmount gives it up. -/
theorem act_announced (p : Reporter) (r : Registry) (step : Step) :
    (p.act r step).reporter.announced =
      match step with
      | .mount =>
        if p.leads r then some ((r.roster p.owner).activations.resolve p.id).1 else p.announced
      | .unmount => none
      | _ => p.announced := by
  cases step with
  | update props =>
      cases h : p.leads r with
      | true => rw [act, update_of_leads h]; rfl
      | false => rw [act, update_of_not_leads h]; rfl
  | mount =>
      cases h : p.leads r with
      | true => rw [act, mount_of_leads h]; rfl
      | false => rw [act, mount_of_not_leads h]; rfl
  | unmount =>
      cases h : p.announced with
      | some n => rw [act, unmount_of_announced h]
      | none => rw [act, unmount_of_not_announced h, h]
  | _ => rfl

/-- No step changes whose reporter it is or where it stands. -/
theorem act_identity (p : Reporter) (r : Registry) (step : Step) :
    (p.act r step).reporter.owner = p.owner ∧ (p.act r step).reporter.label = p.label ∧
      (p.act r step).reporter.site = p.site ∧ (p.act r step).reporter.id = p.id := by
  cases step with
  | attach logger a => exact ⟨rfl, rfl, rfl, rfl⟩
  | logValues values => exact ⟨rfl, rfl, rfl, rfl⟩
  | logMessage m => exact ⟨rfl, rfl, rfl, rfl⟩
  | update props =>
      cases h : p.leads r with
      | true => rw [act, update_of_leads h]; exact ⟨rfl, rfl, rfl, rfl⟩
      | false => rw [act, update_of_not_leads h]; exact ⟨rfl, rfl, rfl, rfl⟩
  | mount =>
      cases h : p.leads r with
      | true => rw [act, mount_of_leads h]; exact ⟨rfl, rfl, rfl, rfl⟩
      | false => rw [act, mount_of_not_leads h]; exact ⟨rfl, rfl, rfl, rfl⟩
  | unmount =>
      cases h : p.announced with
      | some n => rw [act, unmount_of_announced h]; exact ⟨rfl, rfl, rfl, rfl⟩
      | none => rw [act, unmount_of_not_announced h]; exact ⟨rfl, rfl, rfl, rfl⟩

end Reporter
end RenderLog
