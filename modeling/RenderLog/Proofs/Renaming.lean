import Mathlib.Data.List.Basic
import RenderLog.Proofs.Reporter

/-!
# Renaming activations

An activation is known by a serial that nobody is told. Numbers are positions, so
a numbering gives the same numbers when its keys are renamed apart. What a
reporter does under a new identity, with the roster of its owner renamed alike, is
what it did before, and the two rosters stay alike.
-/
namespace RenderLog

namespace Numbering
variable {κ : Type}

/-- The same numbers for other keys. -/
def map (f : κ → κ) (n : Numbering κ) : Numbering κ := ⟨n.keys.map f⟩

@[simp] theorem count_map (f : κ → κ) (n : Numbering κ) : (n.map f).count = n.count :=
  List.length_map f

theorem map_id (n : Numbering κ) : n.map id = n := by
  rw [map, List.map_id]

theorem map_congr {f g : κ → κ} {n : Numbering κ} (h : ∀ k ∈ n.keys, f k = g k) :
    n.map f = n.map g := by
  rw [map, map, List.map_congr_left h]

theorem vacate_map (f : κ → κ) (n : Numbering κ) (i : Nat) :
    (n.map f).vacate i = (n.vacate i).map f := by
  simp only [vacate, map, List.getLast?_map]
  cases n.keys.getLast? with
  | none => rfl
  | some last => simp [List.map_set, List.map_dropLast]

variable [DecidableEq κ] {f : κ → κ}

theorem index?_map (hf : Function.Injective f) (n : Numbering κ) (k : κ) :
    (n.map f).index? (f k) = n.index? k := by
  have hsame : ((· == f k) ∘ f) = (· == k) := by
    funext j
    simp [hf.eq_iff]
  simp only [index?, map, List.idxOf?, List.findIdx?_map, hsame]

theorem resolve_map (hf : Function.Injective f) (n : Numbering κ) (k : κ) :
    (n.map f).resolve (f k) = ((n.resolve k).1, (n.resolve k).2.map f) := by
  simp only [resolve, index?_map hf]
  cases n.index? k with
  | none => simp [map, count]
  | some i => rfl

theorem release_map (hf : Function.Injective f) (n : Numbering κ) (k : κ) :
    (n.map f).release (f k) = (n.release k).map f := by
  simp only [release, index?_map hf]
  cases n.index? k with
  | none => rfl
  | some i => exact n.vacate_map f i

end Numbering

/-- The activations of the roster under other identities; call sites keep their paths. -/
def Roster.rename (f : ActivationId → ActivationId) (x : Roster) : Roster :=
  {x with activations := x.activations.map f}

theorem Roster.rename_id (x : Roster) : x.rename id = x := by
  rw [rename, Numbering.map_id]

theorem Roster.rename_congr {f g : ActivationId → ActivationId} {x : Roster}
    (h : ∀ k ∈ x.activations.keys, f k = g k) : x.rename f = x.rename g := by
  rw [rename, rename, Numbering.map_congr h]

namespace Reporter

/-- The reporter under another identity. -/
def rename (f : ActivationId → ActivationId) (p : Reporter) : Reporter := {p with id := f p.id}

theorem rename_ofActivation (f : ActivationId → ActivationId) (a : Activation) (site : CallSite)
    (k : ActivationId) : (ofActivation a site k).rename f = ofActivation a site (f k) := rfl

variable {f : ActivationId → ActivationId} {p : Reporter} {r t : Registry}

/-- Where a reporter stands does not depend on identities. -/
theorem leads_rename (h : t.roster p.owner = (r.roster p.owner).rename f) :
    (p.rename f).leads t = p.leads r := by
  simp only [leads, Registry.isPrimary, rename, h, Roster.rename]

/-- A lookup gives the renamed reporter the same number and renames the roster after it. -/
theorem number_roster_rename (hf : Function.Injective f)
    (h : t.roster p.owner = (r.roster p.owner).rename f) :
    ((p.rename f).number t).2.roster p.owner = ((p.number r).2.roster p.owner).rename f := by
  have hnumber := number_roster (p.rename f) t
  rw [leads_rename h] at hnumber
  change _ = Roster.mk ((t.roster p.owner).sites.resolve p.site.path).2
    (if p.leads r then ((t.roster p.owner).activations.resolve (f p.id)).2
      else (t.roster p.owner).activations) at hnumber
  rw [number_roster p r]
  refine hnumber.trans ?_
  rw [h]
  simp only [Roster.rename, Numbering.resolve_map hf]
  cases p.leads r <;> rfl

/-- The roster after a step of the renamed reporter is the renamed roster after the step. -/
theorem rosterAfter_rename (hf : Function.Injective f)
    (h : t.roster p.owner = (r.roster p.owner).rename f) (step : Step) :
    (p.rename f).rosterAfter t step = (p.rosterAfter r step).rename f := by
  cases step with
  | update props => exact number_roster_rename hf h
  | mount => exact number_roster_rename hf h
  | unmount =>
      change (if p.announced.isSome then
          Roster.mk ((t.roster p.owner).sites.release p.site.path)
            ((t.roster p.owner).activations.release (f p.id))
        else t.roster p.owner) = _
      rw [h, rosterAfter]
      cases p.announced with
      | none => rfl
      | some n => simp [Roster.rename, Numbering.release_map hf]
  | _ => exact h

/-- A renamed reporter writes the same entries and becomes what the reporter becomes. -/
theorem act_rename (hf : Function.Injective f)
    (h : t.roster p.owner = (r.roster p.owner).rename f) (step : Step) :
    ((p.rename f).act t step).entries = (p.act r step).entries ∧
      ((p.rename f).act t step).reporter = (p.act r step).reporter.rename f := by
  have hnumber : ((t.roster (p.rename f).owner).activations.resolve (p.rename f).id).1 =
      ((r.roster p.owner).activations.resolve p.id).1 := by
    change ((t.roster p.owner).activations.resolve (f p.id)).1 = _
    rw [h, Roster.rename, Numbering.resolve_map hf]
  have hleads := leads_rename h
  cases step with
  | update props =>
      cases hl : p.leads r with
      | true =>
          rw [act, act, update_of_leads (hleads.trans hl), update_of_leads hl, hnumber]
          exact ⟨rfl, rfl⟩
      | false =>
          rw [act, act, update_of_not_leads (hleads.trans hl), update_of_not_leads hl]
          exact ⟨rfl, rfl⟩
  | mount =>
      cases hl : p.leads r with
      | true =>
          rw [act, act, mount_of_leads (hleads.trans hl), mount_of_leads hl, hnumber]
          exact ⟨rfl, rfl⟩
      | false =>
          rw [act, act, mount_of_not_leads (hleads.trans hl), mount_of_not_leads hl]
          exact ⟨rfl, rfl⟩
  | unmount =>
      cases ha : p.announced with
      | some n =>
          have ha' : (p.rename f).announced = some n := ha
          rw [act, act, unmount_of_announced ha', unmount_of_announced ha]
          exact ⟨rfl, rfl⟩
      | none =>
          have ha' : (p.rename f).announced = none := ha
          rw [act, act, unmount_of_not_announced ha', unmount_of_not_announced ha]
          exact ⟨rfl, rfl⟩
  | _ => exact ⟨rfl, rfl⟩

end Reporter
end RenderLog
