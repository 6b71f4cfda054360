import Mathlib.Logic.Equiv.Basic
import RenderLog.Proofs.LiveNumbers
import RenderLog.Proofs.Observation
import RenderLog.Proofs.Renaming

/-!
# Isolation of owners

Reporters of many owners share registries and sinks. A run in which all of them
take their steps is compared with the one in which the reporters of a single owner
take theirs and nobody else does. At each of its steps the owner is given back the
same value, hands over the same lines and counts the same call sites and
activations in every registry.

Serials of activations are dealt out to all owners in turn, so they differ between
the two runs. The rosters of the owner agree up to a permutation of activations,
which is extended by one transposition at each attachment.
-/
namespace RenderLog

/-- What a step shows to an owner, whose call sites and activations are counted after it. -/
structure View where
  returned : Option Value
  handed : List (SinkId × Line)
  siteCount : RegistryId → Nat
  activationCount : RegistryId → Nat

structure Moment (σ : Type) where
  session : Session σ
  id : ReporterId
  step : Step

namespace Moment
variable {σ : Type}

/-- The owner whose reporter takes the step. An attachment is a step of the new reporter. -/
def owner (m : Moment σ) : Option Owner :=
  match m.step with
  | .attach _ a => some a.owner
  | _ => m.session.ownerOf m.id

def taken (m : Moment σ) : ReporterId × Step := (m.id, m.step)

variable [Sink σ]

def view (m : Moment σ) (owner : Owner) : View :=
  let (after, reply) := m.session.perform m.id m.step
  ⟨reply.returned, reply.handed, fun registry => (after.registries.get registry).siteCount owner,
    fun registry => (after.registries.get registry).activationCount owner⟩

end Moment

namespace Session
variable {σ : Type}

def course [Sink σ] (s : Session σ) : List (ReporterId × Step) → List (Moment σ)
  | [] => []
  | (id, step) :: rest => ⟨s, id, step⟩ :: (s.perform id step).1.course rest

/-- The moments of a run at which a reporter of the owner takes a step. -/
def courseOf [Sink σ] (s : Session σ) (owner : Owner) (steps : List (ReporterId × Step)) :
    List (Moment σ) :=
  (s.course steps).filter fun m => m.owner = some owner

/-- The first session has of the owner what the second has, with activations renamed. -/
structure Mirrors (t s : Session σ) (owner : Owner) (f : Equiv.Perm ActivationId) : Prop where
  rosters : ∀ registry, s.roster registry owner = (t.roster registry owner).rename f
  reporters : ∀ id x, s.reporters.get id = some x → x.reporter.owner = owner →
    ∃ q, t.reporters.get id = some ⟨x.logger, q⟩ ∧ x.reporter = q.rename f
  /-- Activations issued in the first session are issued in the second. -/
  below : ∀ k, k.serial < t.nextSerial → (f k).serial < s.nextSerial

variable {s t u v : Session σ} {owner : Owner} {f : Equiv.Perm ActivationId} {id : ReporterId}

theorem mirrors_refl (s : Session σ) (owner : Owner) : s.Mirrors s owner (Equiv.refl _) where
  rosters _ := (Roster.rename_id _).symm
  reporters _ x hx _ := ⟨x.reporter, hx, rfl⟩
  below _ hk := hk

namespace Mirrors

theorem roster_of_owner (h : t.Mirrors s owner f) {q : Reporter} (hq : q.owner = owner)
    (registry : RegistryId) :
    (s.registries.get registry).roster q.owner =
      ((t.registries.get registry).roster q.owner).rename f := by
  rw [hq]
  exact h.rosters registry

/-- An attachment of another owner is not mirrored. -/
theorem attach_other (h : t.Mirrors s owner f) (logger : Logger) {a : Activation}
    (ha : a.owner ≠ owner) : t.Mirrors (s.attach id logger a) owner f where
  rosters := h.rosters
  reporters i x hx hown := by
    by_cases hi : i = id
    · subst hi
      rw [attach_get_self] at hx
      cases hx
      exact (ha hown).elim
    · rw [attach_get_of_ne s id logger a hi] at hx
      exact h.reporters i x hx hown
  below k hk := Nat.lt_succ_of_lt (h.below k hk)

theorem acted_other (h : t.Mirrors s owner f) {channel : Channel} {p : Reporter} {step : Step}
    (hp : p.owner ≠ owner)
    (hact : Acted s u id channel (p.act (s.registries.get channel.registry) step)) :
    t.Mirrors u owner f where
  rosters registry := by
    rw [hact.roster_eq, if_neg fun hc => hp hc.2.symm]
    exact h.rosters registry
  reporters i x hx hown := by
    by_cases hi : i = id
    · subst hi
      rw [hact.works_self] at hx
      cases hx
      exact (hp ((p.act_identity _ step).1.symm.trans hown)).elim
    · rw [hact.get_of_ne hi] at hx
      exact h.reporters i x hx hown
  below k hk := by
    rw [hact.nextSerial]
    exact h.below k hk

/-- An attachment of the owner is mirrored, and its activation gets its own name on each side. -/
theorem attach_own (h : t.Mirrors s owner f) (ht : ∀ registry, t.Issued registry owner)
    (id : ReporterId) (logger : Logger) (a : Activation) :
    (t.attach id logger a).Mirrors (s.attach id logger a) owner
      (f.trans (Equiv.swap (f ⟨t.nextSerial⟩) ⟨s.nextSerial⟩)) := by
  -- What was issued before keeps its name.
  have old : ∀ k : ActivationId, k.serial < t.nextSerial →
      (f.trans (Equiv.swap (f ⟨t.nextSerial⟩) ⟨s.nextSerial⟩)) k = f k := by
    intro k hk
    refine Equiv.swap_apply_of_ne_of_ne (fun he => ?_) fun he => ?_
    · rw [f.injective he] at hk
      exact Nat.lt_irrefl _ hk
    · have hlt := h.below k hk
      rw [he] at hlt
      exact Nat.lt_irrefl _ hlt
  have new : (f.trans (Equiv.swap (f ⟨t.nextSerial⟩) ⟨s.nextSerial⟩)) ⟨t.nextSerial⟩ =
      ⟨s.nextSerial⟩ := Equiv.swap_apply_left _ _
  refine ⟨fun registry => ?_, fun i x hx hown => ?_, fun k hk => ?_⟩
  · rw [attach_roster, attach_roster, h.rosters]
    exact Roster.rename_congr fun k hk => (old k ((ht registry).registered k hk)).symm
  · by_cases hi : i = id
    · subst hi
      rw [attach_get_self] at hx
      cases hx
      exact ⟨_, attach_get_self t i logger a, by rw [Reporter.rename_ofActivation, new]⟩
    · rw [attach_get_of_ne s id logger a hi] at hx
      obtain ⟨q, hq, hx⟩ := h.reporters i x hx hown
      refine ⟨q, by rw [attach_get_of_ne t id logger a hi, hq], ?_⟩
      rw [hx, Reporter.rename, Reporter.rename, old q.id ((ht .process).issued i _ hq)]
  · rw [attach_nextSerial] at hk ⊢
    rcases Nat.lt_succ_iff_lt_or_eq.mp hk with hk | hk
    · rw [old k hk]
      exact Nat.lt_succ_of_lt (h.below k hk)
    · obtain ⟨serial⟩ := k
      subst hk
      rw [new]
      exact Nat.lt_succ_self _

theorem acted_own (h : t.Mirrors s owner f) {channel : Channel} {q : Reporter} {step : Step}
    (hq : q.owner = owner)
    (hs : Acted s u id channel ((q.rename f).act (s.registries.get channel.registry) step))
    (ht : Acted t v id channel (q.act (t.registries.get channel.registry) step)) :
    v.Mirrors u owner f := by
  have hroster := h.roster_of_owner hq channel.registry
  refine ⟨fun registry => ?_, fun i x hx hown => ?_, fun k hk => ?_⟩
  · rw [hs.roster_eq, ht.roster_eq]
    change (if registry = channel.registry ∧ owner = q.owner then _ else _) = _
    split
    · exact Reporter.rosterAfter_rename f.injective hroster step
    · exact h.rosters registry
  · by_cases hi : i = id
    · subst hi
      rw [hs.works_self] at hx
      cases hx
      exact ⟨_, ht.works_self, (Reporter.act_rename f.injective hroster step).2⟩
    · rw [hs.get_of_ne hi] at hx
      obtain ⟨p, hp, hx⟩ := h.reporters i x hx hown
      exact ⟨p, by rw [ht.get_of_ne hi, hp], hx⟩
  · rw [ht.nextSerial] at hk
    rw [hs.nextSerial]
    exact h.below k hk

theorem siteCount_eq (h : t.Mirrors s owner f) (registry : RegistryId) :
    (s.registries.get registry).siteCount owner = (t.registries.get registry).siteCount owner :=
  congrArg (fun x => x.sites.count) (h.rosters registry)

theorem activationCount_eq (h : t.Mirrors s owner f) (registry : RegistryId) :
    (s.registries.get registry).activationCount owner =
      (t.registries.get registry).activationCount owner := by
  have hroster := congrArg (fun x => x.activations.count) (h.rosters registry)
  exact hroster.trans (Numbering.count_map _ _)

variable [Sink σ]

theorem perform_other (h : t.Mirrors s owner f) (id : ReporterId) (step : Step)
    (ho : (Moment.mk s id step).owner ≠ some owner) :
    t.Mirrors (s.perform id step).1 owner f := by
  rcases perform_cases s id step with
    ⟨logger, a, rfl, ht, -⟩ | ⟨-, ht, -⟩ | ⟨channel, p, hw, hstep, hact, -⟩
  · rw [ht]
    exact h.attach_other logger fun ha => ho (congrArg some ha)
  · rw [ht]
    exact h
  · refine h.acted_other (fun hp => ho ?_) hact
    have hown : s.ownerOf id = some owner := by
      rw [ownerOf, hw, Option.map_some, hp]
    cases step with
    | attach logger a => exact (hstep logger a rfl).elim
    | _ => exact hown

theorem perform_own (h : t.Mirrors s owner f) (ht : ∀ registry, t.Issued registry owner)
    (id : ReporterId) (step : Step) (ho : (Moment.mk s id step).owner = some owner) :
    (∃ g, (t.perform id step).1.Mirrors (s.perform id step).1 owner g) ∧
      (s.perform id step).2.handed = (t.perform id step).2.handed := by
  rcases step.attach_cases with ⟨logger, a, rfl⟩ | hstep
  · exact ⟨⟨_, h.attach_own ht id logger a⟩, rfl⟩
  · have hown : s.ownerOf id = some owner := by
      cases step with
      | attach logger a => exact (hstep logger a rfl).elim
      | _ => exact ho
    obtain ⟨⟨logger, p⟩, hx, hp⟩ := Option.map_eq_some_iff.mp hown
    obtain ⟨q, hq, rfl⟩ := h.reporters id _ hx hp
    cases logger with
    | disabled =>
        have idle {w : Session σ} {x : Reporter} (hw : w.reporters.get id = some ⟨.disabled, x⟩) :
            ∀ channel p, ¬ w.Works id channel p := by
          intro channel p hp
          cases hw.symm.trans hp
        obtain ⟨hs, hes⟩ := perform_of_idle (idle hx) hstep
        obtain ⟨ht, het⟩ := perform_of_idle (idle hq) hstep
        rw [hs, ht, Reply.handed_of_entries_eq_nil hes, Reply.handed_of_entries_eq_nil het]
        exact ⟨⟨f, h⟩, rfl⟩
    | enabled channel =>
        have hown : q.owner = owner := hp
        have hroster := h.roster_of_owner hown channel.registry
        refine ⟨⟨f, h.acted_own hown (perform_acted hx hstep).1 (perform_acted hq hstep).1⟩, ?_⟩
        rw [(perform_sends hx hstep).handed_eq, (perform_sends hq hstep).handed_eq,
          (Reporter.act_rename f.injective hroster step).1]

/-- The run of the owner alone, from a session that mirrors the other, shows the same. -/
theorem course_views (h : t.Mirrors s owner f) (ht : ∀ registry, t.Issued registry owner)
    (steps : List (ReporterId × Step)) :
    (s.courseOf owner steps).map (·.view owner) =
      (t.course ((s.courseOf owner steps).map Moment.taken)).map (·.view owner) := by
  induction steps generalizing s t f with
  | nil => rfl
  | cons e steps ih =>
      obtain ⟨id, step⟩ := e
      by_cases ho : (Moment.mk s id step).owner = some owner
      · obtain ⟨⟨g, hg⟩, hhanded⟩ := h.perform_own ht id step ho
        have hview : (Moment.mk s id step).view owner = (Moment.mk t id step).view owner := by
          simp only [Moment.view, perform_returned, hhanded, hg.siteCount_eq, hg.activationCount_eq]
        have hcourse : s.courseOf owner ((id, step) :: steps) =
            ⟨s, id, step⟩ :: (s.perform id step).1.courseOf owner steps :=
          List.filter_cons_of_pos (decide_eq_true ho)
        rw [hcourse, List.map_cons, List.map_cons, hview,
          ih hg fun registry => (ht registry).after [(id, step)]]
        rfl
      · have hcourse : s.courseOf owner ((id, step) :: steps) =
            (s.perform id step).1.courseOf owner steps :=
          List.filter_cons_of_neg (Bool.not_eq_true _ ▸ decide_eq_false ho)
        rw [hcourse]
        exact ih (h.perform_other id step ho) ht

end Mirrors

variable [Sink σ]

/-- At each of its steps an owner sees what it sees in the run of its own steps alone. -/
theorem courseOf_views (s : Session σ) (owner : Owner) (h : ∀ registry, s.Issued registry owner)
    (steps : List (ReporterId × Step)) :
    (s.courseOf owner steps).map (·.view owner) =
      (s.course ((s.courseOf owner steps).map Moment.taken)).map (·.view owner) :=
  (mirrors_refl s owner).course_views h steps

/-- Activations of two owners that log to one sink and share a registry. -/
def neighbours : List (ReporterId × Step) :=
  [("x", .attach (.enabled .terminal) ⟨.token 1, none, []⟩),
    ("a", .attach (.enabled .terminal) (.unnamed [])), ("x", .update .null), ("x", .mount),
    ("a", .logValues [.int 1]), ("a", .update .null), ("x", .logValues [.int 2]), ("x", .unmount),
    ("a", .mount), ("x", .update .null)]

theorem courseOf_views_neighbours :
    (∀ registry, (start memories).Issued registry (.token 0)) ∧
      ((start memories).courseOf (.token 0) neighbours).map (·.view (.token 0)) =
        ((start memories).course
          [("a", .attach (.enabled .terminal) (.unnamed [])), ("a", .logValues [.int 1]),
            ("a", .update .null), ("a", .mount)]).map (·.view (.token 0)) := by
  have hissued : ∀ registry, (start memories).Issued registry (.token 0) :=
    fun _ => issued_of_none (fun _ => rfl) rfl
  have hviews := courseOf_views (start memories) (.token 0) hissued neighbours
  have hcut : ((start memories).courseOf (.token 0) neighbours).map Moment.taken =
      [("a", .attach (.enabled .terminal) (.unnamed [])), ("a", .logValues [.int 1]),
        ("a", .update .null), ("a", .mount)] := rfl
  rw [hcut] at hviews
  exact ⟨hissued, hviews⟩

end Session
end RenderLog
