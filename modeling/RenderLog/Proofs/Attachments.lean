import RenderLog.Proofs.HostOrder
import RenderLog.Sink.Memory

/-!
# Attachments

A reporter at work has the logger, the owner and the call site of the attachment
that made it, and keeps them. So everything that a registry knows of an owner
was brought there by attachments of the run: each call site that it lists is one
of theirs.
-/
namespace RenderLog

/-- The reporter has the owner, the name and the call site of the activation. -/
structure Reporter.IsOf (p : Reporter) (a : Activation) : Prop where
  owner : p.owner = a.owner
  label : p.label = unitLabel a.name
  site : p.site = .ofFrames a.frames

theorem Reporter.IsOf.ofActivation (a : Activation) (id : ActivationId) :
    (Reporter.ofActivation a (.ofFrames a.frames) id).IsOf a := ⟨rfl, rfl, rfl⟩

theorem Reporter.IsOf.act {p : Reporter} {a : Activation} (h : p.IsOf a) (r : Registry)
    (step : Step) : (p.act r step).reporter.IsOf a := by
  obtain ⟨ho, hl, hs, -⟩ := p.act_identity r step
  exact ⟨ho.trans h.owner, hl.trans h.label, hs.trans h.site⟩

/-- The steps of one reporter in a run. -/
def ownSteps (steps : List (ReporterId × Step)) (id : ReporterId) : List Step :=
  (steps.filter fun e => e.1 = id).map Prod.snd

theorem ownSteps_concat_self (steps : List (ReporterId × Step)) (id : ReporterId) (step : Step) :
    ownSteps (steps ++ [(id, step)]) id = ownSteps steps id ++ [step] := by
  simp [ownSteps]

theorem ownSteps_concat_of_ne (steps : List (ReporterId × Step)) {i id : ReporterId} (h : i ≠ id)
    (step : Step) : ownSteps (steps ++ [(i, step)]) id = ownSteps steps id := by
  simp [ownSteps, h]

def Attaches (steps : List (ReporterId × Step)) (id : ReporterId) (channel : Channel)
    (a : Activation) : Prop := (id, .attach (.enabled channel) a) ∈ steps

/-- The last attachment of the reporter is to an enabled logger. -/
def LastAttaches (steps : List (ReporterId × Step)) (id : ReporterId) (channel : Channel)
    (a : Activation) : Prop :=
  ∃ before later, steps = before ++ (id, .attach (.enabled channel) a) :: later ∧
    ∀ step ∈ ownSteps later id, step.isAttach = false

/-- The run attaches a reporter of the owner to the registry. -/
def Uses (steps : List (ReporterId × Step)) (id : ReporterId) (registry : RegistryId)
    (owner : Owner) : Prop :=
  ∃ channel a, Attaches steps id channel a ∧ channel.registry = registry ∧ a.owner = owner

/-- The terminal, the registry of the process and the first sink. -/
def Channel.terminal : Channel := ⟨.terminal, .process, 0⟩

def Activation.unnamed (frames : List Frame) : Activation := ⟨.token 0, none, frames⟩

/-- Sinks that keep their lines. -/
def memories : Table SinkId Sink.Memory := .const .empty

theorem Attaches.concat {past : List (ReporterId × Step)} {id : ReporterId} {channel : Channel}
    {a : Activation} (h : Attaches past id channel a) (e : ReporterId × Step) :
    Attaches (past ++ [e]) id channel a := List.mem_append_left [e] h

namespace LastAttaches
variable {past : List (ReporterId × Step)} {id i : ReporterId} {channel : Channel} {a : Activation}
variable {step : Step}

theorem attaches (h : LastAttaches past id channel a) : Attaches past id channel a := by
  obtain ⟨before, later, rfl, -⟩ := h
  exact List.mem_append_right before List.mem_cons_self

theorem concat_attach (past : List (ReporterId × Step)) (id : ReporterId) (channel : Channel)
    (a : Activation) : LastAttaches (past ++ [(id, .attach (.enabled channel) a)]) id channel a :=
  ⟨past, [], rfl, fun _ hm => (List.not_mem_nil hm).elim⟩

theorem concat_self (h : LastAttaches past id channel a) (hs : step.isAttach = false) :
    LastAttaches (past ++ [(id, step)]) id channel a := by
  obtain ⟨before, later, rfl, hown⟩ := h
  refine ⟨before, later ++ [(id, step)], by simp, ?_⟩
  rw [ownSteps_concat_self]
  intro other ho
  rcases List.mem_append.mp ho with ho | ho
  · exact hown other ho
  · rwa [List.mem_singleton.mp ho]

theorem concat_of_ne (h : LastAttaches past id channel a) (hi : i ≠ id) (step : Step) :
    LastAttaches (past ++ [(i, step)]) id channel a := by
  obtain ⟨before, later, rfl, hown⟩ := h
  exact ⟨before, later ++ [(i, step)], by simp, by rwa [ownSteps_concat_of_ne later hi]⟩

end LastAttaches

namespace Session
variable {σ : Type} {s t : Session σ}

theorem Acted.roster_eq {id : ReporterId} {channel : Channel} {p : Reporter} {step : Step}
    (h : Acted s t id channel (p.act (s.registries.get channel.registry) step))
    (registry : RegistryId) (owner : Owner) :
    t.roster registry owner =
      if registry = channel.registry ∧ owner = p.owner then
        p.rosterAfter (s.registries.get channel.registry) step
      else s.roster registry owner := by
  by_cases hr : registry = channel.registry
  · subst hr
    rw [h.roster_self]
    by_cases ho : owner = p.owner
    · rw [if_pos ⟨rfl, ho⟩, ho, Reporter.act_roster]
    · rw [if_neg fun hc => ho hc.2, Reporter.act_roster_of_ne p _ step ho]
      rfl
  · rw [if_neg fun hc => hr hc.1, h.roster_of_ne hr]

variable [Sink σ] {past : List (ReporterId × Step)} {id : ReporterId} {channel : Channel}

/-- Whoever is at work has what its last attachment gave. -/
theorem lastAttaches_of_works (hs : ∀ id, s.reporters.get id = none) {p : Reporter}
    (hw : (s.after past).Works id channel p) : ∃ a, LastAttaches past id channel a ∧ p.IsOf a := by
  refine works_induction hs
    (motive := fun past channel p => ∃ a, LastAttaches past id channel a ∧ p.IsOf a)
    ?_ ?_ ?_ past hw
  · intro past channel a
    exact ⟨a, .concat_attach past id channel a, .ofActivation a _⟩
  · intro past channel p step _ hstep ih
    obtain ⟨a, ha, hof⟩ := ih
    exact ⟨a, ha.concat_self (Step.isAttach_eq_false hstep), hof.act _ step⟩
  · intro past channel p i step hi ih
    obtain ⟨a, ha, hof⟩ := ih
    exact ⟨a, ha.concat_of_ne hi step, hof⟩

theorem attaches_of_works (hs : ∀ id, s.reporters.get id = none) {p : Reporter}
    (hw : (s.after past).Works id channel p) : ∃ a, Attaches past id channel a ∧ p.IsOf a := by
  obtain ⟨a, ha, hof⟩ := lastAttaches_of_works hs hw
  exact ⟨a, ha.attaches, hof⟩

theorem works_of_attaches {a : Activation} (h : Attaches past id channel a)
    (ho : phase past id ≠ none) : ∃ p, (s.after past).Works id channel p ∧ p.IsOf a := by
  induction past using List.reverseRecOn with
  | nil => cases h
  | append_singleton past e ih =>
      obtain ⟨i, step⟩ := e
      rw [after_concat]
      rcases List.mem_append.mp h with hpast | hlast
      · have hp := phase_ne_none_of_append ho
        obtain ⟨p, hw, hof⟩ := ih hpast hp
        by_cases hi : i = id
        · subst hi
          rcases perform_cases (s.after past) i step with
            ⟨logger, b, rfl, -, -⟩ | ⟨hidle, -, -⟩ | ⟨c, q, hq, -, hact, -⟩
          · -- A second attachment is out of order.
            obtain ⟨before, after, hb, hn⟩ := exists_phases_of_concat ho
            cases before <;> cases hn
            exact (phase_ne_absent hpast hb).elim
          · exact (hidle channel p hw).elim
          · obtain ⟨rfl, rfl⟩ := hw.unique hq
            exact ⟨_, hact.works_self, hof.act _ step⟩
        · refine ⟨p, ?_, hof⟩
          rwa [Works, perform_get_of_ne _ (Ne.symm hi)]
      · cases List.mem_singleton.mp hlast
        exact ⟨_, attach_get_self (s.after past) id (.enabled channel) a, .ofActivation a _⟩

/-- What a roster comes to list in a run was brought there by reporters of the owner at work. -/
theorem exists_works_of_mem {κ : Type} (keys : Roster → List κ) (own : Reporter → κ)
    (hkeys : ∀ (p : Reporter) (r : Registry) (step : Step) (k : κ),
      k ∈ keys (p.rosterAfter r step) → k ∈ keys (r.roster p.owner) ∨ k = own p)
    {registry : RegistryId} {owner : Owner} (hr : keys (s.roster registry owner) = []) {k : κ}
    (h : k ∈ keys ((s.after past).roster registry owner)) :
    ∃ before later id channel p, past = before ++ later ∧ (s.after before).Works id channel p ∧
      channel.registry = registry ∧ p.owner = owner ∧ own p = k := by
  induction past using List.reverseRecOn with
  | nil =>
      rw [after_nil, hr] at h
      cases h
  | append_singleton past e ih =>
      obtain ⟨i, step⟩ := e
      rw [after_concat] at h
      -- It was listed before the step, unless the step is of the reporter that brings it.
      have hold : k ∈ keys ((s.after past).roster registry owner) ∨
          ∃ channel p, (s.after past).Works i channel p ∧ channel.registry = registry ∧
            p.owner = owner ∧ own p = k := by
        rcases perform_cases (s.after past) i step with
          ⟨logger, a, -, ht, -⟩ | ⟨-, ht, -⟩ | ⟨channel, p, hw, -, hact, -⟩
        · rw [ht, attach_roster] at h
          exact .inl h
        · rw [ht] at h
          exact .inl h
        · rw [hact.roster_eq] at h
          split at h
          · rename_i hc
            obtain ⟨rfl, rfl⟩ := hc
            exact (hkeys p _ step k h).imp_right fun he => ⟨channel, p, hw, rfl, rfl, he.symm⟩
          · exact .inl h
      rcases hold with hold | ⟨channel, p, hw, hrest⟩
      · obtain ⟨before, later, id, channel, p, rfl, hrest⟩ := ih hold
        exact ⟨before, later ++ [(i, step)], id, channel, p, List.append_assoc _ _ _, hrest⟩
      · exact ⟨past, [(i, step)], i, channel, p, rfl, hw, hrest⟩

theorem attaches_of_mem_sites (hs : ∀ id, s.reporters.get id = none) {registry : RegistryId}
    {owner : Owner} (hr : (s.roster registry owner).sites = .empty) {path : String}
    (h : path ∈ ((s.after past).roster registry owner).sites.keys) :
    ∃ id channel a, Attaches past id channel a ∧ channel.registry = registry ∧
      a.owner = owner ∧ (CallSite.ofFrames a.frames).path = path := by
  have hkeys (p : Reporter) (r : Registry) (step : Step) (other : String)
      (hm : other ∈ (p.rosterAfter r step).sites.keys) :
      other ∈ (r.roster p.owner).sites.keys ∨ other = p.site.path := by
    rw [Reporter.rosterAfter_sites] at hm
    exact Reporter.mem_sitesAfter hm
  have hempty : (s.roster registry owner).sites.keys = [] := by rw [hr]; rfl
  obtain ⟨before, later, id, channel, p, rfl, hw, hc, ho, hp⟩ :=
    exists_works_of_mem (fun x => x.sites.keys) (fun p => p.site.path) hkeys hempty h
  obtain ⟨a, ha, hof⟩ := attaches_of_works hs hw
  exact ⟨id, channel, a, List.mem_append_left later ha, hc, hof.owner ▸ ho, hof.site ▸ hp⟩

end Session
end RenderLog
