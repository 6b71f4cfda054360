import RenderLog.Proofs.Accounting

/-!
# Rosters and reporters

In every state that a session can reach, the registry lists of an owner what its
reporters brought there and no more: call sites where they stand and activations
that were issued to them, each once. However often the owner is activated, there
are no more call sites than its reporters stand at.

A mounted activation is listed as long as it is mounted. Only its own unmounted
line takes an activation off the list; reporters that come and go beside it never
do, because no two of them are issued the same activation.
-/
namespace RenderLog

def StoodAt (steps : List (ReporterId × Step)) (registry : RegistryId) (owner : Owner)
    (path : String) : Prop :=
  ∃ id channel a, Attaches steps id channel a ∧ channel.registry = registry ∧
    a.owner = owner ∧ (CallSite.ofFrames a.frames).path = path

theorem Reporter.sitesAfter_distinct {sites : Numbering String} (h : sites.Distinct) (path : String)
    (announced : Bool) (step : Step) : (sitesAfter sites path announced step).Distinct := by
  unfold sitesAfter
  split
  · exact h.resolve path
  · exact h.resolve path
  · split
    · exact h.release path
    · exact h
  · exact h

namespace Session
variable {σ : Type} [Sink σ] {s : Session σ} {registry : RegistryId} {owner : Owner}
variable {past : List (ReporterId × Step)} {k : ActivationId}

/-- The run attaches a reporter of the owner, to which the activation is issued. -/
def AttachesAs (s : Session σ) (past : List (ReporterId × Step)) (registry : RegistryId)
    (owner : Owner) (k : ActivationId) : Prop :=
  ∃ before id channel a later, past = before ++ (id, .attach (.enabled channel) a) :: later ∧
    channel.registry = registry ∧ a.owner = owner ∧ (s.after before).freshActivation.1 = k

/-- The activation wrote a mounted line that no unmounted line of its own has followed. -/
def Mounted (s : Session σ) (past : List (ReporterId × Step)) (registry : RegistryId)
    (owner : Owner) (k : ActivationId) : Prop :=
  Outstanding
    (fun before e => (s.after before).Holds e.1 registry owner k ∧
      (s.written before e.1 e.2).any Entry.isMounted = true)
    (fun before e => s.GivesBack before e.1 e.2 registry owner k) past

section Serials

theorem nextSerial_perform (s : Session σ) (id : ReporterId) (step : Step) :
    (s.perform id step).1.nextSerial = s.nextSerial + if step.isAttach then 1 else 0 := by
  rcases step.attach_cases with ⟨logger, a, rfl⟩ | hstep
  · rfl
  · rw [Step.isAttach_eq_false hstep]
    rcases perform_cases s id step with
      ⟨logger, a, he, -, -⟩ | ⟨-, ht, -⟩ | ⟨channel, p, -, -, hact, -⟩
    · exact (hstep logger a he).elim
    · rw [ht]
      rfl
    · exact hact.nextSerial

theorem nextSerial_after (s : Session σ) (past : List (ReporterId × Step)) :
    (s.after past).nextSerial = s.nextSerial + past.countP fun e => e.2.isAttach := by
  induction past using List.reverseRecOn with
  | nil => rfl
  | append_singleton past e ih =>
      rw [after_concat, nextSerial_perform, ih, List.countP_append, List.countP_singleton,
        Nat.add_assoc]

/-- Two attachments of a run are never issued the same activation. -/
theorem before_eq_of_freshActivation_eq {before before' later later' : List (ReporterId × Step)}
    {e e' : ReporterId × Step} (he : e.2.isAttach = true) (he' : e'.2.isAttach = true)
    (hpast : before ++ e :: later = before' ++ e' :: later')
    (hserial : (s.after before).freshActivation.1 = (s.after before').freshActivation.1) :
    before = before' := by
  have hcount : before.countP (fun e => e.2.isAttach) = before'.countP fun e => e.2.isAttach := by
    have hnext := congrArg ActivationId.serial hserial
    simp only [freshActivation, nextSerial_after] at hnext
    omega
  -- The longer part of the run would count the attachment at the end of the shorter one.
  have longer {first rest : List (ReporterId × Step)} {x : ReporterId × Step}
      (hx : x.2.isAttach = true)
      (hc : (first ++ x :: rest).countP (fun e => e.2.isAttach) =
        first.countP fun e => e.2.isAttach) : False := by
    have hpos : (x :: rest).countP (fun e => e.2.isAttach) ≠ 0 := by simp [hx]
    rw [List.countP_append] at hc
    omega
  rcases split_cases hpast with ⟨hbefore, -, -⟩ | ⟨mid, rfl, -⟩ | ⟨mid, rfl, -⟩
  · exact hbefore
  · exact (longer he hcount.symm).elim
  · exact (longer he' hcount).elim

end Serials

theorem AttachesAs.append (h : s.AttachesAs past registry owner k)
    (rest : List (ReporterId × Step)) : s.AttachesAs (past ++ rest) registry owner k := by
  obtain ⟨before, id, channel, a, later, rfl, hrest⟩ := h
  exact ⟨before, id, channel, a, later ++ rest, by simp, hrest⟩

theorem attachesAs_of_works (hs : ∀ id, s.reporters.get id = none) {id : ReporterId}
    {channel : Channel} {p : Reporter} (hw : (s.after past).Works id channel p) :
    s.AttachesAs past channel.registry p.owner p.id := by
  refine works_induction hs
    (motive := fun past channel p => s.AttachesAs past channel.registry p.owner p.id)
    ?_ ?_ ?_ past hw
  · intro past channel a
    exact ⟨past, id, channel, a, [], rfl, rfl, rfl, rfl⟩
  · intro past channel p step _ _ ih
    obtain ⟨howner, -, -, hid⟩ :=
      p.act_identity ((s.after past).registries.get channel.registry) step
    rw [howner, hid]
    exact ih.append _
  · intro past channel p i step _ ih
    exact ih.append _

theorem attachesAs_of_mem (hs : ∀ id, s.reporters.get id = none)
    (hr : s.roster registry owner = ⟨.empty, .empty⟩)
    (h : k ∈ ((s.after past).roster registry owner).activations.keys) :
    s.AttachesAs past registry owner k := by
  have hempty : (s.roster registry owner).activations.keys = [] := by rw [hr]; rfl
  obtain ⟨before, later, id, channel, p, rfl, hw, rfl, rfl, rfl⟩ :=
    exists_works_of_mem (fun x => x.activations.keys) Reporter.id
      (fun p r step k => Reporter.mem_rosterAfter) hempty h
  exact (attachesAs_of_works hs hw).append later

theorem sites_distinct_after (hr : s.roster registry owner = ⟨.empty, .empty⟩) :
    ((s.after past).roster registry owner).sites.Distinct := by
  have hstart : (s.roster registry owner).sites.Distinct := by
    rw [hr]
    exact Numbering.distinct_empty
  refine after_induction (motive := fun s => (s.roster registry owner).sites.Distinct)
    hstart ?_ ?_ past
  · intro s id logger a h
    exact h
  · intro s t id channel p step _ hact h
    rw [hact.roster_eq]
    split
    · rename_i hown
      obtain ⟨rfl, rfl⟩ := hown
      rw [Reporter.rosterAfter_sites]
      exact Reporter.sitesAfter_distinct h _ _ step
    · exact h

section Listed
variable (hs : ∀ id, s.reporters.get id = none)
variable (hr : s.roster registry owner = ⟨.empty, .empty⟩)
include hs hr

/-- An activation is taken off the list by its own unmounted line and by nothing else. -/
theorem mem_concat_of_not_givesBack {i : ReporterId} {step : Step}
    (h : k ∈ ((s.after past).roster registry owner).activations.keys)
    (hkeep : ¬ s.GivesBack past i step registry owner k) :
    k ∈ ((s.after (past ++ [(i, step)])).roster registry owner).activations.keys := by
  rw [after_concat]
  rcases perform_cases (s.after past) i step with
    ⟨logger, a, -, ht, -⟩ | ⟨-, ht, -⟩ | ⟨channel, p, hw, -, hact, hent⟩
  · rw [ht]
    exact h
  · rw [ht]
    exact h
  · rw [hact.roster_eq]
    split
    · rename_i hown
      obtain ⟨rfl, rfl⟩ := hown
      have hd := (backed_after hs hr past).distinct
      apply (Reporter.mem_rosterAfter_iff step hd k).mpr
      refine .inr ⟨h, ?_⟩
      rintro ⟨rfl, hunmounted⟩
      rw [← hent] at hunmounted
      exact hkeep ⟨⟨channel, p, hw, rfl, rfl, rfl⟩, hunmounted⟩
    · exact h

theorem mem_concat_of_isMounted {i : ReporterId} {step : Step}
    (hk : (s.after past).Holds i registry owner k)
    (hm : (s.written past i step).any Entry.isMounted = true) :
    k ∈ ((s.after (past ++ [(i, step)])).roster registry owner).activations.keys := by
  obtain ⟨channel, p, hw, rfl, rfl, rfl⟩ := hk
  rw [written] at hm
  rw [after_concat]
  rcases perform_cases (s.after past) i step with
    ⟨logger, a, -, -, hent⟩ | ⟨hidle, -, -⟩ | ⟨c, q, hq, -, hact, hent⟩
  · rw [hent] at hm
    cases hm
  · exact (hidle channel p hw).elim
  · obtain ⟨rfl, rfl⟩ := hw.unique hq
    have hd := (backed_after hs hr past).distinct
    rw [hent] at hm
    rw [hact.roster_eq, if_pos ⟨rfl, rfl⟩]
    apply (Reporter.mem_rosterAfter_iff step hd p.id).mpr
    exact .inl ⟨rfl, .inr hm⟩

theorem mem_of_mounted (h : s.Mounted past registry owner k) :
    k ∈ ((s.after past).roster registry owner).activations.keys := by
  induction past using List.reverseRecOn with
  | nil => exact (not_outstanding_nil h).elim
  | append_singleton past e ih =>
      rcases (outstanding_concat past e).mp h with ⟨hk, hm⟩ | ⟨hmounted, hkeep⟩
      · exact mem_concat_of_isMounted hs hr hk hm
      · exact mem_concat_of_not_givesBack hs hr (ih hmounted) hkeep

end Listed

structure Consistent (s : Session σ) (past : List (ReporterId × Step)) (registry : RegistryId)
    (owner : Owner) : Prop where
  sites_nodup : ((s.after past).roster registry owner).sites.keys.Nodup
  stoodAt : ∀ path ∈ ((s.after past).roster registry owner).sites.keys,
    StoodAt past registry owner path
  siteCount_le : ((s.after past).registries.get registry).siteCount owner ≤
    {path | StoodAt past registry owner path}.encard
  activations_nodup : ((s.after past).roster registry owner).activations.keys.Nodup
  attachesAs : ∀ k ∈ ((s.after past).roster registry owner).activations.keys,
    s.AttachesAs past registry owner k
  /-- Attachments of the run at different places are issued different activations. -/
  apart : ∀ before id logger a later before' id' logger' a' later',
    past = before ++ (id, .attach logger a) :: later →
    past = before' ++ (id', .attach logger' a') :: later' →
    (s.after before).freshActivation.1 = (s.after before').freshActivation.1 → before = before'
  mounted : ∀ k, s.Mounted past registry owner k →
    k ∈ ((s.after past).roster registry owner).activations.keys
  mounted_le : {k | s.Mounted past registry owner k}.encard ≤
    ((s.after past).registries.get registry).activationCount owner
  /-- A step of one reporter, be it an unmount, takes no activation of another one off. -/
  others : ∀ id step, ∀ k ∈ ((s.after past).roster registry owner).activations.keys,
    ¬ (s.after past).Holds id registry owner k →
      k ∈ ((s.after (past ++ [(id, step)])).roster registry owner).activations.keys

/-- Every reachable state is consistent, for every owner in every registry. -/
theorem consistent_after (sinks : Table SinkId σ) (past : List (ReporterId × Step))
    (registry : RegistryId) (owner : Owner) :
    (start sinks).Consistent past registry owner := by
  have hs : ∀ id, (start sinks).reporters.get id = none := fun _ => rfl
  have hr : (start sinks).roster registry owner = ⟨.empty, .empty⟩ := rfl
  have hsites : (((start sinks).after past).roster registry owner).sites.Distinct :=
    sites_distinct_after hr
  have hdistinct := (backed_after hs hr past).distinct
  have hstood : ∀ path ∈ (((start sinks).after past).roster registry owner).sites.keys,
      StoodAt past registry owner path := fun path hp => attaches_of_mem_sites hs (by rw [hr]) hp
  have hmounted : ∀ k, (start sinks).Mounted past registry owner k →
      k ∈ (((start sinks).after past).roster registry owner).activations.keys :=
    fun k hk => mem_of_mounted hs hr hk
  refine ⟨hsites, hstood, ?_, hdistinct, fun k hk => attachesAs_of_mem hs hr hk, ?_, hmounted, ?_,
    ?_⟩
  · have hsub : {path | path ∈ (((start sinks).after past).roster registry owner).sites.keys} ⊆
        {path | StoodAt past registry owner path} := hstood
    exact hsites.encard_keys.symm.trans_le (Set.encard_le_encard hsub)
  · intro before id logger a later before' id' logger' a' later' hpast hpast' hserial
    exact before_eq_of_freshActivation_eq rfl rfl (hpast.symm.trans hpast') hserial
  · have hsub : {k | (start sinks).Mounted past registry owner k} ⊆
        {k | k ∈ (((start sinks).after past).roster registry owner).activations.keys} := hmounted
    exact (Set.encard_le_encard hsub).trans_eq hdistinct.encard_keys
  · intro id step k hk hother
    exact mem_concat_of_not_givesBack hs hr hk fun hback => hother hback.1

end Session
end RenderLog
