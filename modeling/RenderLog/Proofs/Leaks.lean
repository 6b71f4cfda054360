import RenderLog.Proofs.Casts
import RenderLog.Proofs.LiveNumbers

/-!
# Numbers that are not given back

A reporter registers its activation with the first line of its life, be it
rendered or mounted, and gives it back with its unmounted line. Only a reporter
that was mounted with a line is unmounted with one. So what stays behind when all
reporters of an owner are gone are the activations that were rendered with a line
and mounted without.

At one call site there are none of them. With a second call site there may be: it
takes over the lead after its mount was passed over.
-/
namespace RenderLog

def keepsNumber (entries : List Entry) : Bool :=
  (entries.any Entry.isRendered || entries.any Entry.isMounted) && !entries.any Entry.isUnmounted

theorem keepsNumber_append {entries more : List Entry}
    (h : entries.any Entry.isUnmounted = false) :
    keepsNumber (entries ++ more) =
      ((keepsNumber entries || more.any Entry.isRendered || more.any Entry.isMounted) &&
        !more.any Entry.isUnmounted) := by
  simp only [keepsNumber, List.any_append, h, Bool.false_or, Bool.not_false, Bool.and_true]
  cases entries.any Entry.isRendered <;> cases entries.any Entry.isMounted <;> simp

def AllGone (steps : List (ReporterId × Step)) (registry : RegistryId) (owner : Owner) : Prop :=
  ∀ id, Uses steps id registry owner → phase steps id = some .gone

theorem AllGone.phase_ne_none {steps : List (ReporterId × Step)} {registry : RegistryId}
    {owner : Owner} (h : AllGone steps registry owner) {id : ReporterId}
    (hu : Uses steps id registry owner) : phase steps id ≠ none :=
  (h id hu).trans_ne (Option.some_ne_none _)

/-- A step registers and gives back the activation of its reporter as its lines say, and
no other. -/
theorem Reporter.mem_activations_act (p : Reporter) (r : Registry) (step : Step)
    {entries : List Entry} (hd : (r.roster p.owner).activations.Distinct)
    (hu : entries.any Entry.isUnmounted = false)
    (hk : p.id ∈ (r.roster p.owner).activations.keys ↔ keepsNumber entries = true)
    (k : ActivationId) :
    k ∈ (p.rosterAfter r step).activations.keys ↔
      (k = p.id ∧ keepsNumber (entries ++ (p.act r step).entries) = true) ∨
        (k ≠ p.id ∧ k ∈ (r.roster p.owner).activations.keys) := by
  rw [mem_rosterAfter_iff step hd, keepsNumber_append hu]
  by_cases he : k = p.id
  · subst he
    -- No step writes an unmounted line next to one of the other two.
    rw [hk, act_any_isRendered, act_any_isMounted, act_any_isUnmounted]
    cases step <;> simp [or_comm]
  · simp [he]

namespace Session
variable {σ : Type} [Sink σ] {s : Session σ} {registry : RegistryId} {owner : Owner}
variable {past : List (ReporterId × Step)} {id i : ReporterId} {k : ActivationId}

/-- The activation is that of a reporter of the owner whose lines hold a number. -/
def KeptBy (s : Session σ) (past : List (ReporterId × Step)) (registry : RegistryId)
    (owner : Owner) (id : ReporterId) (k : ActivationId) : Prop :=
  ∃ channel p, (s.after past).Works id channel p ∧ channel.registry = registry ∧
    p.owner = owner ∧ p.id = k ∧ keepsNumber (s.told past id) = true

theorem keptBy_concat_of_ne (hi : id ≠ i) (step : Step) :
    s.KeptBy (past ++ [(i, step)]) registry owner id k ↔ s.KeptBy past registry owner id k := by
  simp only [KeptBy, Works, after_concat, perform_get_of_ne _ hi, told_concat_of_ne s _ hi.symm]

/-- Where the reporter of a step keeps nothing before and after, and nothing is registered
or given back, nothing changes. -/
theorem mem_activations_of_idle {step : Step}
    (hroster : ((s.after (past ++ [(i, step)])).roster registry owner).activations =
      ((s.after past).roster registry owner).activations)
    (ih : k ∈ ((s.after past).roster registry owner).activations.keys ↔
      ∃ id, s.KeptBy past registry owner id k)
    (hbefore : ¬ s.KeptBy past registry owner i k)
    (hafter : ¬ s.KeptBy (past ++ [(i, step)]) registry owner i k) :
    k ∈ ((s.after (past ++ [(i, step)])).roster registry owner).activations.keys ↔
      ∃ id, s.KeptBy (past ++ [(i, step)]) registry owner id k := by
  rw [hroster, ih]
  refine exists_congr fun id => ?_
  by_cases hi : id = i
  · subst hi
    exact iff_of_false hbefore hafter
  · exact (keptBy_concat_of_ne hi step).symm

theorem mem_activations_concat {channel : Channel} {p : Reporter} {step : Step}
    (hw : (s.after past).Works i channel p) (hstep : ∀ logger a, step ≠ .attach logger a)
    (hb : (s.after past).Backed channel.registry p.owner)
    (hu : (s.told past i).any Entry.isUnmounted = false)
    (ih : ∀ k, k ∈ ((s.after past).roster channel.registry p.owner).activations.keys ↔
      ∃ id, s.KeptBy past channel.registry p.owner id k) (k : ActivationId) :
    k ∈ ((s.after (past ++ [(i, step)])).roster channel.registry p.owner).activations.keys ↔
      ∃ id, s.KeptBy (past ++ [(i, step)]) channel.registry p.owner id k := by
  obtain ⟨hact, hent⟩ := perform_acted hw hstep
  rw [← after_concat] at hact
  have htold := told_concat_self s past i hstep
  rw [written, hent] at htold
  obtain ⟨howner, -, -, hid⟩ := p.act_identity
    ((s.after past).registries.get channel.registry) step
  -- The activations of others are others.
  have apart : ∀ id j, id ≠ i → s.KeptBy past channel.registry p.owner id j → j ≠ p.id := by
    rintro id j hne ⟨c, q, hq, -, -, rfl, -⟩
    exact hb.apart id i _ _ hq hw hne
  have hk : p.id ∈ ((s.after past).roster channel.registry p.owner).activations.keys ↔
      keepsNumber (s.told past i) = true := by
    rw [ih]
    constructor
    · rintro ⟨id, hkept⟩
      have hi : id = i := by
        by_contra hne
        exact apart id p.id hne hkept rfl
      subst hi
      obtain ⟨-, -, -, -, -, -, hkeeps⟩ := hkept
      exact hkeeps
    · exact fun hkeeps => ⟨i, channel, p, hw, rfl, rfl, rfl, hkeeps⟩
  rw [hact.roster_eq, if_pos ⟨rfl, rfl⟩, p.mem_activations_act _ step hb.distinct hu hk, ← htold]
  constructor
  · rintro (⟨rfl, hkeeps⟩ | ⟨hne, hmem⟩)
    · exact ⟨i, channel, _, hact.works_self, rfl, howner, hid, hkeeps⟩
    · obtain ⟨id, hkept⟩ := (ih k).mp hmem
      have hi : id ≠ i := by
        rintro rfl
        obtain ⟨c, q, hq, -, -, rfl, -⟩ := hkept
        obtain ⟨-, rfl⟩ := hw.unique hq
        exact hne rfl
      exact ⟨id, (keptBy_concat_of_ne hi step).mpr hkept⟩
  · rintro ⟨id, hkept⟩
    by_cases hi : id = i
    · subst hi
      obtain ⟨c, q, hq, -, -, rfl, hkeeps⟩ := hkept
      obtain ⟨-, rfl⟩ := hact.works_self.unique hq
      exact .inl ⟨hid, hkeeps⟩
    · have hkept' := (keptBy_concat_of_ne hi step).mp hkept
      exact .inr ⟨apart id k hi hkept', (ih k).mpr ⟨id, hkept'⟩⟩

theorem mem_activations_iff (hs : ∀ id, s.reporters.get id = none)
    (hr : (s.roster registry owner).activations = .empty)
    (ho : ∀ id, Uses past id registry owner → phase past id ≠ none) (k : ActivationId) :
    k ∈ ((s.after past).roster registry owner).activations.keys ↔
      ∃ id, s.KeptBy past registry owner id k := by
  induction past using List.reverseRecOn generalizing k with
  | nil =>
      rw [after_nil, hr]
      refine iff_of_false List.not_mem_nil ?_
      rintro ⟨id, channel, p, hw, _⟩
      rw [after_nil, Works, hs id] at hw
      cases hw
  | append_singleton past e ih =>
      obtain ⟨i, step⟩ := e
      have huses : ∀ id, Uses past id registry owner →
          Uses (past ++ [(i, step)]) id registry owner := by
        rintro id ⟨channel, a, ha, hrest⟩
        exact ⟨channel, a, ha.concat _, hrest⟩
      have ih := ih fun id hu => phase_ne_none_of_append (ho id (huses id hu))
      have hbacked : (s.after past).Backed registry owner :=
        (backed_of_none hs (by rw [hr]; exact Numbering.distinct_empty)).after past
      -- A reporter of the owner that takes this step takes it in order.
      have hphase : ∀ channel p, (s.after past).Works i channel p →
          channel.registry = registry → p.owner = owner →
            ∃ before after, phase past i = some before ∧ before.next step = some after := by
        intro channel p hw hc hp
        obtain ⟨a, ha, hof⟩ := attaches_of_works hs hw
        exact exists_phases_of_concat (ho i (huses i ⟨channel, a, ha, hc, hof.owner ▸ hp⟩))
      rcases perform_cases (s.after past) i step with
        ⟨logger, a, rfl, ht, -⟩ | ⟨hidle, ht, -⟩ | ⟨c, q, hq, hstep, hact, -⟩
      · refine mem_activations_of_idle (by rw [after_concat, ht, attach_roster]) (ih k) ?_ ?_
        · rintro ⟨channel, p, hw, hc, hp, _⟩
          obtain ⟨b, hb, -⟩ := attaches_of_works hs hw
          obtain ⟨before, after, hbefore, hn⟩ := hphase channel p hw hc hp
          cases before <;> cases hn
          exact phase_ne_absent hb hbefore
        · rintro ⟨channel, p, _, _, _, _, hkeeps⟩
          rw [told_concat_attach] at hkeeps
          cases hkeeps
      · refine mem_activations_of_idle (by rw [after_concat, ht]) (ih k) ?_ ?_
        · rintro ⟨channel, p, hw, _⟩
          exact hidle channel p hw
        · rintro ⟨channel, p, hw, _⟩
          rw [after_concat, ht] at hw
          exact hidle channel p hw
      · have hroster := hact.roster_eq registry owner
        rw [← after_concat] at hroster hact
        by_cases hown : registry = c.registry ∧ owner = q.owner
        · obtain ⟨rfl, rfl⟩ := hown
          obtain ⟨before, after, hb, hn⟩ := hphase c q hq rfl rfl
          have hu : (s.told past i).any Entry.isUnmounted = false := by
            refine (told_shows hs past hb).unmounted ?_
            intro hgone
            subst hgone
            cases step <;> cases hn
          exact mem_activations_concat hq hstep hbacked hu ih k
        · rw [if_neg hown] at hroster
          refine mem_activations_of_idle (by rw [hroster]) (ih k) ?_ ?_
          · rintro ⟨channel, p, hw, hc, hp, _⟩
            obtain ⟨rfl, rfl⟩ := hq.unique hw
            exact hown ⟨hc.symm, hp.symm⟩
          · rintro ⟨channel, p, hw, hc, hp, _⟩
            obtain ⟨rfl, rfl⟩ := hact.works_self.unique hw
            obtain ⟨howner, -⟩ := q.act_identity ((s.after past).registries.get c.registry) step
            exact hown ⟨hc.symm, hp.symm.trans howner⟩

/-- Of the reporters that are gone those keep a number that were rendered with a line and
mounted without. -/
theorem keepsNumber_of_gone (hs : ∀ id, s.reporters.get id = none)
    (h : phase past id = some .gone) :
    keepsNumber (s.told past id) =
      ((s.told past id).any Entry.isRendered && !(s.told past id).any Entry.isMounted) := by
  rw [keepsNumber, (told_shows hs past h).gone rfl]
  cases (s.told past id).any Entry.isRendered <;> cases (s.told past id).any Entry.isMounted <;> rfl

/-- When all are gone, nothing is left behind exactly if everyone that was rendered with a
line was mounted with one. -/
theorem activationCount_of_allGone (hs : ∀ id, s.reporters.get id = none)
    (hr : (s.roster registry owner).activations = .empty) (hg : AllGone past registry owner) :
    ((s.after past).registries.get registry).activationCount owner = 0 ↔
      ∀ id, Uses past id registry owner → (s.told past id).any Entry.isRendered = true →
        (s.told past id).any Entry.isMounted = true := by
  have hmem := mem_activations_iff hs hr fun _ => hg.phase_ne_none
  have hcount : ((s.after past).registries.get registry).activationCount owner = 0 ↔
      ∀ k, k ∉ ((s.after past).roster registry owner).activations.keys :=
    List.length_eq_zero_iff.trans List.eq_nil_iff_forall_not_mem
  rw [hcount]
  constructor
  · intro hnone id hu hrendered
    have hfrom := hu
    obtain ⟨channel, a, ha, hc, hown⟩ := hfrom
    obtain ⟨p, hw, hof⟩ := works_of_attaches (s := s) ha (hg.phase_ne_none hu)
    by_contra hmounted
    refine hnone p.id ((hmem p.id).mpr ⟨id, channel, p, hw, hc, hof.owner.trans hown, rfl, ?_⟩)
    rw [keepsNumber_of_gone hs (hg id hu), hrendered, Bool.true_and, Bool.not_eq_true']
    exact Bool.eq_false_iff.mpr hmounted
  · intro hmounted k hk
    obtain ⟨id, channel, p, hw, hc, hp, -, hkeeps⟩ := (hmem k).mp hk
    obtain ⟨a, ha, hof⟩ := attaches_of_works hs hw
    have hu : Uses past id registry owner := ⟨channel, a, ha, hc, hof.owner.symm.trans hp⟩
    rw [keepsNumber_of_gone hs (hg id hu), Bool.and_eq_true, Bool.not_eq_true'] at hkeeps
    rw [hmounted id hu hkeeps.1] at hkeeps
    cases hkeeps.2

theorem numberActivation_of_allGone (hs : ∀ id, s.reporters.get id = none)
    (hr : (s.roster registry owner).activations = .empty) (hg : AllGone past registry owner) :
    (((s.after past).registries.get registry).numberActivation owner
        ⟨(s.after past).nextSerial⟩).1 =
      ((s.after past).registries.get registry).activationCount owner := by
  have hfresh : ⟨(s.after past).nextSerial⟩ ∉
      ((s.after past).roster registry owner).activations.keys := by
    intro hk
    obtain ⟨id, channel, p, hw, -, -, hid, -⟩ :=
      (mem_activations_iff hs hr (fun _ => hg.phase_ne_none) _).mp hk
    have hbacked : (s.after past).Backed registry owner :=
      (backed_of_none hs (by rw [hr]; exact Numbering.distinct_empty)).after past
    have hlt := hbacked.issued id _ hw
    rw [hid] at hlt
    exact Nat.lt_irrefl _ hlt
  exact congrArg Prod.fst (Numbering.resolve_of_not_mem hfresh)

theorem mounted_of_oneSite (hs : ∀ id, s.reporters.get id = none)
    (hr : (s.roster registry owner).sites = .empty) {cast : Cast}
    (hone : OneSite cast registry owner) (hp : PlayedBy cast past)
    (hu : Uses past id registry owner) (hg : phase past id = some .gone) :
    (s.told past id).any Entry.isMounted = true := by
  obtain ⟨before, mid, rfl, hb⟩ := exists_mount hg (.inr rfl)
  have hne := hg.trans_ne (Option.some_ne_none _)
  rw [told_any_isMounted hs hne, written_mount_isMounted]
  -- What was attached before the mount is what the cast says.
  obtain ⟨logger, a, ha⟩ := exists_attach hb (by decide)
  obtain ⟨channel, rfl, hcast⟩ := hp.of_append id logger a ha
  obtain ⟨c, e, he, rfl, rfl⟩ := hu
  cases hcast.symm.trans (hp.cast_eq he)
  obtain ⟨p, hw, hof⟩ := works_of_attaches (s := s) ha (phase_ne_none_of_append hne)
  rw [← hof.owner] at hr hone
  exact leads_of_oneSite hs hp.of_append hw hr hone

section Farewell
variable {j : ReporterId} {c d : Channel} {a b : Activation}

/-- The handover, with the second reporter going too. -/
def farewell (i j : ReporterId) (c d : Channel) (a b : Activation) : List (ReporterId × Step) :=
  handover i j c d a b ++ [(j, .unmount)]

theorem attach_mem_farewell {logger : Logger} {e : Activation} :
    (id, .attach logger e) ∈ farewell i j c d a b ↔
      (id = i ∧ logger = .enabled c ∧ e = a) ∨ (id = j ∧ logger = .enabled d ∧ e = b) := by
  rw [farewell, List.mem_append, attach_mem_handover]
  simp

theorem playedBy_farewell {cast : Cast} (hi : cast i = some (c, a)) (hj : cast j = some (d, b)) :
    PlayedBy cast (farewell i j c d a b) := by
  intro id logger e he
  exact playedBy_handover hi hj id logger e (attach_mem_handover.mpr (attach_mem_farewell.mp he))

theorem allGone_farewell (hij : i ≠ j) (registry : RegistryId) (owner : Owner) :
    AllGone (farewell i j c d a b) registry owner := by
  rintro id ⟨channel, e, he, _, _⟩
  obtain ⟨hi, hj⟩ := phase_handover (c := c) (d := d) (a := a) (b := b) hij
  rcases attach_mem_farewell.mp he with ⟨rfl, -, -⟩ | ⟨rfl, -, -⟩
  · rw [farewell, phase_concat_of_ne _ hij.symm, hi]
  · rw [farewell, phase_concat_self, hj]
    rfl

theorem activationCount_farewell (hs : ∀ id, s.reporters.get id = none) (hij : i ≠ j)
    (hr : c.registry = d.registry) (ho : a.owner = b.owner)
    (hroster : s.roster c.registry a.owner = ⟨.empty, .empty⟩)
    (hne : (CallSite.ofFrames a.frames).path ≠ (CallSite.ofFrames b.frames).path) :
    ((s.after (farewell i j c d a b)).registries.get c.registry).activationCount a.owner ≠ 0 := by
  have hg := allGone_farewell (c := c) (d := d) (a := a) (b := b) hij c.registry a.owner
  obtain ⟨hmount, hupdate⟩ := leads_handover hij hr ho (congrArg Roster.sites hroster) hne
  have hj : Uses (farewell i j c d a b) j c.registry a.owner :=
    ⟨d, b, attach_mem_farewell.mpr (.inr ⟨rfl, rfl, rfl⟩), hr.symm, ho.symm⟩
  have hrendered : (s.told (farewell i j c d a b) j).any Entry.isRendered = true := by
    have hsplit : handover i j c d a b =
        (opening i j c d a b ++ (j, .mount) :: [(i, .unmount)]) ++ [(j, .update .null)] := rfl
    rw [farewell, told_concat_self s _ j (by simp), List.any_append, hsplit,
      told_concat_self s _ j (by simp), List.any_append,
      (written_update_isRendered s _ j .null).mpr hupdate, Bool.or_true, Bool.true_or]
  have hmounted : (s.told (farewell i j c d a b) j).any Entry.isMounted ≠ true := by
    have hsplit : farewell i j c d a b =
        opening i j c d a b ++ (j, .mount) ::
          [(i, .unmount), (j, .update .null), (j, .unmount)] := rfl
    have hphase := hg j hj
    rw [hsplit] at hphase ⊢
    rw [told_any_isMounted hs (hphase.trans_ne (Option.some_ne_none _))]
    exact (written_mount_isMounted s _ j).not.mpr hmount
  intro hcount
  exact hmounted
    ((activationCount_of_allGone hs (congrArg Roster.activations hroster) hg).mp hcount j hj
      hrendered)

end Farewell

/-- Of an owner whose reporters are all gone the registry holds nothing exactly when each
that was rendered with a line was mounted with one; the next activation takes the first
number exactly then. In all runs of a cast it holds nothing exactly when the reporters of
the owner stand at one call site. -/
theorem activationCount_eq_zero_iff (s : Session σ) (registry : RegistryId) (owner : Owner)
    (hs : ∀ id, s.reporters.get id = none) (hr : s.roster registry owner = ⟨.empty, .empty⟩) :
    (∀ steps, AllGone steps registry owner →
      (((s.after steps).registries.get registry).activationCount owner = 0 ↔
        ∀ id, Uses steps id registry owner → (s.told steps id).any Entry.isRendered = true →
          (s.told steps id).any Entry.isMounted = true) ∧
      (((s.after steps).registries.get registry).numberActivation owner
          ⟨(s.after steps).nextSerial⟩).1 =
        ((s.after steps).registries.get registry).activationCount owner) ∧
    ∀ cast,
      ((∀ steps, PlayedBy cast steps → AllGone steps registry owner →
          ((s.after steps).registries.get registry).activationCount owner = 0) ↔
        OneSite cast registry owner) := by
  have hsites := congrArg Roster.sites hr
  have hactivations := congrArg Roster.activations hr
  refine ⟨fun steps hg => ⟨activationCount_of_allGone hs hactivations hg,
    numberActivation_of_allGone hs hactivations hg⟩, fun cast => ⟨?_, ?_⟩⟩
  · rintro h i j c d a b hi hj rfl hd rfl hb
    by_contra hne
    have hij : i ≠ j := by
      rintro rfl
      cases hi.symm.trans hj
      exact hne rfl
    exact activationCount_farewell hs hij hd.symm hb.symm hr hne
      (h _ (playedBy_farewell hi hj) (allGone_farewell hij _ _))
  · intro hone steps hp hg
    refine (activationCount_of_allGone hs hactivations hg).mpr ?_
    intro id hu _
    exact mounted_of_oneSite hs hsites hone hp hu (hg id hu)

/-- A unit that logs from two places, from its first attachment to its last unmount. -/
def twoPlacesGone : List (ReporterId × Step) :=
  farewell "a" "b" .terminal .terminal (.unnamed [⟨"", "f"⟩]) (.unnamed [⟨"", "g"⟩])

theorem activationCount_eq_zero_iff_onePlace :
    (((start memories).after
        (farewell "a" "b" .terminal .terminal (.unnamed []) (.unnamed []))).registries.get
      .process).activationCount (.token 0) = 0 := by
  have hone : OneSite (fun _ => some (.terminal, .unnamed [])) .process (.token 0) := by
    intro i j c d a b hi hj _ _ _ _
    cases hi
    cases hj
    rfl
  exact ((activationCount_eq_zero_iff (start memories) .process (.token 0) (fun _ => rfl) rfl).2
    _).mpr hone _ (playedBy_farewell rfl rfl) (allGone_farewell (by decide) _ _)

/-- Of a unit that logs from two places an activation may be left behind. -/
theorem activationCount_eq_zero_iff_twoPlaces :
    AllGone twoPlacesGone .process (.token 0) ∧
      (((start memories).after twoPlacesGone).registries.get .process).activationCount
        (.token 0) ≠ 0 := by
  refine ⟨allGone_farewell (by decide) _ _, ?_⟩
  exact activationCount_farewell (c := .terminal) (a := .unnamed [⟨"", "f"⟩]) (fun _ => rfl)
    (by decide) rfl rfl rfl (by decide)

end Session
end RenderLog
