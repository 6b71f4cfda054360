import RenderLog.Proofs.LiveNumbers
import RenderLog.Proofs.Observation

/-!
# Owners with one call site

When all reporters of an owner stand at one call site, an unmount takes that site
off the list while others still stand there, and the next lookup lists it again.
So the list has one site or none, whoever looks it up leads, and the registry
keeps exact account of the activations: registered are those with a lookup that no
unmounted line of theirs has followed.

What carries this along a run, next to that account, is that an activation is
registered exactly while the lines of its reporter show an open life.
-/
namespace RenderLog

def Step.looksUp : Step → Bool
  | .update _ | .mount => true
  | _ => false

/-- The reporters of the owner belong to enabled loggers on the registry and stand at the call
site with the path. -/
def StandAt (steps : List (ReporterId × Step)) (registry : RegistryId) (owner : Owner)
    (path : String) : Prop :=
  ∀ id logger a, (id, .attach logger a) ∈ steps → a.owner = owner →
    ∃ channel, logger = .enabled channel ∧ channel.registry = registry ∧
      (CallSite.ofFrames a.frames).path = path

/-- The life that the lines tell is not open: it has no line, or an unmounted one came last. -/
def AtRest (entries : List Entry) : Prop :=
  ∀ e ∈ (entries.filter Entry.tellsLife).getLast?, e.isUnmounted = true

theorem atRest_nil : AtRest [] := fun e he => by cases he

theorem atRest_append_of_quiet {entries more : List Entry}
    (h : more.filter Entry.tellsLife = []) : AtRest (entries ++ more) ↔ AtRest entries := by
  rw [AtRest, List.filter_append, h, List.append_nil, AtRest]

theorem atRest_append_of_line {entries more : List Entry} {e : Entry}
    (h : more.filter Entry.tellsLife = [e]) :
    AtRest (entries ++ more) ↔ e.isUnmounted = true := by
  simp [AtRest, List.filter_append, h]

namespace Reporter
variable {p : Reporter} {r : Registry}

theorem leads_of_single (h : (r.roster p.owner).sites.Single p.site.path) : p.leads r = true :=
  Registry.isPrimary_of_forall fun _ => h.eq_of_mem

theorem sitesAfter_single {sites : Numbering String} {path : String} (h : sites.Single path)
    (announced : Bool) (step : Step) : (sitesAfter sites path announced step).Single path := by
  cases step with
  | update props => exact .inr h.resolve
  | mount => exact .inr h.resolve
  | unmount =>
      cases announced with
      | true => exact .inl h.release
      | false => exact h
  | _ => exact h

/-- At the primary site a step registers the activation when it looks up, and gives it back
when it writes an unmounted line. -/
theorem mem_activations_of_leads (hl : p.leads r = true)
    (hd : (r.roster p.owner).activations.Distinct) (step : Step) (k : ActivationId) :
    k ∈ (p.rosterAfter r step).activations.keys ↔
      (step.looksUp = true ∧ k = p.id) ∨
        (k ∈ (r.roster p.owner).activations.keys ∧
          ¬ (k = p.id ∧ (p.act r step).entries.any Entry.isUnmounted = true)) := by
  rw [mem_rosterAfter_iff step hd, act_any_isRendered, act_any_isMounted]
  cases step <;> simp [Step.looksUp, hl]

theorem sites_eq_empty (hs : (r.roster p.owner).sites.Single p.site.path)
    (hfree : (∀ k, k ∉ (r.roster p.owner).activations.keys) → (r.roster p.owner).sites = .empty)
    {step : Step} (h : ∀ k, k ∉ (p.rosterAfter r step).activations.keys) :
    (p.rosterAfter r step).sites = .empty := by
  have hl := leads_of_single hs
  rw [rosterAfter_activations] at h
  rw [rosterAfter_sites]
  cases step with
  | update props => exact (h p.id (by simp [hl, Numbering.mem_resolve])).elim
  | mount => exact (h p.id (by simp [hl, Numbering.mem_resolve])).elim
  | unmount =>
      cases ha : p.announced with
      | some n => exact hs.release
      | none =>
          rw [ha] at h
          exact hfree h
  | _ => exact hfree h

theorem mem_activations_iff_atRest (hl : p.leads r = true)
    (hd : (r.roster p.owner).activations.Distinct) {entries : List Entry}
    (h : p.id ∈ (r.roster p.owner).activations.keys ↔ ¬ AtRest entries) (step : Step) :
    p.id ∈ (p.rosterAfter r step).activations.keys ↔
      ¬ AtRest (entries ++ (p.act r step).entries) := by
  have hlife := p.act_life r step
  rw [mem_activations_of_leads hl hd, act_any_isUnmounted, h]
  cases step with
  | update props =>
      rw [lifeLine, if_pos hl, Option.toList_some] at hlife
      simp [atRest_append_of_line hlife, Step.looksUp, Entry.isUnmounted]
  | mount =>
      rw [lifeLine, if_pos hl, Option.toList_some] at hlife
      simp [atRest_append_of_line hlife, Step.looksUp, Entry.isUnmounted]
  | unmount =>
      rw [lifeLine] at hlife
      cases ha : p.announced with
      | some n =>
          rw [ha, Option.map_some, Option.toList_some] at hlife
          simp [atRest_append_of_line hlife, Step.looksUp, Entry.isUnmounted]
      | none =>
          rw [ha, Option.map_none, Option.toList_none] at hlife
          simp [atRest_append_of_quiet hlife, Step.looksUp]
  | _ => simp [atRest_append_of_quiet hlife, Step.looksUp]

end Reporter

namespace Session
variable {σ : Type} {s : Session σ} {registry : RegistryId} {owner : Owner} {path : String}
variable {past : List (ReporterId × Step)} {id i : ReporterId} {k : ActivationId}

/-- The reporter at work under the identifier is that of the activation, which is one of the
owner in the registry. -/
def Holds (s : Session σ) (id : ReporterId) (registry : RegistryId) (owner : Owner)
    (k : ActivationId) : Prop :=
  ∃ channel p, s.Works id channel p ∧ channel.registry = registry ∧ p.owner = owner ∧ p.id = k

variable [Sink σ]

def GivesBack (s : Session σ) (past : List (ReporterId × Step)) (id : ReporterId) (step : Step)
    (registry : RegistryId) (owner : Owner) (k : ActivationId) : Prop :=
  (s.after past).Holds id registry owner k ∧
    (s.written past id step).any Entry.isUnmounted = true

/-- The activation had an update or a mount that no reported unmount has followed. -/
def Engaged (s : Session σ) (past : List (ReporterId × Step)) (registry : RegistryId)
    (owner : Owner) (k : ActivationId) : Prop :=
  ∃ earlier id step later, past = earlier ++ (id, step) :: later ∧ step.looksUp = true ∧
    (s.after earlier).Holds id registry owner k ∧
      ∀ mid j last rest, later = mid ++ (j, last) :: rest →
        ¬ s.GivesBack (earlier ++ (id, step) :: mid) j last registry owner k

theorem engaged_iff : s.Engaged past registry owner k ↔
    Outstanding
      (fun before e => e.2.looksUp = true ∧ (s.after before).Holds e.1 registry owner k)
      (fun before e => s.GivesBack before e.1 e.2 registry owner k) past := by
  simp only [Engaged, Outstanding, Prod.exists, Prod.forall, and_assoc]

theorem not_engaged_nil : ¬ s.Engaged [] registry owner k :=
  fun h => not_outstanding_nil (engaged_iff.mp h)

theorem engaged_concat (past : List (ReporterId × Step)) (i : ReporterId) (step : Step) :
    s.Engaged (past ++ [(i, step)]) registry owner k ↔
      (step.looksUp = true ∧ (s.after past).Holds i registry owner k) ∨
        (s.Engaged past registry owner k ∧ ¬ s.GivesBack past i step registry owner k) := by
  rw [engaged_iff, engaged_iff, outstanding_concat]

/-- What the registry lists of the owner after a run, and what the lines show of it. -/
structure Tallied (s : Session σ) (past : List (ReporterId × Step)) (registry : RegistryId)
    (owner : Owner) (path : String) : Prop where
  single : ((s.after past).roster registry owner).sites.Single path
  mem : ∀ k, k ∈ ((s.after past).roster registry owner).activations.keys ↔
    s.Engaged past registry owner k
  free : (∀ k, k ∉ ((s.after past).roster registry owner).activations.keys) →
    ((s.after past).roster registry owner).sites = .empty
  told : ∀ id channel p, (s.after past).Works id channel p → channel.registry = registry →
    p.owner = owner →
      (p.id ∈ ((s.after past).roster registry owner).activations.keys ↔ ¬ AtRest (s.told past id))

/-- A step that leaves the roster alone, of a reporter that neither looks up nor writes for the
owner. -/
theorem Tallied.of_roster_eq (h : s.Tallied past registry owner path) {step : Step}
    (hroster : (s.after (past ++ [(i, step)])).roster registry owner =
      (s.after past).roster registry owner)
    (hquiet : ∀ k, (s.after past).Holds i registry owner k →
      step.looksUp = false ∧ s.written past i step = [])
    (htold : ∀ id channel p, (s.after (past ++ [(i, step)])).Works id channel p →
      channel.registry = registry → p.owner = owner →
        (p.id ∈ ((s.after past).roster registry owner).activations.keys ↔
          ¬ AtRest (s.told (past ++ [(i, step)]) id))) :
    s.Tallied (past ++ [(i, step)]) registry owner path := by
  refine ⟨?_, fun k => ?_, ?_, ?_⟩
  · rw [hroster]
    exact h.single
  · rw [hroster, h.mem, engaged_concat]
    constructor
    · refine fun hk => .inr ⟨hk, fun hb => ?_⟩
      rw [GivesBack, (hquiet k hb.1).2] at hb
      cases hb.2
    · rintro (⟨hl, hk⟩ | ⟨hk, -⟩)
      · rw [(hquiet k hk).1] at hl
        cases hl
      · exact hk
  · rw [hroster]
    exact h.free
  · rw [hroster]
    exact htold

theorem Tallied.acted {channel : Channel} {p : Reporter} {step : Step}
    (h : s.Tallied past channel.registry p.owner p.site.path)
    (hb : (s.after past).Backed channel.registry p.owner) (hw : (s.after past).Works i channel p)
    (hstep : ∀ logger a, step ≠ .attach logger a) :
    s.Tallied (past ++ [(i, step)]) channel.registry p.owner p.site.path := by
  obtain ⟨hact, hent⟩ := perform_acted hw hstep
  rw [← after_concat] at hact
  have hl := Reporter.leads_of_single h.single
  have hroster : (s.after (past ++ [(i, step)])).roster channel.registry p.owner =
      p.rosterAfter ((s.after past).registries.get channel.registry) step := by
    rw [hact.roster_eq, if_pos ⟨rfl, rfl⟩]
  have hholds (k : ActivationId) :
      (s.after past).Holds i channel.registry p.owner k ↔ k = p.id := by
    constructor
    · rintro ⟨c, q, hq, -, -, rfl⟩
      obtain ⟨-, rfl⟩ := hw.unique hq
      rfl
    · rintro rfl
      exact ⟨channel, p, hw, rfl, rfl, rfl⟩
  have htold := told_concat_self s past i hstep
  rw [written, hent] at htold
  refine ⟨?_, fun k => ?_, ?_, ?_⟩
  · rw [hroster, Reporter.rosterAfter_sites]
    exact Reporter.sitesAfter_single h.single _ _
  · rw [hroster, Reporter.mem_activations_of_leads hl hb.distinct, engaged_concat, GivesBack,
      hholds, written, hent, ← h.mem]
    rfl
  · rw [hroster]
    exact Reporter.sites_eq_empty h.single h.free
  · intro id c q hq hc ho
    rw [hroster]
    by_cases hi : id = i
    · subst hi
      obtain ⟨rfl, rfl⟩ := hact.works_self.unique hq
      rw [(p.act_identity _ step).2.2.2, htold]
      exact Reporter.mem_activations_iff_atRest hl hb.distinct (h.told id channel p hw rfl rfl) step
    · have hq' := hact.works_of_ne hi hq
      have hne : q.id ≠ p.id := hb.apart id i _ _ hq' hw hi
      rw [told_concat_of_ne s past (Ne.symm hi), ← h.told id c q hq' hc ho,
        Reporter.mem_activations_of_leads hl hb.distinct]
      simp only [hne, false_and, and_false, not_false_eq_true, and_true, false_or]
      rfl

/-- A step under an identifier where no reporter of the owner is, neither before nor after it. -/
theorem Tallied.other (h : s.Tallied past registry owner path) {step : Step}
    (hroster : (s.after (past ++ [(i, step)])).roster registry owner =
      (s.after past).roster registry owner)
    (hbefore : ∀ channel p, (s.after past).Works i channel p → p.owner ≠ owner)
    (hafter : ∀ channel p, (s.after (past ++ [(i, step)])).Works i channel p → p.owner ≠ owner) :
    s.Tallied (past ++ [(i, step)]) registry owner path := by
  refine h.of_roster_eq hroster ?_ fun id channel p hw hc ho => ?_
  · rintro k ⟨channel, p, hw, -, ho, -⟩
    exact (hbefore channel p hw ho).elim
  · have hi : id ≠ i := by
      rintro rfl
      exact hafter channel p hw ho
    rw [after_concat, Works, perform_get_of_ne _ hi] at hw
    rw [told_concat_of_ne s past (Ne.symm hi)]
    exact h.told id channel p hw hc ho

/-- An attachment. The new activation is not registered, and its reporter has no lines. -/
theorem Tallied.attach (h : s.Tallied past registry owner path)
    (hissued : (s.after past).Issued registry owner) (i : ReporterId) (logger : Logger)
    (a : Activation) : s.Tallied (past ++ [(i, .attach logger a)]) registry owner path := by
  have ht : s.after (past ++ [(i, .attach logger a)]) = (s.after past).attach i logger a :=
    after_concat s past i _
  refine h.of_roster_eq (by rw [ht, attach_roster]) (fun _ _ => ⟨rfl, rfl⟩)
    fun id channel p hw hc ho => ?_
  rw [ht] at hw
  by_cases hi : id = i
  · subst hi
    obtain ⟨-, rfl⟩ := hw.of_attach
    rw [told_concat_attach]
    exact iff_of_false hissued.fresh (not_not_intro atRest_nil)
  · rw [Works, attach_get_of_ne _ _ _ _ hi] at hw
    rw [told_concat_of_ne s past (Ne.symm hi)]
    exact h.told id channel p hw hc ho

structure Accounted (s : Session σ) (past : List (ReporterId × Step)) (registry : RegistryId)
    (owner : Owner) : Prop where
  /-- An update sends one line of the life, the one with the props, and then a message at most. -/
  update : ∀ id channel a props, LastAttaches past id channel a → a.owner = owner →
    ∃ n, ∃ message : Option Entry, (∀ e ∈ message, e.tellsLife = false) ∧
      (s.after past).Sends id (.update props) channel
        (.rendered (unitLabel a.name) n props :: message.toList)
  mount : ∀ id channel a, LastAttaches past id channel a → a.owner = owner →
    ∃ n, (s.after past).Sends id .mount channel [.mounted (unitLabel a.name) n]
  /-- As many activations are registered as had an update or a mount since their attachment or
  their last reported unmount. -/
  activations : {k | s.Engaged past registry owner k}.encard =
    ((s.after past).registries.get registry).activationCount owner
  sites : ((s.after past).registries.get registry).siteCount owner ≤ 1
  /-- A life is opened by a rendered or a mounted line, which shows the number that is next. -/
  opening : ∀ id channel a step n, LastAttaches past id channel a → a.owner = owner →
    AtRest (s.told past id) → n = ((s.after past).registries.get registry).activationCount owner →
      ∀ d ∈ ((s.after past).perform id step).2.deliveries, d.entry.tellsLife = true →
        (∃ props, d.entry = .rendered (unitLabel a.name) n props ∧
          d.line = .rendered channel.screen (unitLabel a.name) n props) ∨
        (d.entry = .mounted (unitLabel a.name) n ∧
          d.line = .mounted channel.screen (unitLabel a.name) n)
  /-- When every update and mount was followed by a reported unmount, nothing is registered. -/
  free : (∀ k, ¬ s.Engaged past registry owner k) →
    ((s.after past).registries.get registry).siteCount owner = 0 ∧
      ((s.after past).registries.get registry).activationCount owner = 0

section Account
variable (hs : ∀ id, s.reporters.get id = none)
include hs

theorem path_eq_of_standAt (hp : StandAt past registry owner path) {channel : Channel}
    {p : Reporter} (hw : (s.after past).Works id channel p) (ho : p.owner = owner) :
    channel.registry = registry ∧ p.site.path = path := by
  obtain ⟨a, ha, hof⟩ := attaches_of_works hs hw
  obtain ⟨c, hc, hreg, hpath⟩ := hp id _ a ha (hof.owner.symm.trans ho)
  cases hc
  exact ⟨hreg, hof.site ▸ hpath⟩

variable (hr : s.roster registry owner = ⟨.empty, .empty⟩)
include hr

theorem backed_after (past : List (ReporterId × Step)) : (s.after past).Backed registry owner :=
  (backed_of_none hs (by rw [hr]; exact Numbering.distinct_empty)).after past

theorem tallied_after (hp : StandAt past registry owner path) :
    s.Tallied past registry owner path := by
  induction past using List.reverseRecOn with
  | nil =>
      refine ⟨?_, fun k => ?_, fun _ => ?_, fun id channel p hw => ?_⟩
      · rw [after_nil, hr]
        exact .inl rfl
      · rw [after_nil, hr]
        exact iff_of_false List.not_mem_nil not_engaged_nil
      · rw [after_nil, hr]
      · rw [after_nil, Works, hs id] at hw
        cases hw
  | append_singleton past e ih =>
      obtain ⟨i, step⟩ := e
      have hpast : StandAt past registry owner path := fun id logger a ha =>
        hp id logger a (List.mem_append_left _ ha)
      have ih := ih hpast
      rcases perform_cases (s.after past) i step with
        ⟨logger, a, rfl, -, -⟩ | ⟨hidle, ht, -⟩ | ⟨c, q, hq, hstep, hact, -⟩
      · have hissued : s.Issued registry owner := issued_of_none hs (by rw [hr])
        exact ih.attach (hissued.after past) i logger a
      · rw [← after_concat] at ht
        refine ih.other (by rw [ht]) (fun channel p hw => (hidle channel p hw).elim) ?_
        rw [ht]
        exact fun channel p hw => (hidle channel p hw).elim
      · by_cases ho : q.owner = owner
        · obtain ⟨rfl, rfl⟩ := path_eq_of_standAt hs hpast hq ho
          subst ho
          exact ih.acted (backed_after hs hr past) hq hstep
        · rw [← after_concat] at hact
          refine ih.other ?_ (fun channel p hw hown => ?_) fun channel p hw hown => ?_
          · rw [hact.roster_eq, if_neg fun hc => ho hc.2.symm]
          · obtain ⟨-, rfl⟩ := hq.unique hw
            exact ho hown
          · obtain ⟨-, rfl⟩ := hact.works_self.unique hw
            exact ho ((q.act_identity _ step).1.symm.trans hown)

variable (hp : StandAt past registry owner path)
include hp

theorem leads_of_standAt {channel : Channel} {p : Reporter} (hw : (s.after past).Works id channel p)
    (ho : p.owner = owner) : p.leads ((s.after past).registries.get channel.registry) = true := by
  obtain ⟨rfl, rfl⟩ := path_eq_of_standAt hs hp hw ho
  subst ho
  exact Reporter.leads_of_single (tallied_after hs hr hp).single

theorem encard_engaged : {k | s.Engaged past registry owner k}.encard =
    ((s.after past).registries.get registry).activationCount owner := by
  have hset : {k | s.Engaged past registry owner k} =
      {k | k ∈ ((s.after past).roster registry owner).activations.keys} :=
    Set.ext fun k => ((tallied_after hs hr hp).mem k).symm
  rw [hset, (backed_after hs hr past).distinct.encard_keys]
  rfl

/-- The line that opens a life takes the next number: at rest the activation is not registered. -/
theorem number_of_atRest {channel : Channel} {p : Reporter} (hw : (s.after past).Works id channel p)
    (ho : p.owner = owner) (hrest : AtRest (s.told past id)) :
    p.announced = none ∧
      ((((s.after past).registries.get channel.registry).roster p.owner).activations.resolve
        p.id).1 = ((s.after past).registries.get registry).activationCount owner := by
  obtain ⟨rfl, -⟩ := path_eq_of_standAt hs hp hw ho
  subst ho
  have hnew : p.id ∉ ((s.after past).roster channel.registry p.owner).activations.keys :=
    fun hk => ((tallied_after hs hr hp).told id channel p hw rfl rfl).mp hk hrest
  refine ⟨Option.eq_none_iff_forall_ne_some.mpr fun n hn => ?_,
    congrArg Prod.fst (Numbering.resolve_of_not_mem hnew)⟩
  -- An announced number is backed by a registered activation.
  obtain ⟨m, -, hm⟩ := (backed_after hs hr past).backs id channel p hw rfl rfl n hn
  exact hnew (Numbering.mem_of_index? hm)

theorem opens_of_atRest {channel : Channel} {p : Reporter} {step : Step} {e : Entry}
    (hw : (s.after past).Works id channel p) (ho : p.owner = owner)
    (hrest : AtRest (s.told past id))
    (he : e ∈ (p.act ((s.after past).registries.get channel.registry) step).entries)
    (hlife : e.tellsLife = true) :
    (∃ props, e = .rendered p.label
      (((s.after past).registries.get registry).activationCount owner) props) ∨
    e = .mounted p.label (((s.after past).registries.get registry).activationCount owner) := by
  have hl := leads_of_standAt hs hr hp hw ho
  obtain ⟨hannounced, hnumber⟩ := number_of_atRest hs hr hp hw ho hrest
  have hline : e ∈ (p.lifeLine ((s.after past).registries.get channel.registry) step).toList := by
    rw [← Reporter.act_life]
    exact List.mem_filter.mpr ⟨he, hlife⟩
  cases step with
  | update props =>
      rw [Reporter.lifeLine, if_pos hl, hnumber] at hline
      exact .inl ⟨props, List.mem_singleton.mp hline⟩
  | mount =>
      rw [Reporter.lifeLine, if_pos hl, hnumber] at hline
      exact .inr (List.mem_singleton.mp hline)
  | unmount =>
      rw [Reporter.lifeLine, hannounced] at hline
      cases hline
  | _ => cases hline

/-- When all reporters of an owner stand at one call site, its account is exact after every run,
and so at every moment of one. -/
theorem accounted_of_standAt : s.Accounted past registry owner where
  update id channel a props hlast ho := by
    obtain ⟨p, hw, hof⟩ := works_of_lastAttaches (s := s) hlast
    have hl := leads_of_standAt hs hr hp hw (hof.owner.trans ho)
    have hstep : ∀ logger b, Step.update props ≠ .attach logger b := by simp
    have hsends := perform_sends hw hstep
    obtain ⟨message, hmessage, -⟩ := p.changedMessage_owed
    rw [Reporter.act, Reporter.update_of_leads hl, hmessage, hof.label] at hsends
    refine ⟨_, message, fun e he => ?_, hsends⟩
    have hquiet := p.changedMessage_filter
    rw [hmessage, List.filter_eq_nil_iff] at hquiet
    exact Bool.eq_false_iff.mpr (hquiet e (Option.mem_toList.mpr he))
  mount id channel a hlast ho := by
    obtain ⟨p, hw, hof⟩ := works_of_lastAttaches (s := s) hlast
    have hl := leads_of_standAt hs hr hp hw (hof.owner.trans ho)
    have hstep : ∀ logger b, Step.mount ≠ .attach logger b := by simp
    have hsends := perform_sends hw hstep
    rw [Reporter.act, Reporter.mount_of_leads hl, hof.label] at hsends
    exact ⟨_, hsends⟩
  activations := encard_engaged hs hr hp
  sites := by
    rcases (tallied_after hs hr hp).single with hn | hn
    · exact (congrArg Numbering.count hn).trans_le (Nat.zero_le 1)
    · exact (congrArg Numbering.count hn).le
  opening id channel a step n hlast ho hrest hn d hd hlife := by
    subst hn
    obtain ⟨p, hw, hof⟩ := works_of_lastAttaches (s := s) hlast
    have hstep : ∀ logger b, step ≠ .attach logger b := by
      rintro logger b rfl
      cases hd
    have hsends := perform_sends hw hstep
    have hopen := opens_of_atRest hs hr hp hw (hof.owner.trans ho) hrest (hsends.entry_mem hd) hlife
    rw [hof.label] at hopen
    rcases hopen with ⟨props, he⟩ | he
    · exact .inl ⟨props, he, hsends.line_eq hd he⟩
    · exact .inr ⟨he, hsends.line_eq hd he⟩
  free h := by
    have ht := tallied_after hs hr hp
    have hnone : ∀ k, k ∉ ((s.after past).roster registry owner).activations.keys :=
      fun k hk => h k ((ht.mem k).mp hk)
    exact ⟨congrArg Numbering.count (ht.free hnone),
      List.length_eq_zero_iff.mpr (List.eq_nil_iff_forall_not_mem.mpr hnone)⟩

end Account

/-- Two activations at one call site. The first is mounted twice and unmounted twice while the
second is there, which then goes on without a mount; a third comes and goes unseen. -/
def comings : List (ReporterId × Step) :=
  [("a", .attach (.enabled .terminal) (.unnamed [])),
    ("b", .attach (.enabled .terminal) (.unnamed [])), ("a", .update .null), ("b", .update .null),
    ("a", .mount), ("a", .mount), ("a", .unmount), ("a", .unmount), ("b", .update .null),
    ("a", .mount), ("c", .attach (.enabled .terminal) (.unnamed [])), ("c", .unmount)]

theorem standAt_comings : StandAt comings .process (.token 0) "" := by
  intro id logger a h _
  simp only [comings, List.mem_cons, Prod.mk.injEq, Step.attach.injEq, reduceCtorEq, and_false,
    false_or, or_false, List.not_mem_nil] at h
  rcases h with ⟨-, rfl, rfl⟩ | ⟨-, rfl, rfl⟩ | ⟨-, rfl, rfl⟩ <;> exact ⟨.terminal, rfl, rfl, rfl⟩

theorem lastAttaches_comings : LastAttaches comings "c" .terminal (.unnamed []) :=
  ⟨comings.take 10, [("c", .unmount)], rfl, by decide⟩

/-- Two of the three are engaged, so the third is announced as the third one. -/
theorem accounted_of_standAt_comings :
    StandAt comings .process (.token 0) "" ∧
      (start memories).Accounted comings .process (.token 0) ∧
      {k | (start memories).Engaged comings .process (.token 0) k}.encard = 2 ∧
      ∃ d, (((start memories).after comings).perform "c" .mount).2.deliveries = [d] ∧
        d.line = (Message.ofText "Component (3) mounted.").typeset .none none .terminal := by
  have h : (start memories).Accounted comings .process (.token 0) :=
    accounted_of_standAt (fun _ => rfl) rfl standAt_comings
  obtain ⟨n, hsends⟩ := h.mount "c" .terminal (.unnamed []) lastAttaches_comings rfl
  obtain ⟨d, hd, he⟩ := List.map_eq_singleton_iff.mp hsends.entries_eq
  have hrest : AtRest ((start memories).told comings "c") := atRest_nil
  have hopening := h.opening "c" .terminal (.unnamed []) .mount 2 lastAttaches_comings rfl hrest rfl
    d (by rw [hd]; exact List.mem_singleton_self d) (by rw [he]; rfl)
  refine ⟨standAt_comings, h, h.activations.trans rfl, d, hd, ?_⟩
  rcases hopening with ⟨props, hrendered, -⟩ | ⟨-, hline⟩
  · cases he.symm.trans hrendered
  · exact hline

end Session
end RenderLog
