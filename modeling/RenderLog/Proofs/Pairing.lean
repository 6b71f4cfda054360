import RenderLog.Proofs.Consistency

/-!
# Mounted and unmounted lines

An unmount is reported exactly when a mounted line of the reporter stands, one that
no unmounted line has followed. Then it has the label and the number of the last
mounted line, whatever other activations have come and gone and moved its own
number since, and the registry gives up the activation and its call site. When no
mounted line stands an unmount does nothing at all.
-/
namespace RenderLog

/-- There is a mounted line that no unmounted line has followed. -/
def MountStands (entries : List Entry) : Prop :=
  Outstanding (fun _ e => e.isMounted = true) (fun _ e => e.isUnmounted = true) entries

theorem mountStands_iff (entries : List Entry) :
    MountStands entries ↔ (standingNumber entries).isSome = true := by
  induction entries using List.reverseRecOn with
  | nil => exact iff_of_false not_outstanding_nil Bool.false_ne_true
  | append_singleton entries e ih =>
      have hlast : MountStands (entries ++ [e]) ↔
          e.isMounted = true ∨ (MountStands entries ∧ ¬ e.isUnmounted = true) :=
        outstanding_concat entries e
      rw [hlast, ih, standingNumber_append]
      cases e <;> simp [Entry.standing, Entry.isMounted, Entry.isUnmounted]

namespace Session
variable {σ : Type} {s : Session σ} {past : List (ReporterId × Step)} {id : ReporterId}

/-- The registry gives up the activation of the reporter, which it listed, and the call site, and
nothing else. -/
structure Released (s t : Session σ) (channel : Channel) (p : Reporter) : Prop where
  listed : p.id ∈ (s.roster channel.registry p.owner).activations.keys
  activations : ∀ k, k ∈ (t.roster channel.registry p.owner).activations.keys ↔
    k ∈ (s.roster channel.registry p.owner).activations.keys ∧ k ≠ p.id
  sites : ∀ path, path ∈ (t.roster channel.registry p.owner).sites.keys ↔
    path ∈ (s.roster channel.registry p.owner).sites.keys ∧ path ≠ p.site.path
  others : ∀ registry owner, ¬ (registry = channel.registry ∧ owner = p.owner) →
    t.roster registry owner = s.roster registry owner

theorem Acted.released {t : Session σ} {channel : Channel} {p : Reporter} {n : Nat}
    (h : Acted s t id channel (p.act (s.registries.get channel.registry) .unmount))
    (hn : p.announced = some n) (hw : s.Works id channel p)
    (hb : s.Backed channel.registry p.owner)
    (hsites : (s.roster channel.registry p.owner).sites.Distinct) : s.Released t channel p := by
  have hroster : t.roster channel.registry p.owner =
      p.rosterAfter (s.registries.get channel.registry) .unmount := by
    rw [h.roster_eq, if_pos ⟨rfl, rfl⟩]
  refine ⟨?_, fun k => ?_, fun path => ?_, fun registry owner hne => ?_⟩
  · -- The number announced is backed by one that the registry lists.
    obtain ⟨m, -, hm⟩ := hb.backs id channel p hw rfl rfl n hn
    exact Numbering.mem_of_index? hm
  · rw [hroster, Reporter.rosterAfter_activations, hn]
    exact hb.distinct.mem_release
  · rw [hroster, Reporter.rosterAfter_sites, hn]
    exact hsites.mem_release
  · rw [h.roster_eq, if_neg hne]

variable [Sink σ]

/-- The last mounted line of the reporter, sent at one of its mounts, has the label and the
number. -/
def LastMounted (s : Session σ) (past : List (ReporterId × Step)) (id : ReporterId)
    (channel : Channel) (label : String) (n : Nat) : Prop :=
  ∃ before rest, past = before ++ (id, .mount) :: rest ∧ s.MountsLast id before rest ∧
    (s.after before).Sends id .mount channel [.mounted label n] ∧
    ((s.after before).perform id .mount).2.deliveries.map Delivery.line =
      [.mounted channel.screen label n]

structure Pairs (s : Session σ) (past : List (ReporterId × Step)) (id : ReporterId) : Prop where
  isUnmounted_iff : (s.written past id .unmount).any Entry.isUnmounted = true ↔
    MountStands (s.told past id)
  reported : MountStands (s.told past id) → ∃ channel a p n,
    LastAttaches past id channel a ∧ (s.after past).Works id channel p ∧
      s.LastMounted past id channel (unitLabel a.name) n ∧
      (s.after past).Sends id .unmount channel [.unmounted (unitLabel a.name) n] ∧
      ((s.after past).perform id .unmount).2.deliveries.map Delivery.line =
        [.unmounted channel.screen (unitLabel a.name) n] ∧
      (s.after past).Released (s.after (past ++ [(id, .unmount)])) channel p
  silent : ¬ MountStands (s.told past id) →
    ((s.after past).perform id .unmount).2.deliveries = [] ∧
      (s.after (past ++ [(id, .unmount)])).registries = (s.after past).registries ∧
      (s.after (past ++ [(id, .unmount)])).sinks = (s.after past).sinks

theorem lastMounted_of_announced (hs : ∀ id, s.reporters.get id = none) {channel : Channel}
    {p : Reporter} (hw : (s.after past).Works id channel p) {n : Nat} (hn : p.announced = some n) :
    s.LastMounted past id channel p.label n := by
  obtain ⟨before, rest, rfl, hlast⟩ := exists_mountsLast hs past hw hn
  obtain ⟨hsends, -⟩ := hlast.held hw hn
  exact ⟨before, rest, rfl, hlast, hsends, hsends.lines_eq⟩

variable (sinks : Table SinkId σ)

theorem pairs_of_idle (h : ∀ channel p, ¬ ((start sinks).after past).Works id channel p) :
    (start sinks).Pairs past id := by
  have htold : (start sinks).told past id = [] := told_of_idle past h
  have hnone : ¬ MountStands ((start sinks).told past id) := by
    rw [htold]
    exact not_outstanding_nil
  have hstep : ∀ logger a, Step.unmount ≠ .attach logger a := by simp
  have hidle := perform_of_idle h hstep
  refine ⟨?_, fun hstands => (hnone hstands).elim, fun _ => ?_⟩
  · rw [written, hidle.2]
    exact iff_of_false Bool.false_ne_true hnone
  · rw [after_concat, hidle.1]
    exact ⟨List.map_eq_nil_iff.mp hidle.2, rfl, rfl⟩

theorem pairs_of_works {channel : Channel} {p : Reporter}
    (hw : ((start sinks).after past).Works id channel p) : (start sinks).Pairs past id := by
  have hs : ∀ id, (start sinks).reporters.get id = none := fun _ => rfl
  have hr : (start sinks).roster channel.registry p.owner = ⟨.empty, .empty⟩ := rfl
  have hstep : ∀ logger a, Step.unmount ≠ .attach logger a := by simp
  have hsends := perform_sends hw hstep
  have hact := (perform_acted hw hstep).1
  have hannounced := announced_eq_standingNumber hs past hw
  have hstands : MountStands ((start sinks).told past id) ↔ p.announced.isSome = true := by
    rw [mountStands_iff, hannounced]
  have hwritten : ((start sinks).written past id .unmount).any Entry.isUnmounted = true ↔
      p.announced.isSome = true := by
    rw [written, hsends.entries_eq, Reporter.act_any_isUnmounted]
  refine ⟨hwritten.trans hstands.symm, ?_, ?_⟩
  · intro h
    obtain ⟨n, hn⟩ := Option.isSome_iff_exists.mp (hstands.mp h)
    obtain ⟨a, hattach, hof⟩ := lastAttaches_of_works hs hw
    have hlast := lastMounted_of_announced hs hw hn
    rw [← after_concat] at hact
    have hreleased := hact.released hn hw (backed_after hs hr past) (sites_distinct_after hr)
    rw [Reporter.act, Reporter.unmount_of_announced hn, hof.label] at hsends
    rw [hof.label] at hlast
    exact ⟨channel, a, p, n, hattach, hw, hlast, hsends, hsends.lines_eq, hreleased⟩
  · intro h
    have hn : p.announced = none := by
      apply Option.not_isSome_iff_eq_none.mp
      exact fun hsome => h (hstands.mpr hsome)
    rw [Reporter.act, Reporter.unmount_of_not_announced hn] at hsends hact
    rw [after_concat, hact.registries, hsends.sinks, Table.set_get_self]
    exact ⟨List.map_eq_nil_iff.mp hsends.entries_eq, rfl, Table.set_get_self _ _⟩

/-- After every run an unmount pairs with the mounted line that stands. -/
theorem unmount_pairs (past : List (ReporterId × Step)) (id : ReporterId) :
    (start sinks).Pairs past id := by
  by_cases h : ∃ channel p, ((start sinks).after past).Works id channel p
  · obtain ⟨channel, p, hw⟩ := h
    exact pairs_of_works sinks hw
  · exact pairs_of_idle sinks fun channel p hw => h ⟨channel, p, hw⟩

/-- The second activation was announced as the second one. The registry has it as the first by now,
and it goes as the second one all the same. -/
theorem unmount_pairs_refill :
    (((start memories).after refill).roster .process (.token 0)).activations.index? ⟨1⟩ = some 0 ∧
      MountStands ((start memories).told refill "b") ∧
      (start memories).LastMounted refill "b" .terminal "Component" 1 ∧
      (((start memories).after refill).perform "b" .unmount).2.deliveries.map Delivery.line =
        [(Message.ofText "Component (2) unmounted.").typeset .none none .terminal] := by
  have hstands : MountStands ((start memories).told refill "b") := by
    rw [mountStands_iff, standingNumber_refill.1]
    rfl
  obtain ⟨channel, a, p, n, hattach, hw, hlast, hsends, hlines, -⟩ :=
    (unmount_pairs memories refill "b").reported hstands
  obtain ⟨rfl, rfl⟩ := hw.unique works_refill.1
  have hentries : [Entry.unmounted "Component" 1] = [.unmounted (unitLabel a.name) n] :=
    hsends.entries_eq
  obtain ⟨hlabel, rfl⟩ := Entry.unmounted.inj (List.singleton_inj.mp hentries)
  rw [← hlabel] at hlast hlines
  exact ⟨rfl, hstands, hlast, hlines⟩

end Session
end RenderLog
