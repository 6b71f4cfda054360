import RenderLog.Proofs.Casts

/-!
# Steadiness of the primary call site

A reporter that was mounted with a line should tell every later render, and one
that was mounted without a line should tell nothing of the activation's life
from then on. A run of reporters driven in order is steady in this sense exactly
when each of them finds the primary call site at its later updates as it found
it at its mount.

The primary site changes hands only when it is released, and it is released with
the first reporter of that site that goes, whoever else is still there. So the
reporters of an owner are steady in every run exactly when they all stand at one
call site.
-/
namespace RenderLog.Session

variable {σ : Type} [Sink σ] {s : Session σ} {id : ReporterId}

/-- After a mount with a line every update writes a rendered line, and after a mount
without one no line of the activation's life is written. -/
def Steady (s : Session σ) (steps : List (ReporterId × Step)) : Prop :=
  ∀ past mid later id step, steps = past ++ (id, .mount) :: (mid ++ (id, step) :: later) →
    if (s.written past id .mount).any Entry.isMounted then
      ∀ props, step = .update props →
        (s.written (past ++ (id, .mount) :: mid) id step).any Entry.isRendered = true
    else (s.written (past ++ (id, .mount) :: mid) id step).any Entry.tellsLife = false

/-- Every update after a mount finds the primary site where the mount found it, as far as
the reporter can tell. -/
def KeepsLead (s : Session σ) (steps : List (ReporterId × Step)) : Prop :=
  ∀ past mid later id props,
    steps = past ++ (id, .mount) :: (mid ++ (id, .update props) :: later) →
      ((s.after (past ++ (id, .mount) :: mid)).Leads id ↔ (s.after past).Leads id)

theorem steady_iff_keepsLead (hs : ∀ id, s.reporters.get id = none)
    {steps : List (ReporterId × Step)} (ho : HostOrdered steps) :
    s.Steady steps ↔ s.KeepsLead steps := by
  constructor
  · intro h past mid later id props he
    have hst := h past mid later id (.update props) he
    rw [← written_update_isRendered s _ id props, ← written_mount_isMounted s past id]
    split at hst
    · rename_i hm
      exact ⟨fun _ => hm, fun _ => hst props rfl⟩
    · rename_i hm
      refine ⟨fun hr => ?_, fun hm' => (hm hm').elim⟩
      obtain ⟨e, he, hre⟩ := List.any_eq_true.mp hr
      have := List.any_eq_false.mp hst e he
      exact (this (Entry.tellsLife_of_isRendered hre)).elim
  · intro h past mid later id step he
    obtain ⟨hmounted, hnext⟩ := phase_eq_mounted (he ▸ ho id)
    split
    · rename_i hm
      rintro props rfl
      rw [written_update_isRendered, h past mid later id props he, ← written_mount_isMounted]
      exact hm
    · rename_i hm
      have hlead : ¬ (s.after past).Leads id := (written_mount_isMounted s past id).not.mp hm
      rw [Bool.not_eq_true,
        ← told_any_isMounted hs (hmounted.trans_ne (Option.some_ne_none _))] at hm
      rcases perform_cases (s.after (past ++ (id, .mount) :: mid)) id step with
        ⟨logger, a, rfl, -, -⟩ | ⟨-, -, hent⟩ | ⟨channel, p, hw, -, -, hent⟩
      · exact (hnext rfl).elim
      · rw [written, hent]
        rfl
      · rw [written, hent, Reporter.act_any_tellsLife]
        cases step with
        | attach logger a => exact (hnext rfl).elim
        | update props =>
            rw [← Bool.not_eq_true, ← hw.leads_iff, h past mid later id props he]
            exact hlead
        | mount => exact (hnext rfl).elim
        | unmount =>
            have hshows := told_shows hs _ hmounted
            rw [announced_eq_standingNumber hs _ hw,
              Phase.isSome_standingNumber (hshows.unmounted (by decide)), hm]
        | _ => rfl

theorem keepsLead_of_oneSite (hs : ∀ id, s.reporters.get id = none)
    (hr : ∀ registry owner, (s.roster registry owner).sites = .empty) {cast : Cast}
    (hone : ∀ registry owner, OneSite cast registry owner)
    {steps : List (ReporterId × Step)} (ho : HostOrdered steps) (hp : PlayedBy cast steps) :
    s.KeepsLead steps := by
  -- Whoever was attached leads, and whoever mounts or is updated was attached.
  have leads : ∀ past later id ph, steps = past ++ later → phase past id = some ph →
      ph ≠ .absent → (s.after past).Leads id := by
    rintro past later id ph rfl hph hne
    obtain ⟨logger, a, ha⟩ := exists_attach hph hne
    obtain ⟨channel, rfl, -⟩ := hp.of_append id logger a ha
    obtain ⟨p, hw, -⟩ := works_of_attaches (s := s) ha (ho.of_append id)
    exact leads_of_oneSite hs hp.of_append hw (hr _ _) (hone _ _)
  intro past mid later id props he
  have hmounted := (phase_eq_mounted (he ▸ ho id)).1
  have hsplit : steps = past ++ [(id, .mount)] ++ (mid ++ (id, .update props) :: later) := by
    rw [he, List.append_assoc, List.singleton_append]
  obtain ⟨before, after, hb, hn⟩ :=
    exists_phases_of_concat (phase_ne_none_of_append (hsplit ▸ ho id))
  obtain ⟨rfl, -⟩ := Phase.next_mount hn
  refine iff_of_true ?_ ?_
  · refine leads _ ((id, .update props) :: later) id _ ?_ hmounted (by decide)
    rw [he, List.append_assoc, List.cons_append]
  · exact leads past _ id _ he hb (by decide)

theorem not_steady_handover (hs : ∀ id, s.reporters.get id = none) {i j : ReporterId}
    {c d : Channel} {a b : Activation} (hij : i ≠ j) (hr : c.registry = d.registry)
    (ho : a.owner = b.owner) (hsites : (s.roster c.registry a.owner).sites = .empty)
    (hne : (CallSite.ofFrames a.frames).path ≠ (CallSite.ofFrames b.frames).path) :
    ¬ s.Steady (handover i j c d a b) := by
  rw [steady_iff_keepsLead hs (hostOrdered_handover hij)]
  intro h
  obtain ⟨hmount, hupdate⟩ := leads_handover hij hr ho hsites hne
  exact hmount ((h (opening i j c d a b) [(i, .unmount)] [] j .null rfl).mp hupdate)

/-- A run is steady exactly when everyone keeps the lead, and all runs of a cast are
steady exactly when the reporters of each owner stand at one call site. -/
theorem steady_iff (s : Session σ) (hs : ∀ id, s.reporters.get id = none) :
    (∀ steps, HostOrdered steps → (s.Steady steps ↔ s.KeepsLead steps)) ∧
      ((∀ registry owner, (s.roster registry owner).sites = .empty) → ∀ cast,
        ((∀ steps, HostOrdered steps → PlayedBy cast steps → s.Steady steps) ↔
          ∀ registry owner, OneSite cast registry owner)) := by
  refine ⟨fun steps ho => steady_iff_keepsLead hs ho, fun hr cast => ⟨?_, ?_⟩⟩
  · intro h registry owner i j c d a b hi hj hc hd ha hb
    by_contra hne
    have hij : i ≠ j := by
      rintro rfl
      cases hi.symm.trans hj
      exact hne rfl
    exact not_steady_handover hs hij (hc.trans hd.symm) (ha.trans hb.symm) (hr _ _) hne
      (h _ (hostOrdered_handover hij) (playedBy_handover hi hj))
  · intro hone steps ho hp
    exact (steady_iff_keepsLead hs ho).mpr (keepsLead_of_oneSite hs hr hone ho hp)

theorem steady_iff_onePlace :
    (start memories).Steady
      (handover "a" "b" .terminal .terminal (.unnamed []) (.unnamed [])) := by
  have hone : ∀ registry owner,
      OneSite (fun _ => some (.terminal, .unnamed [])) registry owner := by
    intro registry owner i j c d a b hi hj _ _ _ _
    cases hi
    cases hj
    rfl
  exact ((steady_iff (start memories) fun _ => rfl).2 (fun _ _ => rfl) _).mpr hone _
    (hostOrdered_handover (by decide)) (playedBy_handover rfl rfl)

/-- Two activations at one place and a third at another; the first goes while the others
stay and are updated. -/
def shared : List (ReporterId × Step) :=
  [("a", .attach (.enabled .terminal) (.unnamed [⟨"", "f"⟩])),
    ("b", .attach (.enabled .terminal) (.unnamed [⟨"", "f"⟩])),
    ("c", .attach (.enabled .terminal) (.unnamed [⟨"", "g"⟩])),
    ("a", .update .null), ("a", .mount), ("b", .update .null), ("b", .mount),
    ("c", .update .null), ("c", .mount), ("a", .unmount), ("b", .update .null),
    ("c", .update .null)]

theorem hostOrdered_shared : HostOrdered shared := by
  intro id
  by_cases ha : "a" = id
  · subst ha
    decide
  · by_cases hb : "b" = id
    · subst hb
      decide
    · by_cases hc : "c" = id
      · subst hc
        decide
      · simp [phase, shared, ha, hb, hc]

/-- The second was mounted with a line and is rendered without, and the third was mounted
without a line and is rendered with one. -/
theorem steady_iff_shared : HostOrdered shared ∧ ¬ (start memories).Steady shared ∧
    ((start memories).written (shared.take 6) "b" .mount).any Entry.isMounted = true ∧
    ((start memories).written (shared.take 10) "b" (.update .null)).any Entry.isRendered = false ∧
    ((start memories).written (shared.take 8) "c" .mount).any Entry.isMounted = false ∧
    ((start memories).written (shared.take 11) "c" (.update .null)).any Entry.tellsLife = true := by
  have hmounted : ((start memories).written (shared.take 6) "b" .mount).any Entry.isMounted =
      true := by decide +kernel
  have hrendered : ((start memories).written (shared.take 10) "b" (.update .null)).any
      Entry.isRendered = false := by decide +kernel
  refine ⟨hostOrdered_shared, ?_, hmounted, hrendered, by decide +kernel, by decide +kernel⟩
  intro h
  have hb := h (shared.take 6) ((shared.drop 7).take 3) (shared.drop 11) "b" (.update .null) rfl
  rw [if_pos hmounted] at hb
  exact Bool.false_ne_true (hrendered.symm.trans (hb .null rfl))

end RenderLog.Session
