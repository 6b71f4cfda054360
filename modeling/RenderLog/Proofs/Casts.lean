import RenderLog.Proofs.Attachments

/-!
# Casts of reporters

The reporters that a host may attach, each with its logger and its activation.
When all reporters of an owner stand at one call site, that site is primary
whatever happens. When two of them stand at different ones, the lead is handed
over in the run that mounts both in turn and then unmounts the first.
-/
namespace RenderLog

/-- The channel and the activation of each reporter that there may be. -/
abbrev Cast := ReporterId → Option (Channel × Activation)

def PlayedBy (cast : Cast) (steps : List (ReporterId × Step)) : Prop :=
  ∀ id logger a, (id, .attach logger a) ∈ steps →
    ∃ channel, logger = .enabled channel ∧ cast id = some (channel, a)

def OneSite (cast : Cast) (registry : RegistryId) (owner : Owner) : Prop :=
  ∀ i j c d a b, cast i = some (c, a) → cast j = some (d, b) →
    c.registry = registry → d.registry = registry → a.owner = owner → b.owner = owner →
      (CallSite.ofFrames a.frames).path = (CallSite.ofFrames b.frames).path

theorem PlayedBy.of_append {cast : Cast} {past later : List (ReporterId × Step)}
    (h : PlayedBy cast (past ++ later)) : PlayedBy cast past :=
  fun id logger a ha => h id logger a (List.mem_append_left later ha)

theorem PlayedBy.cast_eq {cast : Cast} {steps : List (ReporterId × Step)} {id : ReporterId}
    {channel : Channel} {a : Activation} (h : PlayedBy cast steps)
    (ha : Attaches steps id channel a) : cast id = some (channel, a) := by
  obtain ⟨c, hc, hcast⟩ := h id _ a ha
  cases hc
  exact hcast

namespace Session
variable {σ : Type} {s : Session σ}

/-- A reporter of the owner in the registry is at work at the call site with the path, and
has announced a number or not. -/
def Stands (s : Session σ) (id : ReporterId) (registry : RegistryId) (owner : Owner)
    (path : String) (announced : Bool) : Prop :=
  ∃ channel p, s.Works id channel p ∧ channel.registry = registry ∧ p.owner = owner ∧
    p.site.path = path ∧ p.announced.isSome = announced

variable {id : ReporterId} {registry : RegistryId} {owner : Owner} {path : String}
variable {announced : Bool}

theorem Stands.leads_iff (h : s.Stands id registry owner path announced) :
    s.Leads id ↔ ((s.roster registry owner).sites.resolve path).1 = 0 := by
  obtain ⟨channel, p, hw, rfl, rfl, rfl, -⟩ := h
  rw [hw.leads_iff]
  exact decide_eq_true_iff

variable [Sink σ]

theorem Stands.of_ne (h : s.Stands id registry owner path announced) {other : ReporterId}
    (hne : id ≠ other) (step : Step) :
    (s.perform other step).1.Stands id registry owner path announced := by
  obtain ⟨channel, p, hw, hrest⟩ := h
  refine ⟨channel, p, ?_, hrest⟩
  rwa [Works, perform_get_of_ne s hne]

/-- Whether a number is announced after a step of a reporter at the path. -/
def announcedAfter (sites : Numbering String) (path : String) (announced : Bool) : Step → Bool
  | .mount => announced || decide ((sites.resolve path).1 = 0)
  | .unmount => false
  | _ => announced

theorem Stands.perform (h : s.Stands id registry owner path announced) (step : Step)
    (hs : ∀ logger a, step ≠ .attach logger a) :
    (s.perform id step).1.Stands id registry owner path
        (announcedAfter (s.roster registry owner).sites path announced step) ∧
      ((s.perform id step).1.roster registry owner).sites =
        Reporter.sitesAfter (s.roster registry owner).sites path announced step := by
  obtain ⟨channel, p, hw, rfl, rfl, rfl, rfl⟩ := h
  obtain ⟨hact, -⟩ := perform_acted hw hs
  obtain ⟨ho, -, hsite, -⟩ := p.act_identity (s.registries.get channel.registry) step
  constructor
  · refine ⟨channel, _, hact.works_self, rfl, ho, congrArg CallSite.path hsite, ?_⟩
    rw [Reporter.act_announced]
    cases step with
    | mount =>
        have hl : p.leads (s.registries.get channel.registry) =
            decide (((s.roster channel.registry p.owner).sites.resolve p.site.path).1 = 0) := rfl
        rw [announcedAfter, ← hl]
        cases p.leads (s.registries.get channel.registry) with
        | true => simp
        | false => simp
    | _ => rfl
  · rw [hact.roster_eq, if_pos ⟨rfl, rfl⟩, Reporter.rosterAfter_sites]
    rfl

/-- Where all reporters of an owner stand at one site, every one of them leads. -/
theorem leads_of_oneSite {cast : Cast} {past : List (ReporterId × Step)}
    (hs : ∀ id, s.reporters.get id = none) (hp : PlayedBy cast past)
    {channel : Channel} {p : Reporter} (hw : (s.after past).Works id channel p)
    (hr : (s.roster channel.registry p.owner).sites = .empty)
    (hone : OneSite cast channel.registry p.owner) : (s.after past).Leads id := by
  refine ⟨channel, p, hw, Registry.isPrimary_of_forall ?_⟩
  intro path hpath
  obtain ⟨j, d, b, hb, hd, hob, rfl⟩ := attaches_of_mem_sites hs hr hpath
  obtain ⟨a, ha, hof⟩ := attaches_of_works hs hw
  rw [hof.site]
  exact hone j id d channel b a (hp.cast_eq hb) (hp.cast_eq ha) hd rfl hob hof.owner.symm

section Handover
variable {i j : ReporterId} {c d : Channel} {a b : Activation}
variable {registry : RegistryId} {owner : Owner}

/-- Once the first of two reporters is mounted, the second finds the primary site taken;
when the first goes, the second has it. -/
theorem Stands.handover {p q : String} (hi : s.Stands i registry owner p false)
    (hj : s.Stands j registry owner q false) (hij : i ≠ j) (hpq : p ≠ q)
    (hs : (s.roster registry owner).sites = .empty) :
    ¬ (s.after [(i, .update .null), (i, .mount), (j, .update .null)]).Leads j ∧
      (s.after [(i, .update .null), (i, .mount), (j, .update .null), (j, .mount),
        (i, .unmount)]).Leads j := by
  have hq : q ∉ [p] := by simp [hpq.symm]
  have started : (Numbering.empty : Numbering String).resolve p = (0, ⟨[p]⟩) :=
    Numbering.resolve_of_not_mem List.not_mem_nil
  have kept : (⟨[p]⟩ : Numbering String).resolve p = (0, ⟨[p]⟩) :=
    Numbering.resolve_of_index? (Numbering.index?_of_split List.not_mem_nil rfl)
  have joined : (⟨[p]⟩ : Numbering String).resolve q = (1, ⟨[p, q]⟩) :=
    Numbering.resolve_of_not_mem hq
  have behind : (⟨[p, q]⟩ : Numbering String).resolve q = (1, ⟨[p, q]⟩) :=
    Numbering.resolve_of_index? (Numbering.index?_of_split hq rfl)
  have released : (⟨[p, q]⟩ : Numbering String).release p = ⟨[q]⟩ := by
    simp [Numbering.release, Numbering.index?, List.idxOf?_cons, Numbering.vacate]
  have alone : (⟨[q]⟩ : Numbering String).resolve q = (0, ⟨[q]⟩) :=
    Numbering.resolve_of_index? (Numbering.index?_of_split List.not_mem_nil rfl)
  obtain ⟨hi₁, hs₁⟩ := hi.perform (.update .null) (by simp)
  have hj₁ := hj.of_ne hij.symm (.update .null)
  rw [hs, Reporter.sitesAfter, started] at hs₁
  obtain ⟨hi₂, hs₂⟩ := hi₁.perform .mount (by simp)
  have hj₂ := hj₁.of_ne hij.symm .mount
  rw [hs₁, Reporter.sitesAfter, kept] at hs₂
  rw [hs₁, announcedAfter, kept] at hi₂
  -- The first has found itself at the primary site, so its unmount takes it off the list.
  have hm₂ : ((s.perform i (.update .null)).1.perform i .mount).1.Stands i registry owner p true :=
    hi₂
  obtain ⟨hj₃, hs₃⟩ := hj₂.perform (.update .null) (by simp)
  have hi₃ := hm₂.of_ne hij (.update .null)
  rw [hs₂, Reporter.sitesAfter, joined] at hs₃
  obtain ⟨hj₄, hs₄⟩ := hj₃.perform .mount (by simp)
  have hi₄ := hi₃.of_ne hij .mount
  rw [hs₃, Reporter.sitesAfter, behind] at hs₄
  obtain ⟨-, hs₅⟩ := hi₄.perform .unmount (by simp)
  have hj₅ := hj₄.of_ne hij.symm .unmount
  rw [hs₄, Reporter.sitesAfter, if_pos rfl, released] at hs₅
  constructor
  · refine hj₃.leads_iff.not.mpr ?_
    rw [hs₃, behind]
    exact Nat.one_ne_zero
  · refine hj₅.leads_iff.mpr ?_
    rw [hs₅, alone]

def opening (i j : ReporterId) (c d : Channel) (a b : Activation) : List (ReporterId × Step) :=
  [(i, .attach (.enabled c) a), (j, .attach (.enabled d) b), (i, .update .null), (i, .mount),
    (j, .update .null)]

/-- After the opening the second is mounted, the first goes, and the second goes on. -/
def handover (i j : ReporterId) (c d : Channel) (a b : Activation) : List (ReporterId × Step) :=
  opening i j c d a b ++ (j, .mount) :: ([(i, .unmount)] ++ [(j, .update .null)])

theorem phase_handover (hij : i ≠ j) :
    phase (handover i j c d a b) i = some .gone ∧
      phase (handover i j c d a b) j = some .mounted := by
  constructor
  · simp [phase, handover, opening, hij.symm, Phase.next]
  · simp [phase, handover, opening, hij, Phase.next]

theorem phase_handover_of_ne {id : ReporterId} (hi : i ≠ id) (hj : j ≠ id) :
    phase (handover i j c d a b) id = some .absent := by
  simp [phase, handover, opening, hi, hj]

theorem hostOrdered_handover (hij : i ≠ j) : HostOrdered (handover i j c d a b) := by
  intro id
  by_cases hi : i = id
  · subst hi
    exact (phase_handover hij).1.trans_ne (Option.some_ne_none _)
  · by_cases hj : j = id
    · subst hj
      exact (phase_handover hij).2.trans_ne (Option.some_ne_none _)
    · exact (phase_handover_of_ne hi hj).trans_ne (Option.some_ne_none _)

theorem attach_mem_handover {id : ReporterId} {logger : Logger} {e : Activation} :
    (id, .attach logger e) ∈ handover i j c d a b ↔
      (id = i ∧ logger = .enabled c ∧ e = a) ∨ (id = j ∧ logger = .enabled d ∧ e = b) := by
  simp [handover, opening]

theorem playedBy_handover {cast : Cast} (hi : cast i = some (c, a)) (hj : cast j = some (d, b)) :
    PlayedBy cast (handover i j c d a b) := by
  intro id logger e he
  rcases attach_mem_handover.mp he with ⟨rfl, rfl, rfl⟩ | ⟨rfl, rfl, rfl⟩
  · exact ⟨c, rfl, hi⟩
  · exact ⟨d, rfl, hj⟩

/-- The second reporter finds the primary site taken at its mount, and has it afterwards. -/
theorem leads_handover (hij : i ≠ j) (hr : c.registry = d.registry) (ho : a.owner = b.owner)
    (hs : (s.roster c.registry a.owner).sites = .empty)
    (hne : (CallSite.ofFrames a.frames).path ≠ (CallSite.ofFrames b.frames).path) :
    ¬ (s.after (opening i j c d a b)).Leads j ∧
      (s.after (opening i j c d a b ++ (j, .mount) :: [(i, .unmount)])).Leads j := by
  have hi : (s.attach i (.enabled c) a).Stands i c.registry a.owner
      (CallSite.ofFrames a.frames).path false :=
    ⟨c, _, attach_get_self s i (.enabled c) a, rfl, rfl, rfl, rfl⟩
  have hj : ((s.attach i (.enabled c) a).attach j (.enabled d) b).Stands j c.registry a.owner
      (CallSite.ofFrames b.frames).path false :=
    ⟨d, _, attach_get_self _ j (.enabled d) b, hr.symm, ho.symm, rfl, rfl⟩
  exact (hi.of_ne hij (.attach (.enabled d) b)).handover hj hij hne hs

end Handover
end Session
end RenderLog
