import RenderLog.Proofs.Attachments
import RenderLog.Proofs.Deliveries

/-!
# Numbers of mounted activations

Two mounted activations of an owner never hold the same number in the registry.
The number announced at the mount is kept for the unmount, though, while the
number held may fall when another activation goes and its place is filled. So
announced numbers are never below the numbers held, and they differ as long as
both are still held, or when no activation of the owner went between the mounts.

An activation that was moved down may meet its announced number again: the place
that it left is given to the next one.
-/
namespace RenderLog

theorem numberNote_injective : Function.Injective numberNote := by
  intro m n h
  by_cases hm : m = 0 <;> by_cases hn : n = 0
  · rw [hm, hn]
  · simp [numberNote, hm, hn, String.ext_iff] at h
  · simp [numberNote, hm, hn, String.ext_iff] at h
  · simp only [numberNote, hm, hn, if_false, String.ofList_inj, List.append_cancel_right_eq,
      List.append_cancel_left_eq] at h
    exact Nat.succ.inj (Number.natText_injective h)

/-- An activation that announced a number holds one that is not above it. -/
def Numbering.Backs (n : Numbering ActivationId) (id : ActivationId) (announced : Option Nat) :
    Prop :=
  ∀ k, announced = some k → ∃ m ≤ k, n.index? id = some m

namespace Reporter
variable {p : Reporter} {r : Registry}

theorem act_distinct (step : Step) (hd : (r.roster p.owner).activations.Distinct) :
    (p.rosterAfter r step).activations.Distinct := by
  rw [rosterAfter_activations]
  cases step with
  | update props =>
      cases p.leads r with
      | true => exact hd.resolve p.id
      | false => exact hd
  | mount =>
      cases p.leads r with
      | true => exact hd.resolve p.id
      | false => exact hd
  | unmount =>
      cases p.announced with
      | some k => exact hd.release p.id
      | none => exact hd
  | _ => exact hd

/-- A step registers the activation of its reporter with a rendered or a mounted line, gives it
back with an unmounted one, and changes nothing for any other. -/
theorem mem_rosterAfter_iff (step : Step) (hd : (r.roster p.owner).activations.Distinct)
    (k : ActivationId) :
    k ∈ (p.rosterAfter r step).activations.keys ↔
      (k = p.id ∧ ((p.act r step).entries.any Entry.isRendered = true ∨
        (p.act r step).entries.any Entry.isMounted = true)) ∨
      (k ∈ (r.roster p.owner).activations.keys ∧
        ¬ (k = p.id ∧ (p.act r step).entries.any Entry.isUnmounted = true)) := by
  rw [act_any_isRendered, act_any_isMounted, act_any_isUnmounted, rosterAfter_activations]
  cases step with
  | update props => cases p.leads r <;> simp [Numbering.mem_resolve, or_comm]
  | mount => cases p.leads r <;> simp [Numbering.mem_resolve, or_comm]
  | unmount =>
      cases p.announced with
      | some n => simpa using hd.mem_release
      | none => simp
  | _ => simp

theorem act_index?_of_quiet {step : Step}
    (hquiet : (p.act r step).entries.any Entry.isUnmounted = false) {k : ActivationId} {i : Nat}
    (hi : (r.roster p.owner).activations.index? k = some i) :
    (p.rosterAfter r step).activations.index? k = some i := by
  have resolved : ((r.roster p.owner).activations.resolve p.id).2.index? k = some i :=
    Numbering.index?_resolve_of_index? hi
  rw [act_any_isUnmounted] at hquiet
  rw [rosterAfter_activations]
  cases step with
  | update props =>
      cases p.leads r with
      | true => exact resolved
      | false => exact hi
  | mount =>
      cases p.leads r with
      | true => exact resolved
      | false => exact hi
  | unmount =>
      rw [if_neg (Bool.eq_false_iff.mp hquiet)]
      exact hi
  | _ => exact hi

theorem act_index?_le (step : Step) (hd : (r.roster p.owner).activations.Distinct)
    {k : ActivationId} (hk : k ≠ p.id) {i : Nat}
    (hi : (r.roster p.owner).activations.index? k = some i) :
    ∃ m ≤ i, (p.rosterAfter r step).activations.index? k = some m := by
  cases hu : (p.act r step).entries.any Entry.isUnmounted with
  | false => exact ⟨i, Nat.le_refl i, act_index?_of_quiet hu hi⟩
  | true =>
      rw [act_any_isUnmounted] at hu
      rw [rosterAfter_activations]
      cases step with
      | unmount =>
          rw [if_pos hu]
          exact hd.index?_release_le hi hk
      | _ => cases hu

theorem act_backs (step : Step)
    (hb : (r.roster p.owner).activations.Backs p.id p.announced) :
    (p.rosterAfter r step).activations.Backs p.id (p.act r step).reporter.announced := by
  have resolved : ((r.roster p.owner).activations.resolve p.id).2.Backs p.id p.announced := by
    intro k hk
    obtain ⟨m, hm, hi⟩ := hb k hk
    exact ⟨m, hm, Numbering.index?_resolve_of_index? hi⟩
  rw [act_announced, rosterAfter_activations]
  cases step with
  | update props =>
      cases p.leads r with
      | true => exact resolved
      | false => exact hb
  | mount =>
      cases p.leads r with
      | true =>
          intro k hk
          obtain rfl := Option.some.inj hk
          exact ⟨_, Nat.le_refl _, Numbering.index?_resolve_self⟩
      | false => exact hb
  | unmount =>
      intro k hk
      cases hk
  | _ => exact hb

/-- A step that leaves a number announced and writes no mounted line has not announced it. -/
theorem announced_of_not_mounted {step : Step}
    (hm : (p.act r step).entries.any Entry.isMounted = false) {n : Nat}
    (hn : (p.act r step).reporter.announced = some n) : p.announced = some n := by
  rw [act_any_isMounted] at hm
  rw [act_announced] at hn
  cases step with
  | mount => rwa [if_neg (Bool.eq_false_iff.mp hm)] at hn
  | unmount => cases hn
  | _ => exact hn

end Reporter

namespace Session
variable {σ : Type} {s t : Session σ}

/-- Attached reporters have activations of their own, and a fresh one is nobody's. -/
structure Apart (s : Session σ) : Prop where
  issued : ∀ id a, s.reporters.get id = some a → a.reporter.id.serial < s.nextSerial
  apart : ∀ i j a b, s.reporters.get i = some a → s.reporters.get j = some b → i ≠ j →
    a.reporter.id ≠ b.reporter.id

theorem Apart.attach (h : s.Apart) (id : ReporterId) (logger : Logger) (a : Activation) :
    (s.attach id logger a).Apart := by
  -- Only the new reporter is of interest: its serial is the next one.
  have old : ∀ i b, i ≠ id → (s.attach id logger a).reporters.get i = some b →
      s.reporters.get i = some b := by
    intro i b hi hb
    rwa [attach_get_of_ne s id logger a hi] at hb
  have new : ∀ b, (s.attach id logger a).reporters.get id = some b →
      b.reporter.id = ⟨s.nextSerial⟩ := by
    intro b hb
    rw [attach_get_self] at hb
    rw [← Option.some.inj hb]
    rfl
  have fresh : ∀ i b, i ≠ id → (s.attach id logger a).reporters.get i = some b →
      b.reporter.id ≠ ⟨s.nextSerial⟩ := by
    intro i b hi hb he
    have hlt := h.issued i b (old i b hi hb)
    rw [he] at hlt
    exact Nat.lt_irrefl _ hlt
  constructor
  · intro i b hb
    rw [attach_nextSerial]
    by_cases hi : i = id
    · subst hi
      rw [new b hb]
      exact Nat.lt_succ_self _
    · exact Nat.lt_succ_of_lt (h.issued i b (old i b hi hb))
  · intro i j b c hb hc hij he
    by_cases hi : i = id
    · subst hi
      exact fresh j c hij.symm hc (he ▸ new b hb)
    · by_cases hj : j = id
      · subst hj
        exact fresh i b hij hb (he.trans (new c hc))
      · exact h.apart i j b c (old i b hi hb) (old j c hj hc) hij he

variable {id : ReporterId} {channel : Channel} {p : Reporter} {step : Step}

theorem Apart.acted (h : s.Apart) (hw : s.Works id channel p)
    (ha : Acted s t id channel (p.act (s.registries.get channel.registry) step)) : t.Apart := by
  have reporters : ∀ i b, t.reporters.get i = some b →
      ∃ c, s.reporters.get i = some c ∧ b.reporter.id = c.reporter.id := by
    intro i b hb
    by_cases hi : i = id
    · subst hi
      obtain rfl := Option.some.inj (ha.works_self.symm.trans hb)
      exact ⟨_, hw, (p.act_identity (s.registries.get channel.registry) step).2.2.2⟩
    · rw [ha.get_of_ne hi] at hb
      exact ⟨b, hb, rfl⟩
  constructor
  · intro i b hb
    obtain ⟨c, hc, he⟩ := reporters i b hb
    rw [he, ha.nextSerial]
    exact h.issued i c hc
  · intro i j b c hb hc hij
    obtain ⟨b', hb', hbe⟩ := reporters i b hb
    obtain ⟨c', hc', hce⟩ := reporters j c hc
    rw [hbe, hce]
    exact h.apart i j b' c' hb' hc' hij

/-- What the registry lists for the owner was issued, so that a fresh activation is new to it. -/
structure Issued (s : Session σ) (registry : RegistryId) (owner : Owner) : Prop
    extends Apart s where
  registered : ∀ k ∈ (s.roster registry owner).activations.keys, k.serial < s.nextSerial

/-- What every step of a session preserves about an owner in a registry: the numbering of
its activations is without repetition, and what is announced is backed. -/
structure Backed (s : Session σ) (registry : RegistryId) (owner : Owner) : Prop
    extends Apart s where
  distinct : (s.roster registry owner).activations.Distinct
  backs : ∀ id channel p, s.Works id channel p → channel.registry = registry →
    p.owner = owner → (s.roster registry owner).activations.Backs p.id p.announced

variable {registry : RegistryId} {owner : Owner}

theorem apart_of_none (hs : ∀ id, s.reporters.get id = none) : s.Apart where
  issued id a h := by
    rw [hs id] at h
    cases h
  apart i j a b h := by
    rw [hs i] at h
    cases h

theorem issued_of_none (hs : ∀ id, s.reporters.get id = none)
    (hr : (s.roster registry owner).activations = .empty) : s.Issued registry owner where
  toApart := apart_of_none hs
  registered k hk := by
    rw [hr] at hk
    cases hk

theorem Issued.fresh (h : s.Issued registry owner) :
    ⟨s.nextSerial⟩ ∉ (s.roster registry owner).activations.keys :=
  fun hk => Nat.lt_irrefl _ (h.registered _ hk)

theorem Issued.attach (h : s.Issued registry owner) (id : ReporterId) (logger : Logger)
    (a : Activation) : (s.attach id logger a).Issued registry owner where
  toApart := h.toApart.attach id logger a
  registered k hk := Nat.lt_succ_of_lt (h.registered k hk)

theorem Issued.acted (h : s.Issued registry owner) (hw : s.Works id channel p)
    (ha : Acted s t id channel (p.act (s.registries.get channel.registry) step)) :
    t.Issued registry owner where
  toApart := h.toApart.acted hw ha
  registered k hk := by
    rw [ha.nextSerial]
    rw [ha.roster_eq] at hk
    split at hk
    · rename_i hs
      obtain ⟨rfl, rfl⟩ := hs
      rcases Reporter.mem_rosterAfter hk with hk | rfl
      · exact h.registered k hk
      · exact h.issued id _ hw
    · exact h.registered k hk

theorem backed_of_none (hs : ∀ id, s.reporters.get id = none)
    (hd : (s.roster registry owner).activations.Distinct) : s.Backed registry owner where
  toApart := apart_of_none hs
  distinct := hd
  backs id channel p h := by
    rw [Works, hs id] at h
    cases h

theorem Backed.attach (h : s.Backed registry owner) (id : ReporterId) (logger : Logger)
    (a : Activation) : (s.attach id logger a).Backed registry owner := by
  refine ⟨h.toApart.attach id logger a, h.distinct, ?_⟩
  intro i channel p hw hr ho
  by_cases hi : i = id
  · subst hi
    obtain ⟨-, hp⟩ := hw.of_attach
    subst hp
    intro k hk
    cases hk
  · rw [Works, attach_get_of_ne s id logger a hi] at hw
    exact h.backs i channel p hw hr ho

theorem Backed.acted (h : s.Backed registry owner) (hw : s.Works id channel p)
    (ha : Acted s t id channel (p.act (s.registries.get channel.registry) step)) :
    t.Backed registry owner := by
  obtain ⟨howner, -, -, hid⟩ := p.act_identity (s.registries.get channel.registry) step
  refine ⟨h.toApart.acted hw ha, ?_, ?_⟩
  · rw [ha.roster_eq]
    split
    · rename_i hs
      obtain ⟨rfl, rfl⟩ := hs
      exact Reporter.act_distinct step h.distinct
    · exact h.distinct
  · intro i c q hq hr ho
    rw [ha.roster_eq]
    by_cases hs : registry = channel.registry ∧ owner = p.owner
    · rw [if_pos hs]
      obtain ⟨rfl, rfl⟩ := hs
      by_cases hi : i = id
      · subst hi
        obtain ⟨rfl, rfl⟩ := ha.works_self.unique hq
        rw [hid]
        exact Reporter.act_backs step (h.backs i channel p hw rfl rfl)
      · have hq' := ha.works_of_ne hi hq
        intro k hk
        obtain ⟨m, hm, hmi⟩ := h.backs i c q hq' hr ho k hk
        obtain ⟨l, hl, hli⟩ :=
          Reporter.act_index?_le step h.distinct (h.apart i id _ _ hq' hw hi) hmi
        exact ⟨l, Nat.le_trans hl hm, hli⟩
    · rw [if_neg hs]
      have hi : i ≠ id := by
        intro hi
        subst hi
        obtain ⟨rfl, rfl⟩ := ha.works_self.unique hq
        exact hs ⟨hr.symm, ho.symm.trans howner⟩
      exact h.backs i c q (ha.works_of_ne hi hq) hr ho

variable [Sink σ]

theorem Backed.after (h : s.Backed registry owner) (past : List (ReporterId × Step)) :
    (s.after past).Backed registry owner := by
  refine after_induction (motive := fun s => s.Backed registry owner) h ?_ ?_ past
  · intro s id logger a h
    exact h.attach id logger a
  · intro s t id channel p step hw hact h
    exact h.acted hw hact

theorem Issued.after (h : s.Issued registry owner) (past : List (ReporterId × Step)) :
    (s.after past).Issued registry owner := by
  refine after_induction (motive := fun s => s.Issued registry owner) h ?_ ?_ past
  · intro s id logger a h
    exact h.attach id logger a
  · intro s t id channel p step hw hact h
    exact h.acted hw hact

/-- No reporter of the owner writes an unmounted line in the second part of a run. -/
def NoneGoes (s : Session σ) (registry : RegistryId) (owner : Owner)
    (before later : List (ReporterId × Step)) : Prop :=
  ∀ mid e rest, later = mid ++ e :: rest → ∀ channel p,
    (s.after (before ++ mid)).Works e.1 channel p → channel.registry = registry →
      p.owner = owner → (s.written (before ++ mid) e.1 e.2).any Entry.isUnmounted = false

variable {before rest later : List (ReporterId × Step)} {k : ActivationId} {n : Nat}

theorem noneGoes_concat (e : ReporterId × Step) :
    s.NoneGoes registry owner before (later ++ [e]) ↔
      s.NoneGoes registry owner before later ∧ ∀ channel p,
        (s.after (before ++ later)).Works e.1 channel p → channel.registry = registry →
          p.owner = owner →
            (s.written (before ++ later) e.1 e.2).any Entry.isUnmounted = false := by
  rw [NoneGoes, NoneGoes, forall_split_concat]

/-- As long as no activation of the owner goes, its activations keep the numbers they hold. -/
theorem NoneGoes.index? (h : s.NoneGoes registry owner before later)
    (hk : ((s.after before).roster registry owner).activations.index? k = some n) :
    ((s.after (before ++ later)).roster registry owner).activations.index? k = some n := by
  induction later using List.reverseRecOn with
  | nil => rwa [List.append_nil]
  | append_singleton later e ih =>
      obtain ⟨i, step⟩ := e
      obtain ⟨hlater, hlast⟩ := (noneGoes_concat _).mp h
      have hpast := ih hlater
      rw [← List.append_assoc, after_concat]
      rcases perform_cases (s.after (before ++ later)) i step with
        ⟨logger, a, rfl, ht, -⟩ | ⟨-, ht, -⟩ | ⟨c, q, hq, -, hact, hent⟩
      · rwa [ht, attach_roster]
      · rwa [ht]
      · rw [hact.roster_eq]
        split
        · rename_i hs
          obtain ⟨rfl, rfl⟩ := hs
          have hquiet := hlast c q hq rfl rfl
          rw [written, hent] at hquiet
          exact Reporter.act_index?_of_quiet hquiet hpast
        · exact hpast

/-- The mount behind the first steps writes a mounted line, and in the rest of the run the reporter
writes no other and is not attached again. -/
def MountsLast (s : Session σ) (id : ReporterId) (before rest : List (ReporterId × Step)) : Prop :=
  (s.written before id .mount).any Entry.isMounted = true ∧
    ∀ mid e more, rest = mid ++ e :: more → e.1 = id → e.2.isAttach = false ∧
      (s.written (before ++ (id, .mount) :: mid) id e.2).any Entry.isMounted = false

theorem mountsLast_concat (e : ReporterId × Step) :
    s.MountsLast id before (rest ++ [e]) ↔ s.MountsLast id before rest ∧
      (e.1 = id → e.2.isAttach = false ∧
        (s.written (before ++ (id, .mount) :: rest) id e.2).any Entry.isMounted = false) := by
  rw [MountsLast, MountsLast, forall_split_concat, and_assoc]

/-- A number that is announced was announced by the last mounted line of the reporter. -/
theorem exists_mountsLast (hs : ∀ id, s.reporters.get id = none)
    (past : List (ReporterId × Step)) (hw : (s.after past).Works id channel p)
    (hn : p.announced = some n) :
    ∃ before rest, past = before ++ (id, .mount) :: rest ∧ s.MountsLast id before rest := by
  refine works_induction hs
    (motive := fun past _ p => p.announced = some n →
      ∃ before rest, past = before ++ (id, .mount) :: rest ∧ s.MountsLast id before rest)
    ?_ ?_ ?_ past hw hn
  · intro past channel a hn
    cases hn
  · intro past channel p step hw hstep ih hn
    have hent := (perform_acted hw hstep).2
    cases hm : (s.written past id step).any Entry.isMounted with
    | true =>
        obtain rfl : step = .mount := by
          rw [written, hent, Reporter.act_any_isMounted] at hm
          cases step <;> first | rfl | cases hm
        exact ⟨past, [], rfl, hm, fun mid e more he => by simp at he⟩
    | false =>
        rw [written, hent] at hm
        obtain ⟨before, rest, rfl, hlast⟩ := ih (Reporter.announced_of_not_mounted hm hn)
        refine ⟨before, rest ++ [(id, step)], by simp, ?_⟩
        rw [mountsLast_concat, written, hent]
        exact ⟨hlast, fun _ => ⟨Step.isAttach_eq_false hstep, hm⟩⟩
  · intro past channel p i step hi ih hn
    obtain ⟨before, rest, rfl, hlast⟩ := ih hn
    exact ⟨before, rest ++ [(i, step)], by simp,
      (mountsLast_concat _).mpr ⟨hlast, fun he => (hi he).elim⟩⟩

theorem held_of_isMounted (hm : (s.written before id .mount).any Entry.isMounted = true)
    (hw : (s.after (before ++ [(id, .mount)])).Works id channel p) (hn : p.announced = some n) :
    (s.after before).Sends id .mount channel [.mounted p.label n] ∧
      ((s.after (before ++ [(id, .mount)])).roster channel.registry p.owner).activations.index?
        p.id = some n := by
  rw [after_concat] at hw ⊢
  rcases perform_cases (s.after before) id .mount with
    ⟨logger, a, he, -, -⟩ | ⟨-, -, hent⟩ | ⟨c, q, hq, hstep, hact, hent⟩
  · cases he
  · rw [written, hent] at hm
    cases hm
  · obtain ⟨rfl, rfl⟩ := hact.works_self.unique hw
    have hsends := perform_sends hq hstep
    rw [written, hent, Reporter.act_any_isMounted] at hm
    obtain ⟨ho, hl, -, hid⟩ := q.act_identity ((s.after before).registries.get c.registry) .mount
    rw [Reporter.act_announced, if_pos hm] at hn
    obtain rfl := Option.some.inj hn
    rw [ho, hl, hid, hact.roster_eq, if_pos ⟨rfl, rfl⟩, Reporter.rosterAfter_activations, if_pos hm]
    rw [Reporter.act, Reporter.mount_of_leads hm] at hsends
    exact ⟨hsends, Numbering.index?_resolve_self⟩

/-- The number announced is the one that the last mounted line told and the registry gave. -/
theorem MountsLast.held (h : s.MountsLast id before rest)
    (hw : (s.after (before ++ (id, .mount) :: rest)).Works id channel p)
    (hn : p.announced = some n) :
    (s.after before).Sends id .mount channel [.mounted p.label n] ∧
      ((s.after (before ++ [(id, .mount)])).roster channel.registry p.owner).activations.index?
        p.id = some n := by
  induction rest using List.reverseRecOn generalizing p with
  | nil => exact held_of_isMounted h.1 hw hn
  | append_singleton rest e ih =>
      obtain ⟨i, step⟩ := e
      obtain ⟨hlast, hown⟩ := (mountsLast_concat _).mp h
      rw [← List.cons_append, ← List.append_assoc, after_concat] at hw
      by_cases hi : i = id
      · subst hi
        obtain ⟨hattach, hquiet⟩ := hown rfl
        rcases perform_cases (s.after (before ++ (i, .mount) :: rest)) i step with
          ⟨logger, a, rfl, -, -⟩ | ⟨hidle, ht, -⟩ | ⟨c, q, hq, -, hact, hent⟩
        · cases hattach
        · rw [ht] at hw
          exact (hidle _ _ hw).elim
        · obtain ⟨rfl, rfl⟩ := hact.works_self.unique hw
          rw [written, hent] at hquiet
          obtain ⟨ho, hl, -, hid⟩ := q.act_identity (Table.get _ c.registry) step
          rw [ho, hl, hid]
          exact ih hlast hq (Reporter.announced_of_not_mounted hquiet hn)
      · rw [Works, perform_get_of_ne _ (Ne.symm hi)] at hw
        exact ih hlast hw hn

/-- The last mounted line of the first reporter comes before that of the second. -/
structure MountInTurn (s : Session σ) (past : List (ReporterId × Step)) (i j : ReporterId)
    (before mid later : List (ReporterId × Step)) : Prop where
  eq : past = before ++ (i, .mount) :: (mid ++ (j, .mount) :: later)
  first : s.MountsLast i before (mid ++ (j, .mount) :: later)
  second : s.MountsLast j (before ++ (i, .mount) :: mid) later

/-- Between the last mounted lines of the two reporters no activation of the owner goes. -/
def NoneGoesBetween (s : Session σ) (past : List (ReporterId × Step)) (registry : RegistryId)
    (owner : Owner) (i j : ReporterId) : Prop :=
  ∀ before mid later,
    (s.MountInTurn past i j before mid later →
      s.NoneGoes registry owner (before ++ [(i, .mount)]) mid) ∧
    (s.MountInTurn past j i before mid later →
      s.NoneGoes registry owner (before ++ [(j, .mount)]) mid)

theorem MountInTurn.ne {past mid : List (ReporterId × Step)} {i j : ReporterId} {c d : Channel}
    {q : Reporter} {m : Nat} (h : s.MountInTurn past i j before mid later)
    (hg : s.NoneGoes c.registry p.owner (before ++ [(i, .mount)]) mid)
    (hi : (s.after past).Works i c p) (hj : (s.after past).Works j d q)
    (hr : c.registry = d.registry) (ho : p.owner = q.owner) (hid : p.id ≠ q.id)
    (hn : p.announced = some n) (hm : q.announced = some m) : n ≠ m := by
  obtain ⟨rfl, hfirst, hsecond⟩ := h
  have hsplit : before ++ (i, .mount) :: (mid ++ (j, .mount) :: later) =
      (before ++ (i, .mount) :: mid) ++ (j, .mount) :: later := by simp
  rw [hsplit] at hj
  obtain ⟨hsends, hmj⟩ := hsecond.held hj hm
  have hthrough : s.NoneGoes c.registry p.owner (before ++ [(i, .mount)])
      (mid ++ [(j, .mount)]) := by
    refine (noneGoes_concat _).mpr ⟨hg, fun _ _ _ _ _ => ?_⟩
    rw [← List.append_cons, written, hsends.entries_eq]
    rfl
  have hni := hthrough.index? (hfirst.held hi hn).2
  rw [← List.append_assoc, ← List.append_cons, hr, ho] at hni
  rintro rfl
  exact hid (Numbering.index?_inj hni hmj)

theorem exists_mountInTurn (hs : ∀ id, s.reporters.get id = none) {past : List (ReporterId × Step)}
    {i j : ReporterId} {c d : Channel} {q : Reporter} {m : Nat}
    (hi : (s.after past).Works i c p) (hj : (s.after past).Works j d q) (hij : i ≠ j)
    (hn : p.announced = some n) (hm : q.announced = some m) :
    ∃ before mid later, s.MountInTurn past i j before mid later ∨
      s.MountInTurn past j i before mid later := by
  obtain ⟨before, rest, he, hfirst⟩ := exists_mountsLast hs past hi hn
  obtain ⟨before', rest', he', hsecond⟩ := exists_mountsLast hs past hj hm
  rcases split_cases (he.symm.trans he') with ⟨-, hx, -⟩ | ⟨mid, rfl, rfl⟩ | ⟨mid, rfl, rfl⟩
  · exact (hij (congrArg Prod.fst hx)).elim
  · exact ⟨before, mid, rest', .inl ⟨he, hfirst, hsecond⟩⟩
  · exact ⟨before', mid, rest, .inr ⟨he', hsecond, hfirst⟩⟩

/-- Two mounted activations of an owner hold different numbers, none above the number
announced. They are announced differently as long as both still hold what they announced,
and when no activation of the owner went between the two mounts. -/
theorem notes_of_mounted (sinks : Table SinkId σ) (past : List (ReporterId × Step))
    {i j : ReporterId} {c d : Channel} {p q : Reporter} {n m : Nat}
    (hi : ((start sinks).after past).Works i c p) (hj : ((start sinks).after past).Works j d q)
    (hij : i ≠ j) (hr : c.registry = d.registry) (ho : p.owner = q.owner)
    (hn : standingNumber ((start sinks).told past i) = some n)
    (hm : standingNumber ((start sinks).told past j) = some m) :
    (∃ k ≤ n, ∃ l ≤ m,
      (((start sinks).after past).roster c.registry p.owner).activations.index? p.id = some k ∧
      (((start sinks).after past).roster c.registry p.owner).activations.index? q.id = some l ∧
      k ≠ l ∧ (k = n → l = m → numberNote n ≠ numberNote m)) ∧
    ((start sinks).NoneGoesBetween past c.registry p.owner i j → numberNote n ≠ numberNote m) := by
  have hs : ∀ id, (start sinks).reporters.get id = none := fun _ => rfl
  have hd : ((start sinks).roster c.registry p.owner).activations.Distinct :=
    Numbering.distinct_empty
  have hb := (backed_of_none hs hd).after past
  rw [← announced_eq_standingNumber hs past hi] at hn
  rw [← announced_eq_standingNumber hs past hj] at hm
  have hid : p.id ≠ q.id := hb.apart i j _ _ hi hj hij
  constructor
  · obtain ⟨k, hk, hki⟩ := hb.backs i c p hi rfl rfl n hn
    obtain ⟨l, hl, hli⟩ := hb.backs j d q hj hr.symm ho.symm m hm
    have hkl : k ≠ l := by
      rintro rfl
      exact hid (Numbering.index?_inj hki hli)
    refine ⟨k, hk, l, hl, hki, hli, hkl, ?_⟩
    rintro rfl rfl hnote
    exact hkl (numberNote_injective hnote)
  · intro hg hnote
    have heq := numberNote_injective hnote
    obtain ⟨before, mid, later, hturn | hturn⟩ := exists_mountInTurn hs hi hj hij hn hm
    · exact hturn.ne ((hg before mid later).1 hturn) hi hj hr ho hid hn hm heq
    · have hgone := (hg before mid later).2 hturn
      rw [hr, ho] at hgone
      exact hturn.ne hgone hj hi hr.symm ho.symm hid.symm hm hn heq.symm

/-- Of three activations the first goes while the second is mounted, and the third mounts
after it. -/
def refill : List (ReporterId × Step) :=
  [("a", .attach (.enabled .terminal) (.unnamed [])),
    ("b", .attach (.enabled .terminal) (.unnamed [])),
    ("c", .attach (.enabled .terminal) (.unnamed [])),
    ("a", .update .null), ("a", .mount), ("b", .update .null), ("b", .mount), ("a", .unmount),
    ("c", .update .null), ("c", .mount)]

theorem works_refill : ((start memories).after refill).Works "b" .terminal
      ⟨.token 0, "Component", .empty, ⟨1⟩, some [], [], none, some 1⟩ ∧
    ((start memories).after refill).Works "c" .terminal
      ⟨.token 0, "Component", .empty, ⟨2⟩, some [], [], none, some 1⟩ := ⟨rfl, rfl⟩

theorem standingNumber_refill : standingNumber ((start memories).told refill "b") = some 1 ∧
    standingNumber ((start memories).told refill "c") = some 1 := ⟨rfl, rfl⟩

theorem notes_of_mounted_refill :
    ∃ k ≤ 1, ∃ l ≤ 1,
      (((start memories).after refill).roster .process (.token 0)).activations.index? ⟨1⟩ =
        some k ∧
      (((start memories).after refill).roster .process (.token 0)).activations.index? ⟨2⟩ =
        some l ∧ k ≠ l := by
  obtain ⟨hb, hc⟩ := works_refill
  obtain ⟨hn, hm⟩ := standingNumber_refill
  obtain ⟨⟨k, hk, l, hl, hki, hli, hkl, -⟩, -⟩ :=
    notes_of_mounted memories refill hb hc (by decide) rfl rfl hn hm
  exact ⟨k, hk, l, hl, hki, hli, hkl⟩

/-- Two activations that are mounted at the same time may be announced alike. -/
theorem notes_of_mounted_collide :
    ∃ (i j : ReporterId) (c d : Channel) (p q : Reporter) (n m : Nat),
      ((start memories).after refill).Works i c p ∧
      ((start memories).after refill).Works j d q ∧
      i ≠ j ∧ c.registry = d.registry ∧ p.owner = q.owner ∧
      standingNumber ((start memories).told refill i) = some n ∧
      standingNumber ((start memories).told refill j) = some m ∧
      numberNote n = numberNote m := by
  obtain ⟨hb, hc⟩ := works_refill
  obtain ⟨hn, hm⟩ := standingNumber_refill
  exact ⟨"b", "c", _, _, _, _, 1, 1, hb, hc, by decide, rfl, rfl, hn, hm, rfl⟩

end Session
end RenderLog
