import Mathlib.Data.List.Induction
import RenderLog.Proofs.Reporter

/-!
# Runs of a session

What one step of a session changes, seen from outside: the reporters, the
registries and the entries that are written. Writing itself touches the sinks
only, so nothing here depends on the kind of sink or on its failures.

A run is followed from its end: the session after a run, the entries of one more
step, and all entries that a reporter has told so far.
-/
namespace RenderLog

/-- Some element of the list opens and no later one closes. Whether an element does is told from
what precedes it. -/
def Outstanding {α : Type} (opens closes : List α → α → Prop) (l : List α) : Prop :=
  ∃ before x later, l = before ++ x :: later ∧ opens before x ∧
    ∀ mid y rest, later = mid ++ y :: rest → ¬ closes (before ++ x :: mid) y

section Split
variable {α : Type}

/-- What holds at every split of a list holds with one more element when it does at that one. -/
theorem forall_split_concat {P : List α → α → Prop} (l : List α) (x : α) :
    (∀ mid y rest, l ++ [x] = mid ++ y :: rest → P mid y) ↔
      (∀ mid y rest, l = mid ++ y :: rest → P mid y) ∧ P l x := by
  constructor
  · intro h
    exact ⟨fun mid y rest he => h mid y (rest ++ [x]) (by simp [he]), h l x [] rfl⟩
  · rintro ⟨h, hx⟩ mid y rest he
    rcases List.eq_nil_or_concat' rest with rfl | ⟨rest, last, rfl⟩
    · obtain ⟨rfl, hxy⟩ := List.append_inj' he rfl
      obtain rfl := List.singleton_inj.mp hxy
      exact hx
    · rw [← List.cons_append, ← List.append_assoc] at he
      exact h mid y rest (List.append_inj' he rfl).1

/-- Of two places in a list one comes first, or they are the same. -/
theorem split_cases {before before' later later' : List α} {x y : α}
    (h : before ++ x :: later = before' ++ y :: later') :
    (before = before' ∧ x = y ∧ later = later') ∨
      (∃ mid, before' = before ++ x :: mid ∧ later = mid ++ y :: later') ∨
      ∃ mid, before = before' ++ y :: mid ∧ later' = mid ++ x :: later := by
  rcases List.append_eq_append_iff.mp h with ⟨mid, hbefore, hmid⟩ | ⟨mid, hbefore, hmid⟩
  · cases mid with
    | nil =>
        obtain ⟨hxy, hlater⟩ := List.cons.inj hmid
        exact .inl ⟨by simp [hbefore], hxy, hlater⟩
    | cons z mid =>
        obtain ⟨rfl, hlater⟩ := List.cons.inj hmid
        exact .inr (.inl ⟨mid, hbefore, hlater⟩)
  · cases mid with
    | nil =>
        obtain ⟨hyx, hlater⟩ := List.cons.inj hmid
        exact .inl ⟨by simp [hbefore], hyx.symm, hlater.symm⟩
    | cons z mid =>
        obtain ⟨rfl, hlater⟩ := List.cons.inj hmid
        exact .inr (.inr ⟨mid, hbefore, hlater⟩)

end Split

section Outstanding
variable {α : Type} {opens closes : List α → α → Prop}

theorem not_outstanding_nil : ¬ Outstanding opens closes [] := by
  rintro ⟨before, x, later, he, -⟩
  simp at he

theorem outstanding_concat (l : List α) (x : α) :
    Outstanding opens closes (l ++ [x]) ↔
      opens l x ∨ (Outstanding opens closes l ∧ ¬ closes l x) := by
  constructor
  · rintro ⟨before, first, later, he, hopens, hno⟩
    rcases List.eq_nil_or_concat' later with rfl | ⟨later, last, rfl⟩
    · obtain ⟨rfl, hf⟩ := List.append_inj' he rfl
      obtain rfl := List.singleton_inj.mp hf
      exact .inl hopens
    · rw [← List.cons_append, ← List.append_assoc] at he
      obtain ⟨rfl, hf⟩ := List.append_inj' he rfl
      obtain rfl := List.singleton_inj.mp hf
      obtain ⟨hno, hclose⟩ := (forall_split_concat later x).mp hno
      exact .inr ⟨⟨before, first, later, rfl, hopens, hno⟩, hclose⟩
  · rintro (hopens | ⟨⟨before, first, later, rfl, hopens, hno⟩, hclose⟩)
    · exact ⟨l, x, [], rfl, hopens, fun mid y rest hm => by simp at hm⟩
    · exact ⟨before, first, later ++ [x], by simp, hopens,
        (forall_split_concat later x).mpr ⟨hno, hclose⟩⟩

end Outstanding

/-- The entries handed to sinks in a step. -/
def Reply.entries (r : Reply) : List Entry := r.deliveries.map Delivery.entry

def Step.isAttach : Step → Bool
  | .attach _ _ => true
  | _ => false

theorem Step.isAttach_eq_false {step : Step} (h : ∀ logger a, step ≠ .attach logger a) :
    step.isAttach = false := by
  cases step with
  | attach logger a => exact (h logger a rfl).elim
  | _ => rfl

theorem Step.attach_cases (step : Step) :
    (∃ logger a, step = .attach logger a) ∨ ∀ logger a, step ≠ .attach logger a := by
  cases step with
  | attach logger a => exact .inl ⟨logger, a, rfl⟩
  | _ => simp

namespace Session
variable {σ : Type}

/-- The roster of an owner in one of the registries. -/
def roster (s : Session σ) (registry : RegistryId) (owner : Owner) : Roster :=
  (s.registries.get registry).roster owner

/-- The reporter `p` of an enabled logger is at work under the identifier. -/
def Works (s : Session σ) (id : ReporterId) (channel : Channel) (p : Reporter) : Prop :=
  s.reporters.get id = some ⟨.enabled channel, p⟩

variable {s t : Session σ} {id other : ReporterId} {channel : Channel} {p : Reporter}

theorem Works.unique {channel' : Channel} {q : Reporter} (h : s.Works id channel p)
    (k : s.Works id channel' q) : channel = channel' ∧ p = q := by
  have he := h.symm.trans k
  simp only [Option.some.injEq, Attached.mk.injEq, Logger.enabled.injEq] at he
  exact he

/-- The reporter is at work at the primary call site of its owner. -/
def Leads (s : Session σ) (id : ReporterId) : Prop :=
  ∃ channel p, s.Works id channel p ∧ p.leads (s.registries.get channel.registry) = true

theorem Works.leads_iff (h : s.Works id channel p) :
    s.Leads id ↔ p.leads (s.registries.get channel.registry) = true := by
  constructor
  · rintro ⟨c, q, hq, hl⟩
    obtain ⟨rfl, rfl⟩ := h.unique hq
    exact hl
  · exact fun hl => ⟨channel, p, h, hl⟩

/-- What a step of a reporter at work changes: its own state and the registry of its
logger, both as the reporter says. -/
structure Acted (s t : Session σ) (id : ReporterId) (channel : Channel)
    (o : Reporter.Outcome) : Prop where
  registries : t.registries = s.registries.set channel.registry o.registry
  reporters : t.reporters = s.reporters.set id (some ⟨.enabled channel, o.reporter⟩)
  nextSerial : t.nextSerial = s.nextSerial

namespace Acted
variable {o : Reporter.Outcome}

theorem works_self (h : Acted s t id channel o) : t.Works id channel o.reporter := by
  rw [Works, h.reporters, Table.get_set_self]

theorem get_of_ne (h : Acted s t id channel o) (hne : other ≠ id) :
    t.reporters.get other = s.reporters.get other := by
  rw [h.reporters, Table.get_set_of_ne _ _ hne]

theorem works_of_ne (h : Acted s t id channel o) (hne : other ≠ id) {c : Channel} {q : Reporter}
    (hq : t.Works other c q) : s.Works other c q := by
  rwa [Works, h.get_of_ne hne] at hq

theorem roster_self (h : Acted s t id channel o) (owner : Owner) :
    t.roster channel.registry owner = o.registry.roster owner := by
  rw [roster, h.registries, Table.get_set_self]

theorem roster_of_ne (h : Acted s t id channel o) {registry : RegistryId}
    (hne : registry ≠ channel.registry) (owner : Owner) :
    t.roster registry owner = s.roster registry owner := by
  rw [roster, roster, h.registries, Table.get_set_of_ne _ _ hne]

end Acted

section Attach
variable (s : Session σ) (id : ReporterId) (logger : Logger) (a : Activation)

theorem attach_get_self :
    (s.attach id logger a).reporters.get id =
      some ⟨logger, .ofActivation a (logger.site a) ⟨s.nextSerial⟩⟩ := Table.get_set_self _ _ _

theorem attach_get_of_ne (hne : other ≠ id) :
    (s.attach id logger a).reporters.get other = s.reporters.get other :=
  Table.get_set_of_ne _ _ hne

/-- Whoever is at work after its own attachment has just what the attachment gave. -/
theorem Works.of_attach (h : (s.attach id logger a).Works id channel p) :
    logger = .enabled channel ∧ p = .ofActivation a (.ofFrames a.frames) ⟨s.nextSerial⟩ := by
  have he := (attach_get_self s id logger a).symm.trans h
  simp only [Option.some.injEq, Attached.mk.injEq] at he
  obtain ⟨hl, hp⟩ := he
  subst hl
  exact ⟨rfl, hp.symm⟩

theorem attach_roster (registry : RegistryId) (owner : Owner) :
    (s.attach id logger a).roster registry owner = s.roster registry owner := rfl

theorem attach_nextSerial : (s.attach id logger a).nextSerial = s.nextSerial + 1 := rfl

end Attach

theorem log_acted (h : s.Works id channel p)
    (change : Reporter → Reporter) :
    Acted s (s.log id change) id channel
      ⟨change p, s.registries.get channel.registry, []⟩ := by
  have hw : s.reporters.get id = some ⟨.enabled channel, p⟩ := h
  simp only [log, hw]
  exact ⟨(Table.set_get_self _ _).symm, rfl, rfl⟩

theorem log_of_idle (h : ∀ channel p, ¬ s.Works id channel p) (change : Reporter → Reporter) :
    s.log id change = s := by
  unfold log
  split
  · rename_i channel p hw
    exact (h channel p hw).elim
  · rfl

variable [Sink σ]

section Deliver
variable (channel : Channel) (s : Session σ) (entries : List Entry)

/-- Entries change the sink of the channel, by the writes of their lines, and nothing else. -/
theorem deliver_session :
    (deliver channel s entries).1 =
      {s with
        sinks := s.sinks.set channel.sink
          (Sink.writeAll (s.sinks.get channel.sink)
            (entries.map (·.typeset channel.screen))).1} := by
  induction entries generalizing s with
  | nil => rw [List.map_nil, Sink.writeAll, Table.set_get_self]; rfl
  | cons e rest ih =>
      rw [deliver, ih]
      simp only [Table.get_set_self, Table.set_set, List.map_cons, Sink.writeAll]

theorem deliver_results :
    (deliver channel s entries).2.map Delivery.result =
      (Sink.writeAll (s.sinks.get channel.sink) (entries.map (·.typeset channel.screen))).2 := by
  induction entries generalizing s with
  | nil => rfl
  | cons e rest ih =>
      have hrest := ih
        {s with
          sinks := s.sinks.set channel.sink
            (Sink.write (s.sinks.get channel.sink) (e.typeset channel.screen)).1}
      rw [Table.get_set_self] at hrest
      exact congrArg (_ :: ·) hrest

theorem deliver_entries : (deliver channel s entries).2.map Delivery.entry = entries := by
  induction entries generalizing s with
  | nil => rfl
  | cons e rest ih => exact congrArg (e :: ·) (ih _)

end Deliver

theorem notify_acted (h : s.Works id channel p)
    (event : Reporter → Registry → Reporter.Outcome) :
    let o := event p (s.registries.get channel.registry)
    Acted s (s.notify id event).1 id channel o ∧ (s.notify id event).2.entries = o.entries := by
  have hw : s.reporters.get id = some ⟨.enabled channel, p⟩ := h
  simp only [notify, hw]
  rw [deliver_session]
  exact ⟨⟨rfl, rfl, rfl⟩, deliver_entries _ _ _⟩

/-- A step of a reporter at work is what the reporter does. -/
theorem perform_acted (h : s.Works id channel p) {step : Step}
    (hs : ∀ logger a, step ≠ .attach logger a) :
    let o := p.act (s.registries.get channel.registry) step
    Acted s (s.perform id step).1 id channel o ∧ (s.perform id step).2.entries = o.entries := by
  cases step with
  | attach logger a => exact (hs logger a rfl).elim
  | logValues values => exact ⟨log_acted h _, rfl⟩
  | logMessage m => exact ⟨log_acted h _, rfl⟩
  | update props => exact notify_acted h _
  | mount => exact notify_acted h _
  | unmount => exact notify_acted h _

theorem notify_of_idle (h : ∀ channel p, ¬ s.Works id channel p)
    (event : Reporter → Registry → Reporter.Outcome) : s.notify id event = (s, .silent) := by
  unfold notify
  split
  · rename_i channel p hw
    exact (h channel p hw).elim
  · rfl

/-- Without a reporter at work a step does nothing. -/
theorem perform_of_idle (h : ∀ channel p, ¬ s.Works id channel p) {step : Step}
    (hs : ∀ logger a, step ≠ .attach logger a) :
    (s.perform id step).1 = s ∧ (s.perform id step).2.entries = [] := by
  cases step with
  | attach logger a => exact (hs logger a rfl).elim
  | logValues values => exact ⟨log_of_idle h _, rfl⟩
  | logMessage m => exact ⟨log_of_idle h _, rfl⟩
  | update props => rw [perform, notify_of_idle h]; exact ⟨rfl, rfl⟩
  | mount => rw [perform, notify_of_idle h]; exact ⟨rfl, rfl⟩
  | unmount => rw [perform, notify_of_idle h]; exact ⟨rfl, rfl⟩

/-- Everything a step can be: an attachment, idle, or a deed of a reporter at work. -/
theorem perform_cases (s : Session σ) (id : ReporterId) (step : Step) :
    (∃ logger a, step = .attach logger a ∧ (s.perform id step).1 = s.attach id logger a ∧
      (s.perform id step).2.entries = []) ∨
    ((∀ channel p, ¬ s.Works id channel p) ∧ (s.perform id step).1 = s ∧
      (s.perform id step).2.entries = []) ∨
    (∃ channel p, s.Works id channel p ∧ (∀ logger a, step ≠ .attach logger a) ∧
      Acted s (s.perform id step).1 id channel
        (p.act (s.registries.get channel.registry) step) ∧
      (s.perform id step).2.entries =
        (p.act (s.registries.get channel.registry) step).entries) := by
  rcases step.attach_cases with ⟨logger, a, rfl⟩ | hs
  · exact .inl ⟨logger, a, rfl, rfl, rfl⟩
  · by_cases hw : ∃ channel p, s.Works id channel p
    · obtain ⟨channel, p, hw⟩ := hw
      exact .inr (.inr ⟨channel, p, hw, hs, perform_acted hw hs⟩)
    · have hw' : ∀ channel p, ¬ s.Works id channel p := fun channel p h => hw ⟨channel, p, h⟩
      exact .inr (.inl ⟨hw', perform_of_idle hw' hs⟩)

/-- A step of one reporter leaves all other reporters alone. -/
theorem perform_get_of_ne (s : Session σ) {id other : ReporterId} (hne : other ≠ id)
    (step : Step) : (s.perform id step).1.reporters.get other = s.reporters.get other := by
  rcases perform_cases s id step with
    ⟨logger, a, -, ht, -⟩ | ⟨-, ht, -⟩ | ⟨channel, p, -, -, hact, -⟩
  · rw [ht, attach_get_of_ne s id logger a hne]
  · rw [ht]
  · exact hact.get_of_ne hne

section Run

theorem run_append (s : Session σ) (past later : List (ReporterId × Step)) :
    s.run (past ++ later) =
      (((s.run past).1.run later).1, (s.run past).2 ++ ((s.run past).1.run later).2) := by
  induction past generalizing s with
  | nil => rfl
  | cons e past ih => simp only [List.cons_append, run, ih]

theorem run_length (s : Session σ) (steps : List (ReporterId × Step)) :
    (s.run steps).2.length = steps.length := by
  induction steps generalizing s with
  | nil => rfl
  | cons e steps ih => simp only [run, List.length_cons, ih]

/-- The session that a run leaves. -/
def after (s : Session σ) (past : List (ReporterId × Step)) : Session σ := (s.run past).1

@[simp] theorem after_nil (s : Session σ) : s.after [] = s := rfl

theorem after_append (s : Session σ) (past later : List (ReporterId × Step)) :
    s.after (past ++ later) = (s.after past).after later := by
  simp only [after, run_append]

theorem after_concat (s : Session σ) (past : List (ReporterId × Step)) (id : ReporterId)
    (step : Step) : s.after (past ++ [(id, step)]) = ((s.after past).perform id step).1 := by
  rw [after_append]
  rfl

/-- What attachments and the deeds of reporters at work preserve is so after every run. -/
theorem after_induction {motive : Session σ → Prop} (start : motive s)
    (attach : ∀ s id logger a, motive s → motive (s.attach id logger a))
    (act : ∀ s t id channel p step, s.Works id channel p →
      Acted s t id channel (p.act (s.registries.get channel.registry) step) →
        motive s → motive t)
    (past : List (ReporterId × Step)) : motive (s.after past) := by
  induction past using List.reverseRecOn with
  | nil => exact start
  | append_singleton past e ih =>
      obtain ⟨id, step⟩ := e
      rw [after_concat]
      rcases perform_cases (s.after past) id step with
        ⟨logger, a, -, ht, -⟩ | ⟨-, ht, -⟩ | ⟨channel, p, hw, -, hact, -⟩
      · rw [ht]
        exact attach _ id logger a ih
      · rw [ht]
        exact ih
      · exact act _ _ id channel p step hw hact ih

/-- The entries that one more step writes after a run. -/
def written (s : Session σ) (past : List (ReporterId × Step)) (id : ReporterId) (step : Step) :
    List Entry := ((s.after past).perform id step).2.entries

/-- The entries that the reporter under an identifier has written since it was attached. -/
def told (s : Session σ) (past : List (ReporterId × Step)) (id : ReporterId) : List Entry :=
  (past.zip (s.run past).2).foldl
    (fun entries e =>
      if e.1.1 = id then
        match e.1.2 with
        | .attach _ _ => []
        | _ => entries ++ e.2.entries
      else entries) []

theorem told_concat (s : Session σ) (past : List (ReporterId × Step)) (i id : ReporterId)
    (step : Step) :
    s.told (past ++ [(i, step)]) id =
      if i = id then
        match step with
        | .attach _ _ => []
        | _ => s.told past id ++ s.written past i step
      else s.told past id := by
  unfold told
  rw [run_append, List.zip_append (run_length s past).symm, List.foldl_append]
  rfl

theorem told_concat_of_ne (s : Session σ) (past : List (ReporterId × Step)) {i id : ReporterId}
    (h : i ≠ id) (step : Step) : s.told (past ++ [(i, step)]) id = s.told past id := by
  rw [told_concat, if_neg h]

theorem told_concat_attach (s : Session σ) (past : List (ReporterId × Step)) (id : ReporterId)
    (logger : Logger) (a : Activation) :
    s.told (past ++ [(id, .attach logger a)]) id = [] := by
  rw [told_concat, if_pos rfl]

theorem told_concat_self (s : Session σ) (past : List (ReporterId × Step)) (id : ReporterId)
    {step : Step} (h : ∀ logger a, step ≠ .attach logger a) :
    s.told (past ++ [(id, step)]) id = s.told past id ++ s.written past id step := by
  rw [told_concat, if_pos rfl]
  cases step with
  | attach logger a => exact (h logger a rfl).elim
  | _ => rfl

/-- What an attachment gives, every step of the reporter keeps and no step of another
reporter breaks, holds as long as the reporter is at work. -/
theorem works_induction (hs : ∀ id, s.reporters.get id = none)
    {motive : List (ReporterId × Step) → Channel → Reporter → Prop}
    (attach : ∀ past channel a,
      motive (past ++ [(id, .attach (.enabled channel) a)]) channel
        (.ofActivation a (.ofFrames a.frames) ⟨(s.after past).nextSerial⟩))
    (act : ∀ past channel p step, (s.after past).Works id channel p →
      (∀ logger a, step ≠ .attach logger a) → motive past channel p →
        motive (past ++ [(id, step)]) channel
          (p.act ((s.after past).registries.get channel.registry) step).reporter)
    (other : ∀ past channel p i step, i ≠ id → motive past channel p →
      motive (past ++ [(i, step)]) channel p)
    (past : List (ReporterId × Step)) (hw : (s.after past).Works id channel p) :
    motive past channel p := by
  induction past using List.reverseRecOn generalizing channel p with
  | nil =>
      have hn : s.reporters.get id = some ⟨.enabled channel, p⟩ := hw
      rw [hs id] at hn
      cases hn
  | append_singleton past e ih =>
      obtain ⟨i, step⟩ := e
      rw [after_concat] at hw
      by_cases hi : i = id
      · subst hi
        rcases perform_cases (s.after past) i step with
          ⟨logger, a, hstep, ht, -⟩ | ⟨hidle, ht, -⟩ | ⟨c, q, hq, hstep, hact, -⟩
        · rw [ht] at hw
          obtain ⟨hl, hp⟩ := hw.of_attach
          subst hstep hl hp
          exact attach past channel a
        · rw [ht] at hw
          exact (hidle channel p hw).elim
        · obtain ⟨hc, hp⟩ := hact.works_self.unique hw
          subst hc hp
          exact act past c q step hq hstep (ih hq)
      · rw [Works, perform_get_of_ne _ (Ne.symm hi)] at hw
        exact other past channel p i step hi (ih hw)

end Run

end Session
end RenderLog
