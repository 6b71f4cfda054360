import RenderLog.Proofs.Observation

/-!
# Screens and sinks have no say

A script is run twice, with loggers that look up in the same registries and are
otherwise chosen anew: on other screens, and over other sinks of any kind, which
may fail at any writes. The two sessions keep the same reporters and registries,
step by step, and write the same entries. A line depends on its entry and on the
screen alone, so what became of the lines before it leaves it as it is.

The values given back are also those of the script on a disabled logger.
-/
namespace RenderLog

/-- Loggers that agree on whether and where to look up, whatever their screens and sinks. -/
inductive Logger.Rewired : Logger → Logger → Prop
  | disabled : Rewired .disabled .disabled
  | enabled (c d : Channel) (h : c.registry = d.registry) : Rewired (.enabled c) (.enabled d)

/-- A step, and the same step with another screen and sink for the reporter that it attaches. -/
inductive Step.Rewired : Step → Step → Prop
  | attach {l m : Logger} (h : l.Rewired m) (a : Activation) :
      Rewired (.attach l a) (.attach m a)
  | logValues (values : List Value) : Rewired (.logValues values) (.logValues values)
  | logMessage (m : Message) : Rewired (.logMessage m) (.logMessage m)
  | update (props : Value) : Rewired (.update props) (.update props)
  | mount : Rewired .mount .mount
  | unmount : Rewired .unmount .unmount

abbrev Rewired (steps other : List (ReporterId × Step)) : Prop :=
  List.Forall₂ (fun e d => e.1 = d.1 ∧ e.2.Rewired d.2) steps other

def Step.disabled : Step → Step
  | .attach _ a => .attach .disabled a
  | step => step

theorem Logger.Rewired.site_eq {l m : Logger} (h : l.Rewired m) (a : Activation) :
    l.site a = m.site a := by
  cases h <;> rfl

theorem Step.returned_disabled (step : Step) : step.disabled.returned = step.returned := by
  cases step <;> rfl

theorem Step.Rewired.returned_eq {step other : Step} (h : step.Rewired other) :
    step.returned = other.returned := by
  cases h <;> rfl

theorem Step.Rewired.eq_of_ne {step other : Step} (h : step.Rewired other)
    (hs : ∀ logger a, step ≠ .attach logger a) : other = step := by
  cases h with
  | attach hl a => exact (hs _ a rfl).elim
  | _ => rfl

structure Attached.Rewired (x y : Attached) : Prop where
  logger : x.logger.Rewired y.logger
  reporter : x.reporter = y.reporter

namespace Session
variable {σ τ : Type}

/-- Sessions with the same bookkeeping. Nothing is said of their sinks. -/
structure Parallel (s : Session σ) (t : Session τ) : Prop where
  registries : s.registries = t.registries
  nextSerial : s.nextSerial = t.nextSerial
  reporters : ∀ id, Option.Rel Attached.Rewired (s.reporters.get id) (t.reporters.get id)

theorem parallel_start (sinks : Table SinkId σ) (others : Table SinkId τ) :
    (start sinks).Parallel (start others) := ⟨rfl, rfl, fun _ => .none⟩

namespace Parallel
variable {s u : Session σ} {t v : Session τ} {id : ReporterId} {step other : Step}

/-- The same reporter is at work in both sessions, or none in either. -/
theorem works_cases (h : s.Parallel t) (id : ReporterId) :
    ((∀ channel p, ¬ s.Works id channel p) ∧ ∀ channel p, ¬ t.Works id channel p) ∨
      ∃ c d p, c.registry = d.registry ∧ s.Works id c p ∧ t.Works id d p := by
  have hrel := h.reporters id
  cases hs : s.reporters.get id with
  | none =>
      rw [hs] at hrel
      cases ht : t.reporters.get id with
      | none =>
          refine .inl ⟨fun c p hw => ?_, fun c p hw => ?_⟩
          · cases hs.symm.trans hw
          · cases ht.symm.trans hw
      | some y =>
          rw [ht] at hrel
          cases hrel
  | some x =>
      cases ht : t.reporters.get id with
      | none =>
          rw [hs, ht] at hrel
          cases hrel
      | some y =>
          rw [hs, ht, Option.rel_some_some] at hrel
          obtain ⟨l, p⟩ := x
          obtain ⟨m, q⟩ := y
          obtain ⟨hlogger, rfl⟩ := hrel
          cases hlogger with
          | disabled =>
              refine .inl ⟨fun c p hw => ?_, fun c p hw => ?_⟩
              · cases hs.symm.trans hw
              · cases ht.symm.trans hw
          | enabled c d hr => exact .inr ⟨c, d, p, hr, hs, ht⟩

theorem attach (h : s.Parallel t) (id : ReporterId) {l m : Logger} (hl : l.Rewired m)
    (a : Activation) : (s.attach id l a).Parallel (t.attach id m a) where
  registries := h.registries
  nextSerial := congrArg (· + 1) h.nextSerial
  reporters i := by
    by_cases hi : i = id
    · subst hi
      rw [attach_get_self, attach_get_self, h.nextSerial, hl.site_eq]
      exact .some ⟨hl, rfl⟩
    · rw [attach_get_of_ne s id l a hi, attach_get_of_ne t id m a hi]
      exact h.reporters i

theorem acted (h : s.Parallel t) {c d : Channel} (hr : c.registry = d.registry)
    {o : Reporter.Outcome} (hs : Acted s u id c o) (ht : Acted t v id d o) : u.Parallel v where
  registries := by rw [hs.registries, ht.registries, h.registries, hr]
  nextSerial := by rw [hs.nextSerial, ht.nextSerial, h.nextSerial]
  reporters i := by
    by_cases hi : i = id
    · subst hi
      rw [hs.works_self, ht.works_self]
      exact .some ⟨.enabled c d hr, rfl⟩
    · rw [hs.get_of_ne hi, ht.get_of_ne hi]
      exact h.reporters i

variable [Sink σ] [Sink τ]

/-- A step keeps the bookkeeping the same and writes the same entries. -/
theorem perform (h : s.Parallel t) (id : ReporterId) (hstep : step.Rewired other) :
    (s.perform id step).1.Parallel (t.perform id other).1 ∧
      (s.perform id step).2.entries = (t.perform id other).2.entries := by
  rcases step.attach_cases with ⟨logger, a, rfl⟩ | hs
  · cases hstep with
    | attach hl a => exact ⟨h.attach id hl a, rfl⟩
  · obtain rfl := hstep.eq_of_ne hs
    rcases h.works_cases id with ⟨hidle, hidle'⟩ | ⟨c, d, p, hr, hw, hw'⟩
    · obtain ⟨hu, he⟩ := perform_of_idle hidle hs
      obtain ⟨hv, he'⟩ := perform_of_idle hidle' hs
      rw [hu, hv, he, he']
      exact ⟨h, rfl⟩
    · obtain ⟨hu, he⟩ := perform_acted hw hs
      obtain ⟨hv, he'⟩ := perform_acted hw' hs
      rw [← hr, ← h.registries] at hv he'
      exact ⟨h.acted hr hu hv, he.trans he'.symm⟩

theorem after (h : s.Parallel t) {steps others : List (ReporterId × Step)}
    (hr : Rewired steps others) : (s.after steps).Parallel (t.after others) := by
  induction hr generalizing s t with
  | nil => exact h
  | @cons e d steps others he _ ih =>
      obtain ⟨id, step⟩ := e
      obtain ⟨i, other⟩ := d
      obtain ⟨rfl, hstep⟩ := he
      exact ih (h.perform id hstep).1

end Parallel

variable {s : Session σ} {t : Session τ} [Sink σ] [Sink τ]

/-- After any script, run with loggers on any screens and sinks, a step leaves the same
registries, gives back the same value, which is that of a disabled logger too, and writes the
same entries, each on the screen of its own logger. On one screen the lines are the same,
whatever became of the lines before them. -/
theorem bookkeeping_of_rewired (h : s.Parallel t) {past others : List (ReporterId × Step)}
    (hpast : Rewired past others) (id : ReporterId) {step other : Step}
    (hstep : step.Rewired other) :
    let x := (s.after past).perform id step
    let y := (t.after others).perform id other
    (x.1.registries = y.1.registries ∧ x.2.returned = y.2.returned ∧
      x.2.entries = y.2.entries) ∧
    ((s.after past).SendsFor id step ∧ (t.after others).SendsFor id other) ∧
    (∀ c d p q, (s.after past).Works id c p → (t.after others).Works id d q →
      c.screen = d.screen →
        x.2.deliveries.map Delivery.line = y.2.deliveries.map Delivery.line) ∧
    ∀ u : Session σ, ((u.after (past.map fun e => (e.1, e.2.disabled))).perform id
      step.disabled).2.returned = x.2.returned := by
  intro x y
  obtain ⟨hparallel, hentries⟩ := (h.after hpast).perform id hstep
  have hx : (s.after past).SendsFor id step := perform_sendsFor _ id step
  have hy : (t.after others).SendsFor id other := perform_sendsFor _ id other
  refine ⟨⟨hparallel.registries, ?_, hentries⟩, ⟨hx, hy⟩, ?_, fun u => ?_⟩
  · rw [perform_returned, perform_returned, hstep.returned_eq]
  · intro c d p q hp hq hscreen
    rw [hx.lines_eq hp, hy.lines_eq hq, hscreen, hentries]
  · rw [perform_returned, perform_returned, Step.returned_disabled]

/-- A sink that refuses the writes with some of the numbers. -/
structure Refusing where
  refuses : Nat → Bool
  /-- How many lines it was handed. -/
  handed : Nat

instance : Sink Refusing where
  write s _ := ({s with handed := s.handed + 1},
    if s.refuses s.handed then .error (.refused "lost") else .ok ())

/-- A render that is written in two lines, and the log of another one. -/
def twoLines (channel : Channel) : List (ReporterId × Step) :=
  [("a", .attach (.enabled channel) (.unnamed [])), ("a", .logValues [.int 1]),
    ("a", .update .null), ("a", .logValues [.int 2])]

theorem rewired_twoLines {c d : Channel} (h : c.registry = d.registry) :
    Rewired (twoLines c) (twoLines d) :=
  .cons ⟨rfl, .attach (.enabled c d h) _⟩
    (.cons ⟨rfl, .logValues _⟩ (.cons ⟨rfl, .update _⟩ (.cons ⟨rfl, .logValues _⟩ .nil)))

/-- Sinks that refuse the first write and the third. -/
def lossy : Table SinkId Refusing := .const ⟨fun n => n == 0 || n == 2, 0⟩

/-- In the second run a line of each render is lost, and the lines are the same. -/
theorem bookkeeping_of_rewired_twoLines :
    let kept := ((start memories).after (twoLines .terminal)).perform "a" (.update .null)
    let lost := ((start lossy).after (twoLines ⟨.terminal, .process, 1⟩)).perform "a"
      (.update .null)
    lost.2.deliveries.map (fun d => d.warning?.isSome) = [true, false] ∧
      kept.2.entries = lost.2.entries ∧
      kept.2.deliveries.map Delivery.line = lost.2.deliveries.map Delivery.line := by
  intro kept lost
  obtain ⟨⟨-, -, hentries⟩, -, hlines, -⟩ :=
    bookkeeping_of_rewired (parallel_start memories lossy) (rewired_twoLines rfl) "a"
      (.update .null)
  exact ⟨by decide +kernel, hentries, hlines _ _ _ _ rfl rfl rfl⟩

end Session
end RenderLog
