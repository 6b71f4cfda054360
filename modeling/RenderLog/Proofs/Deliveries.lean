import RenderLog.Proofs.History

/-!
# What reaches a sink

The entries of a step reach the sink of the channel as lines, one write after the
other, and no other sink changes. The lines of a life are spelled out here: the
label, the note of the number and what happened.

A step settles its bookkeeping first and writes then. Writing the first lines while
some of it is still open comes to the same, for neither looks at the other.
-/
namespace RenderLog

/-- The note of a number that is counted from one: the first has none. -/
def ordinalNote (n : Nat) : String := if n = 1 then "" else " (" ++ toString n ++ ")"

theorem numberNote_eq (n : Nat) : numberNote n = ordinalNote (n + 1) := by
  by_cases h : n = 0
  · subst h
    rfl
  · simp [numberNote, ordinalNote, h, Number.natText, ← String.toList_inj]

/-- The text of a line of a life. Numbers start from zero, and what is shown of them from one. -/
def lifeText (label : String) (n : Nat) (event : String) : String :=
  label ++ ordinalNote (n + 1) ++ event

namespace Line

def rendered (screen : Screen) (label : String) (n : Nat) (props : Value) : Line :=
  (⟨[lifeText label n " rendered with props: \x60", "\x60."], [props]⟩ : Message).typeset
    .none none screen

def mounted (screen : Screen) (label : String) (n : Nat) : Line :=
  (Message.ofText (lifeText label n " mounted.")).typeset .none none screen

def unmounted (screen : Screen) (label : String) (n : Nat) : Line :=
  (Message.ofText (lifeText label n " unmounted.")).typeset .none none screen

end Line

namespace Entry

/-- The line of an entry. -/
def shown (screen : Screen) : Entry → Line
  | .rendered label n props => .rendered screen label n props
  | .mounted label n => .mounted screen label n
  | .unmounted label n => .unmounted screen label n
  | .logged m highlights trace => m.typeset highlights (some trace) screen

theorem typeset_eq_shown (e : Entry) (screen : Screen) : e.typeset screen = e.shown screen := by
  cases e with
  | rendered label n props =>
      rw [typeset, message, numberNote_eq]
      rfl
  | mounted label n =>
      rw [typeset, message, numberNote_eq]
      rfl
  | unmounted label n =>
      rw [typeset, message, numberNote_eq]
      rfl
  | logged m highlights trace => rfl

end Entry

namespace Session
variable {σ : Type} [Sink σ] {s : Session σ} {id : ReporterId} {channel : Channel} {p : Reporter}

/-- The step hands these entries to the sink of the channel as lines of its screen, in order, and
writes nothing else. -/
structure Sends (s : Session σ) (id : ReporterId) (step : Step) (channel : Channel)
    (entries : List Entry) : Prop where
  entries_eq : (s.perform id step).2.entries = entries
  sent : ∀ d ∈ (s.perform id step).2.deliveries,
    d.sink = channel.sink ∧ d.line = d.entry.shown channel.screen
  sinks : (s.perform id step).1.sinks = s.sinks.set channel.sink
    (Sink.writeAll (s.sinks.get channel.sink) (entries.map (·.shown channel.screen))).1
  results : (s.perform id step).2.deliveries.map Delivery.result =
    (Sink.writeAll (s.sinks.get channel.sink) (entries.map (·.shown channel.screen))).2

theorem Sends.lines_eq {step : Step} {entries : List Entry} (h : s.Sends id step channel entries) :
    (s.perform id step).2.deliveries.map Delivery.line = entries.map (·.shown channel.screen) := by
  rw [← h.entries_eq, Reply.entries, List.map_map]
  exact List.map_congr_left fun d hd => (h.sent d hd).2

theorem Sends.entry_mem {step : Step} {entries : List Entry} (h : s.Sends id step channel entries)
    {d : Delivery} (hd : d ∈ (s.perform id step).2.deliveries) : d.entry ∈ entries := by
  rw [← h.entries_eq]
  exact List.mem_map_of_mem hd

theorem Sends.line_eq {step : Step} {entries : List Entry} (h : s.Sends id step channel entries)
    {d : Delivery} (hd : d ∈ (s.perform id step).2.deliveries) {e : Entry} (he : d.entry = e) :
    d.line = e.shown channel.screen := by
  rw [← he]
  exact (h.sent d hd).2

section Deliver
variable (channel : Channel) (s : Session σ) (entries : List Entry)

theorem deliver_sent : ∀ d ∈ (deliver channel s entries).2,
    d.sink = channel.sink ∧ d.line = d.entry.shown channel.screen := by
  induction entries generalizing s with
  | nil => exact fun d hd => (List.not_mem_nil hd).elim
  | cons e rest ih =>
      intro d hd
      rcases List.mem_cons.mp hd with rfl | hd
      · exact ⟨rfl, e.typeset_eq_shown channel.screen⟩
      · exact ih _ d hd

theorem deliver_append (more : List Entry) :
    deliver channel s (entries ++ more) =
      ((deliver channel (deliver channel s entries).1 more).1,
        (deliver channel s entries).2 ++
          (deliver channel (deliver channel s entries).1 more).2) := by
  induction entries generalizing s with
  | nil => rfl
  | cons e rest ih => simp only [List.cons_append, deliver, ih]

end Deliver

theorem typeset_eq_shown_map (entries : List Entry) (screen : Screen) :
    entries.map (·.typeset screen) = entries.map (·.shown screen) :=
  List.map_congr_left fun e _ => e.typeset_eq_shown screen

/-- What a reporter at work reports goes to the sink of its logger. -/
theorem notify_sends (h : s.Works id channel p) {step : Step}
    {event : Reporter → Registry → Reporter.Outcome} (hs : s.perform id step = s.notify id event) :
    s.Sends id step channel (event p (s.registries.get channel.registry)).entries := by
  have hw : s.reporters.get id = some ⟨.enabled channel, p⟩ := h
  have hentries := (notify_acted h event).2
  constructor
  · rw [hs, hentries]
  · rw [hs]
    simp only [notify, hw]
    exact deliver_sent _ _ _
  · rw [hs, ← typeset_eq_shown_map]
    simp only [notify, hw]
    rw [deliver_session]
  · rw [hs, ← typeset_eq_shown_map]
    simp only [notify, hw]
    rw [deliver_results]

theorem log_sends {step : Step} {change : Reporter → Reporter} {returned : Option Value}
    (hs : s.perform id step = (s.log id change, ⟨returned, []⟩)) :
    s.Sends id step channel [] := by
  have hsinks : (s.log id change).sinks = s.sinks := by
    unfold log
    split <;> rfl
  constructor
  · rw [hs]
    rfl
  · rw [hs]
    exact fun d hd => (List.not_mem_nil hd).elim
  · rw [hs, hsinks]
    exact (Table.set_get_self _ _).symm
  · rw [hs]
    rfl

/-- What a reporter at work writes in a step goes through the channel of its logger. -/
theorem perform_sends (h : s.Works id channel p) {step : Step}
    (hs : ∀ logger a, step ≠ .attach logger a) :
    s.Sends id step channel (p.act (s.registries.get channel.registry) step).entries := by
  cases step with
  | attach logger a => exact (hs logger a rfl).elim
  | logValues values => exact log_sends rfl
  | logMessage m => exact log_sends rfl
  | update props => exact notify_sends h rfl
  | mount => exact notify_sends h rfl
  | unmount => exact notify_sends h rfl

section InTurn

/-- The session with another state of the reporter and of the registry of its logger. -/
def book (s : Session σ) (id : ReporterId) (channel : Channel) (p : Reporter) (r : Registry) :
    Session σ :=
  {s with
    registries := s.registries.set channel.registry r
    reporters := s.reporters.set id (some ⟨.enabled channel, p⟩)}

omit [Sink σ] in
theorem book_book (s : Session σ) (id : ReporterId) (channel : Channel) (p q : Reporter)
    (r t : Registry) : (s.book id channel p r).book id channel q t = s.book id channel q t := by
  simp only [book, Table.set_set]

/-- What is booked has no influence on what is written, nor the other way round. -/
theorem deliver_book (s : Session σ) (id : ReporterId) (channel : Channel) (p : Reporter)
    (r : Registry) (entries : List Entry) :
    deliver channel (s.book id channel p r) entries =
      ((deliver channel s entries).1.book id channel p r, (deliver channel s entries).2) := by
  induction entries generalizing s with
  | nil => rfl
  | cons e rest ih =>
      have hrest := ih
        {s with
          sinks := s.sinks.set channel.sink
            (Sink.write (s.sinks.get channel.sink) (e.typeset channel.screen)).1}
      simp only [book] at hrest
      simp only [deliver, book, hrest]

/-- A reporter may write the first of its entries before its state and the registry are final. -/
theorem notify_in_turn (h : s.Works id channel p) (event : Reporter → Registry → Reporter.Outcome)
    (q : Reporter) (t : Registry) (first last : List Entry) :
    let o := event p (s.registries.get channel.registry)
    let early := deliver channel (s.book id channel q t) first
    let late := deliver channel (early.1.book id channel o.reporter o.registry) last
    o.entries = first ++ last → s.notify id event = (late.1, ⟨none, early.2 ++ late.2⟩) := by
  intro o early late ho
  have hw : s.reporters.get id = some ⟨.enabled channel, p⟩ := h
  have hnotify : s.notify id event =
      ((deliver channel (s.book id channel o.reporter o.registry) (first ++ last)).1,
        ⟨none, (deliver channel (s.book id channel o.reporter o.registry) (first ++ last)).2⟩) := by
    simp only [notify, hw]
    rw [← ho]
    rfl
  rw [hnotify, deliver_append, deliver_book s id channel o.reporter]
  simp only [late, early, deliver_book s id channel q, book_book]

/-- The line with the props is written before the values of the render are settled, which makes
no difference. -/
theorem update_in_turn (h : s.Works id channel p) (props : Value) :
    let r := s.registries.get channel.registry
    let looked := (p.number r).2
    let early := deliver channel (s.book id channel p looked)
      (p.lifeLine r (.update props)).toList
    let late := deliver channel (early.1.book id channel p.settle looked) p.changedMessage
    s.perform id (.update props) = (late.1, ⟨none, early.2 ++ late.2⟩) := by
  intro r looked early late
  have hturn := notify_in_turn h (Reporter.update props) p looked
    (p.lifeLine r (.update props)).toList p.changedMessage
  cases hl : p.leads r with
  | true =>
      rw [Reporter.update_of_leads hl] at hturn
      refine hturn ?_
      rw [Reporter.lifeLine, if_pos hl]
      rfl
  | false =>
      rw [Reporter.update_of_not_leads hl] at hturn
      refine hturn ?_
      rw [Reporter.lifeLine, hl]
      rfl

end InTurn

end Session
end RenderLog
