import RenderLog.Proofs.MessageLines

/-!
# What a step shows

Of a step the host sees the value that it gives back, and the sinks the lines that
they are handed. The value depends on the step alone. The lines are those of the
entries that the reporter writes, on the screen and through the sink of its logger.
-/
namespace RenderLog

/-- The value that a step gives back: the first one that it logs. -/
def Step.returned : Step → Option Value
  | .logValues values => values.head?
  | .logMessage m => m.values.head?
  | _ => none

/-- The lines handed to sinks in a step. -/
def Reply.handed (r : Reply) : List (SinkId × Line) := r.deliveries.map fun d => (d.sink, d.line)

/-- The line of an entry on the way to the sink of a channel. -/
def Channel.hands (channel : Channel) (e : Entry) : SinkId × Line :=
  (channel.sink, e.shown channel.screen)

theorem Reply.handed_of_entries_eq_nil {r : Reply} (h : r.entries = []) : r.handed = [] := by
  rw [Reply.handed, List.map_eq_nil_iff.mp h, List.map_nil]

namespace Session
variable {σ : Type} {s : Session σ} {id : ReporterId}

/-- The owner of the reporter under an identifier. -/
def ownerOf (s : Session σ) (id : ReporterId) : Option Owner :=
  (s.reporters.get id).map fun a => a.reporter.owner

variable [Sink σ]

theorem Sends.handed_eq {step : Step} {channel : Channel} {entries : List Entry}
    (h : s.Sends id step channel entries) :
    (s.perform id step).2.handed = entries.map channel.hands := by
  rw [← h.entries_eq, Reply.entries, List.map_map]
  refine List.map_congr_left fun d hd => ?_
  obtain ⟨hsink, hline⟩ := h.sent d hd
  exact Prod.ext hsink hline

/-- What the step writes is sent by the reporter at work through its logger. Without one nothing is
written. -/
def SendsFor (s : Session σ) (id : ReporterId) (step : Step) : Prop :=
  ((s.perform id step).2.deliveries = [] ∧ (s.perform id step).1.sinks = s.sinks) ∨
    ∃ channel p, s.Works id channel p ∧
      s.Sends id step channel (s.perform id step).2.entries

theorem SendsFor.lines_eq {step : Step} (h : s.SendsFor id step) {channel : Channel} {p : Reporter}
    (hw : s.Works id channel p) :
    (s.perform id step).2.deliveries.map Delivery.line =
      (s.perform id step).2.entries.map (·.shown channel.screen) := by
  rcases h with ⟨hnone, -⟩ | ⟨c, q, hq, hsends⟩
  · rw [Reply.entries, hnone]
    rfl
  · obtain ⟨rfl, -⟩ := hw.unique hq
    exact hsends.lines_eq

theorem perform_returned (s : Session σ) (id : ReporterId) (step : Step) :
    (s.perform id step).2.returned = step.returned := by
  have notified (event : Reporter → Registry → Reporter.Outcome) :
      (s.notify id event).2.returned = none := by
    unfold notify
    split <;> rfl
  cases step with
  | attach logger a => rfl
  | logValues values => rfl
  | logMessage m => rfl
  | update props => exact notified _
  | mount => exact notified _
  | unmount => exact notified _

theorem perform_sendsFor (s : Session σ) (id : ReporterId) (step : Step) :
    s.SendsFor id step := by
  rcases perform_cases s id step with
    ⟨_, _, -, ht, he⟩ | ⟨-, ht, he⟩ | ⟨channel, p, hw, hstep, -, he⟩
  · exact .inl ⟨List.map_eq_nil_iff.mp he, by rw [ht]; rfl⟩
  · exact .inl ⟨List.map_eq_nil_iff.mp he, by rw [ht]⟩
  · exact .inr ⟨channel, p, hw, he ▸ perform_sends hw hstep⟩

end Session
end RenderLog
