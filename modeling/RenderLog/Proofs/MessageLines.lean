import RenderLog.Proofs.Attachments
import RenderLog.Proofs.Deliveries

/-!
# When a message is written

The updates of a reporter cut its steps into rounds. Only the last log of a round
counts, and an update compares it with that of the round before, whether that
one was written or not. Mounts, unmounts and the steps of other reporters leave
the rounds alone.

So the state of a reporter is its history in short: what the open round has
logged, and the values of the round before.
-/
namespace RenderLog

/-- What a unit has logged by the end of a round. -/
structure Round where
  values : List Value
  message : Option Message

def Round.quiet : Round := ⟨[], none⟩

namespace Step

def isUpdate : Step → Bool
  | .update _ => true
  | _ => false

/-- What a step logs. An empty list of values and a message without segments come with
nothing to write. -/
def logged? : Step → Option Round
  | .logValues values =>
    some ⟨values, if values.isEmpty then none else some (.ofValues values)⟩
  | .logMessage m => some ⟨m.values, if m.isEmpty then none else some m⟩
  | _ => none

end Step

/-- The last log of a round counts. -/
def Round.ofSteps (steps : List Step) : Round :=
  (steps.filterMap Step.logged?).getLast?.getD .quiet

/-- The rounds of a reporter's steps: each update ends one and the last is still open. -/
def rounds (steps : List Step) : List Round :=
  (steps.splitOnP Step.isUpdate).map Round.ofSteps

section Rounds
variable {steps : List Step} {step : Step}

theorem splitOnP_concat (steps : List Step) (h : step.isUpdate = false) :
    ∃ earlier last, steps.splitOnP Step.isUpdate = earlier ++ [last] ∧
      (steps ++ [step]).splitOnP Step.isUpdate = earlier ++ [last ++ [step]] := by
  induction steps with
  | nil =>
      refine ⟨[], [], List.splitOnP_nil, ?_⟩
      rw [List.nil_append, List.splitOnP_cons_eq_if_modifyHead, h]
      rfl
  | cons first steps ih =>
      obtain ⟨earlier, last, hs, hc⟩ := ih
      rw [List.cons_append, List.splitOnP_cons_eq_if_modifyHead,
        List.splitOnP_cons_eq_if_modifyHead, hs, hc]
      cases first.isUpdate with
      | true => exact ⟨[] :: earlier, last, rfl, rfl⟩
      | false =>
          cases earlier with
          | nil => exact ⟨[], first :: last, rfl, rfl⟩
          | cons round earlier => exact ⟨(first :: round) :: earlier, last, rfl, rfl⟩

theorem rounds_concat_update (steps : List Step) (h : step.isUpdate = true) :
    rounds (steps ++ [step]) = rounds steps ++ [.quiet] := by
  rw [rounds, List.splitOnP_append_cons steps [] h, List.splitOnP_nil, List.map_append]
  rfl

theorem Round.ofSteps_concat (steps : List Step) (step : Step) :
    ofSteps (steps ++ [step]) = step.logged?.getD (ofSteps steps) := by
  unfold ofSteps
  rw [List.filterMap_append]
  cases hl : step.logged? with
  | none => simp [hl]
  | some round => simp [hl]

/-- Any other step logs in the open round or leaves it as it is. -/
theorem rounds_concat {earlier : List Round} {now : Round} (h : step.isUpdate = false)
    (hr : rounds steps = earlier ++ [now]) :
    rounds (steps ++ [step]) = earlier ++ [step.logged?.getD now] := by
  obtain ⟨before, last, hs, hc⟩ := splitOnP_concat steps h
  rw [rounds, hs, List.map_append] at hr
  obtain ⟨hearlier, hnow⟩ := List.append_inj' hr rfl
  have hlast : Round.ofSteps last = now := List.singleton_inj.mp hnow
  rw [rounds, hc, List.map_append, hearlier, List.map_singleton, Round.ofSteps_concat, hlast]

-- The last log before the update counts, and the unmount leaves the open round quiet.
example : rounds [.logValues [.int 1], .mount, .logValues [.int 2], .update .null, .unmount] =
    [⟨[.int 2], some (.ofValues [.int 2])⟩, .quiet] := rfl

end Rounds

def DiffersAt (before now : List Value) (i : Nat) : Prop :=
  ∃ v w, before[i]? = some v ∧ now[i]? = some w ∧ v.same w = false

theorem DiffersAt.lt {before now : List Value} {i : Nat} (h : DiffersAt before now i) :
    i < now.length := by
  obtain ⟨v, w, -, hw, -⟩ := h
  exact (List.getElem?_eq_some_iff.mp hw).1

/-- The values have another number than before or differ somewhere. -/
def Changes (before now : List Value) : Prop :=
  before.length ≠ now.length ∨ ∃ i, DiffersAt before now i

/-- The position is one of those that changed: any, if the number of values did. -/
def ChangedAt (before now : List Value) (i : Nat) : Prop :=
  i < now.length ∧ (before.length ≠ now.length ∨ DiffersAt before now i)

namespace Highlights

section Between
variable {before now : List Value} {i : Nat}

def differs (before now : List Value) (i : Nat) : Bool :=
  (List.zipWith (fun v w => !v.same w) before now).getD i false

theorem differs_iff : differs before now i = true ↔ DiffersAt before now i := by
  rw [differs, List.getD_eq_getElem?_getD, List.getElem?_zipWith, DiffersAt]
  cases before[i]? <;> cases now[i]? <;> simp

instance : Decidable (DiffersAt before now i) := decidable_of_iff _ differs_iff

instance : Decidable (ChangedAt before now i) := inferInstanceAs (Decidable (_ ∧ _))

theorem between_of_length_ne (h : before.length ≠ now.length) :
    between (some before) now = some (below now.length fun _ => true) := if_pos h

theorem between_of_length_eq (h : before.length = now.length) :
    between (some before) now =
      if (below now.length (differs before now)).isEmpty then Option.none
      else some (below now.length (differs before now)) := if_neg fun hne => hne h

theorem isEmpty_below {n : Nat} {p : Nat → Bool} :
    (below n p).isEmpty = true ↔ ∀ i < n, p i = false := by
  simp [isEmpty, below]

theorem isEmpty_differs (hlen : before.length = now.length) :
    (below now.length (differs before now)).isEmpty = true ↔ ¬ Changes before now := by
  rw [isEmpty_below, Changes]
  constructor
  · rintro h (hne | ⟨i, hi⟩)
    · exact hne hlen
    · have hfalse := h i hi.lt
      rw [differs_iff.mpr hi] at hfalse
      cases hfalse
  · intro h i _
    exact Bool.eq_false_iff.mpr fun htrue => h (.inr ⟨i, differs_iff.mp htrue⟩)

theorem isSome_between_some (before now : List Value) :
    (between (some before) now).isSome = true ↔ Changes before now := by
  by_cases hlen : before.length = now.length
  · have hempty := isEmpty_differs hlen
    rw [between_of_length_eq hlen]
    split
    · rename_i he
      exact iff_of_false Bool.false_ne_true (hempty.mp he)
    · rename_i he
      exact iff_of_true rfl (by_contra fun h => he (hempty.mpr h))
  · rw [between_of_length_ne hlen]
    exact iff_of_true rfl (.inl hlen)

theorem marks_of_between_some {highlights : Highlights}
    (h : between (some before) now = some highlights) (i : Nat) :
    highlights.marks i = true ↔ ChangedAt before now i := by
  by_cases hlen : before.length = now.length
  · rw [between_of_length_eq hlen] at h
    split at h
    · cases h
    · cases h
      rw [marks_below, Bool.and_eq_true, decide_eq_true_iff, differs_iff, ChangedAt]
      simp [hlen]
  · rw [between_of_length_ne hlen] at h
    cases h
    rw [marks_below, Bool.and_true, decide_eq_true_iff, ChangedAt]
    simp [hlen]

end Between

/-- There are highlights, be it of no position, unless nothing changed since the round before. -/
theorem isSome_between (before : Option (List Value)) (now : List Value) :
    (between before now).isSome = true ↔ ∀ b ∈ before, Changes b now := by
  cases before with
  | none => exact ⟨fun _ b hb => (Option.not_mem_none b hb).elim, fun _ => rfl⟩
  | some before => rw [isSome_between_some]; simp

/-- The highlights are the positions that changed since the round before. -/
theorem marks_of_between {before : Option (List Value)} {now : List Value}
    {highlights : Highlights} (h : between before now = some highlights) (i : Nat) :
    highlights.marks i = true ↔ ∃ b ∈ before, ChangedAt b now i := by
  cases before with
  | none =>
      cases h
      simp
  | some before => rw [marks_of_between_some h]; simp

end Highlights

/-- The message that an update writes when these values were logged in the round before, if
there was one: the message of the round that ends, unless there is none or its values have
not changed. The first round highlights nothing. -/
structure Message.OwedBy (before : Option (List Value)) (now : Round) (trace : String)
    (entry : Option Entry) : Prop where
  isSome_iff : entry.isSome = true ↔
    now.message.isSome = true ∧ ∀ b ∈ before, Changes b now.values
  eq_logged : ∀ e ∈ entry, ∃ m ∈ now.message, ∃ highlights, e = .logged m highlights trace ∧
    ∀ i, highlights.marks i = true ↔ ∃ b ∈ before, ChangedAt b now.values i

theorem Message.owedBy_none {before : Option (List Value)} {now : Round} {trace : String}
    (h : now.message.isSome = true → ¬ ∀ b ∈ before, Changes b now.values) :
    OwedBy before now trace none where
  isSome_iff := iff_of_false Bool.false_ne_true fun hk => h hk.1 hk.2
  eq_logged e he := (Option.not_mem_none e he).elim

/-- The reporter of an activation, told by the rounds that it has gone through. -/
structure Reporter.Recalls (p : Reporter) (a : Activation) (own : List Step) : Prop where
  isOf : p.IsOf a
  history : ∃ earlier, rounds own = earlier ++ [⟨p.now, p.message⟩] ∧
    p.before = earlier.getLast?.map Round.values

namespace Reporter
variable {p : Reporter} {a : Activation} {own : List Step}

theorem recalls_ofActivation (a : Activation) (id : ActivationId) :
    (ofActivation a (.ofFrames a.frames) id).Recalls a [] := ⟨.ofActivation a id, [], rfl, rfl⟩

/-- A step that is no update keeps the round before, and the open one up to what it logs. -/
theorem act_round (p : Reporter) (r : Registry) {step : Step} (h : step.isUpdate = false) :
    (⟨(p.act r step).reporter.now, (p.act r step).reporter.message⟩ : Round) =
        step.logged?.getD ⟨p.now, p.message⟩ ∧
      (p.act r step).reporter.before = p.before := by
  cases step with
  | update props => cases h
  | mount =>
      cases hl : p.leads r with
      | true => rw [act, mount_of_leads hl]; exact ⟨rfl, rfl⟩
      | false => rw [act, mount_of_not_leads hl]; exact ⟨rfl, rfl⟩
  | unmount =>
      cases hn : p.announced with
      | some n => rw [act, unmount_of_announced hn]; exact ⟨rfl, rfl⟩
      | none => rw [act, unmount_of_not_announced hn]; exact ⟨rfl, rfl⟩
  | _ => exact ⟨rfl, rfl⟩

theorem update_reporter (p : Reporter) (r : Registry) (props : Value) :
    (p.update props r).reporter = p.settle := by
  cases h : p.leads r with
  | true => rw [update_of_leads h]
  | false => rw [update_of_not_leads h]

theorem Recalls.act (h : p.Recalls a own) (r : Registry) (step : Step) :
    (p.act r step).reporter.Recalls a (own ++ [step]) := by
  obtain ⟨earlier, hr, hb⟩ := h.history
  refine ⟨h.isOf.act r step, ?_⟩
  cases hu : step.isUpdate with
  | true =>
      cases step <;> cases hu
      rw [rounds_concat_update own rfl, hr, Reporter.act, update_reporter]
      refine ⟨earlier ++ [⟨p.now, p.message⟩], rfl, ?_⟩
      rw [List.getLast?_concat]
      rfl
  | false =>
      obtain ⟨hround, hbefore⟩ := p.act_round r hu
      rw [hround, hbefore]
      exact ⟨earlier, rounds_concat hu hr, hb⟩

theorem changedMessage_owed (p : Reporter) :
    ∃ message : Option Entry, p.changedMessage = message.toList ∧
      Message.OwedBy p.before ⟨p.now, p.message⟩ p.site.trace message := by
  have hchanges := Highlights.isSome_between p.before p.now
  unfold changedMessage
  cases hb : Highlights.between p.before p.now with
  | none =>
      rw [hb] at hchanges
      exact ⟨none, rfl, Message.owedBy_none fun _ hc => Bool.false_ne_true (hchanges.mpr hc)⟩
  | some highlights =>
      rw [hb] at hchanges
      cases hm : p.message with
      | none => exact ⟨none, rfl, Message.owedBy_none fun hn => (Bool.false_ne_true hn).elim⟩
      | some m =>
          refine ⟨some (.logged m highlights p.site.trace), rfl,
            ⟨⟨fun _ => ⟨rfl, hchanges.mp rfl⟩, fun _ => rfl⟩, fun e he => ?_⟩⟩
          cases he
          exact ⟨m, rfl, highlights, rfl, Highlights.marks_of_between hb⟩

/-- An update writes the line of the life, if any, and then the message that it owes. -/
theorem Recalls.update_entries (h : p.Recalls a own) (r : Registry) (props : Value) :
    ∃ earlier now, rounds own = earlier ++ [now] ∧ ∃ life message : Option Entry,
      (p.update props r).entries = life.toList ++ message.toList ∧
      (∀ e ∈ life, ∃ n, e = .rendered (unitLabel a.name) n props) ∧
      Message.OwedBy (earlier.getLast?.map Round.values) now (CallSite.ofFrames a.frames).trace
        message := by
  obtain ⟨earlier, hr, hb⟩ := h.history
  obtain ⟨message, hmessage, howed⟩ := p.changedMessage_owed
  rw [hb, h.isOf.site] at howed
  refine ⟨earlier, _, hr, ?_⟩
  cases hl : p.leads r with
  | true =>
      refine ⟨some (.rendered p.label ((r.roster p.owner).activations.resolve p.id).1 props),
        message, ?_, ?_, howed⟩
      · rw [update_of_leads hl, hmessage]
        rfl
      · intro e he
        cases he
        exact ⟨_, by rw [h.isOf.label]⟩
  | false =>
      refine ⟨none, message, ?_, fun e he => (Option.not_mem_none e he).elim, howed⟩
      rw [update_of_not_leads hl, hmessage]
      rfl

end Reporter

namespace Session
variable {σ : Type} [Sink σ] {s : Session σ} {id : ReporterId} {channel : Channel}

theorem recalls_after (s : Session σ) (id : ReporterId) (channel : Channel) (a : Activation)
    {steps : List (ReporterId × Step)} (h : ∀ step ∈ ownSteps steps id, step.isAttach = false) :
    ∃ p, (s.after ((id, .attach (.enabled channel) a) :: steps)).Works id channel p ∧
      p.Recalls a (ownSteps steps id) := by
  induction steps using List.reverseRecOn with
  | nil => exact ⟨_, attach_get_self s id (.enabled channel) a, Reporter.recalls_ofActivation a _⟩
  | append_singleton steps e ih =>
      obtain ⟨i, step⟩ := e
      rw [← List.cons_append, after_concat]
      by_cases hi : i = id
      · subst hi
        rw [ownSteps_concat_self] at h ⊢
        obtain ⟨p, hw, hp⟩ := ih fun other ho => h other (List.mem_append_left _ ho)
        have hstep : ∀ logger b, step ≠ .attach logger b := by
          rintro logger b rfl
          have hfalse := h _ (List.mem_append_right _ List.mem_cons_self)
          cases hfalse
        obtain ⟨hact, -⟩ := perform_acted hw hstep
        exact ⟨_, hact.works_self, hp.act _ step⟩
      · rw [ownSteps_concat_of_ne steps hi] at h ⊢
        obtain ⟨p, hw, hp⟩ := ih h
        refine ⟨p, ?_, hp⟩
        rwa [Works, perform_get_of_ne _ (Ne.symm hi)]

theorem works_of_lastAttaches {past : List (ReporterId × Step)} {a : Activation}
    (h : LastAttaches past id channel a) : ∃ p, (s.after past).Works id channel p ∧ p.IsOf a := by
  obtain ⟨before, later, rfl, hown⟩ := h
  obtain ⟨p, hw, hp⟩ := recalls_after (s.after before) id channel a hown
  rw [← after_append] at hw
  exact ⟨p, hw, hp.isOf⟩

/-- A row of deliveries is split where its entries are. -/
theorem exists_options_of_entries {deliveries : List Delivery} {life message : Option Entry}
    (h : deliveries.map Delivery.entry = life.toList ++ message.toList) :
    ∃ first last : Option Delivery, deliveries = first.toList ++ last.toList ∧
      first.map Delivery.entry = life ∧ last.map Delivery.entry = message := by
  have option {ds : List Delivery} {e : Option Entry} (hd : ds.map Delivery.entry = e.toList) :
      ∃ d : Option Delivery, ds = d.toList ∧ d.map Delivery.entry = e := by
    cases e with
    | none => exact ⟨none, List.map_eq_nil_iff.mp hd, rfl⟩
    | some e =>
        obtain ⟨d, rfl, he⟩ := List.map_eq_singleton_iff.mp hd
        exact ⟨some d, rfl, congrArg some he⟩
  obtain ⟨front, back, rfl, hfront, hback⟩ := List.map_eq_append_iff.mp h
  obtain ⟨first, rfl, hfirst⟩ := option hfront
  obtain ⟨last, rfl, hlast⟩ := option hback
  exact ⟨first, last, rfl, hfirst, hlast⟩

/-- After any steps of a reporter and of others, an update of the reporter sends the line of
its life, if any, and then the message that it owes for the round that it ends, typeset for the
screen. -/
theorem update_sends_message (s : Session σ) (id : ReporterId) (channel : Channel) (a : Activation)
    {steps : List (ReporterId × Step)} (h : ∀ step ∈ ownSteps steps id, step.isAttach = false)
    (props : Value) :
    let now := s.after ((id, .attach (.enabled channel) a) :: steps)
    let trace := (CallSite.ofFrames a.frames).trace
    ∃ earlier round, rounds (ownSteps steps id) = earlier ++ [round] ∧
      ∃ life message : Option Delivery,
        (now.perform id (.update props)).2.deliveries = life.toList ++ message.toList ∧
        now.Sends id (.update props) channel
          ((life.toList ++ message.toList).map Delivery.entry) ∧
        (∀ d ∈ life, ∃ n, d.entry = .rendered (unitLabel a.name) n props ∧
          d.line = .rendered channel.screen (unitLabel a.name) n props) ∧
        Message.OwedBy (earlier.getLast?.map Round.values) round trace
          (message.map Delivery.entry) ∧
        ∀ d ∈ message, ∃ m ∈ round.message, ∃ highlights, d.entry = .logged m highlights trace ∧
          d.line = m.typeset highlights (some trace) channel.screen := by
  intro now trace
  obtain ⟨p, hw, hp⟩ := recalls_after s id channel a h
  obtain ⟨earlier, round, hr, life, message, he, hlife, howed⟩ :=
    hp.update_entries (now.registries.get channel.registry) props
  have hstep : ∀ logger b, Step.update props ≠ .attach logger b := by simp
  have hsends := perform_sends hw hstep
  obtain ⟨first, last, hd, rfl, rfl⟩ := exists_options_of_entries (hsends.entries_eq.trans he)
  have hentries : (p.act (now.registries.get channel.registry) (.update props)).entries =
      (first.toList ++ last.toList).map Delivery.entry := by
    rw [← hd]
    exact hsends.entries_eq.symm
  refine ⟨earlier, round, hr, first, last, hd, hentries ▸ hsends, ?_, howed, ?_⟩
  · intro d hmem
    have hd' : d ∈ first.toList ++ last.toList :=
      List.mem_append_left _ (Option.mem_toList.mpr hmem)
    obtain ⟨n, hn⟩ := hlife d.entry (Option.mem_map_of_mem _ hmem)
    exact ⟨n, hn, hsends.line_eq (hd ▸ hd') hn⟩
  · intro d hmem
    have hd' : d ∈ first.toList ++ last.toList :=
      List.mem_append_right _ (Option.mem_toList.mpr hmem)
    obtain ⟨m, hm, highlights, hlogged, -⟩ := howed.eq_logged d.entry (Option.mem_map_of_mem _ hmem)
    exact ⟨m, hm, highlights, hlogged, hsends.line_eq (hd ▸ hd') hlogged⟩

/-- Two renders of one reporter, the second with another text, and a step of another one. -/
def textChanged : List (ReporterId × Step) :=
  [("a", .logValues [.int 1, .text "x"]), ("a", .update .null), ("a", .mount),
    ("b", .update .null), ("a", .logValues [.int 1, .text "y"])]

theorem update_sends_message_textChanged :
    (∀ step ∈ ownSteps textChanged "a", step.isAttach = false) ∧
      ∃ life message highlights,
        (((start memories).after
          (("a", .attach (.enabled .terminal) (.unnamed [])) :: textChanged)).perform "a"
            (.update .null)).2.deliveries = life ++ [message] ∧
        message.line =
          (Message.ofValues [.int 1, .text "y"]).typeset highlights (some "") .terminal ∧
        highlights.marks 0 = false ∧ highlights.marks 1 = true := by
  have hattach : ∀ step ∈ ownSteps textChanged "a", step.isAttach = false := by decide
  refine ⟨hattach, ?_⟩
  obtain ⟨earlier, round, hr, life, message, hd, -, -, howed, hline⟩ :=
    update_sends_message (start memories) "a" .terminal (.unnamed []) hattach .null
  -- The round that ends and the one before it.
  have hrounds : rounds (ownSteps textChanged "a") =
      [⟨[.int 1, .text "x"], some (.ofValues [.int 1, .text "x"])⟩] ++
        [⟨[.int 1, .text "y"], some (.ofValues [.int 1, .text "y"])⟩] := rfl
  obtain ⟨rfl, hround⟩ := List.append_inj' (hr.symm.trans hrounds) rfl
  cases List.singleton_inj.mp hround
  have hsome : (message.map Delivery.entry).isSome = true := by
    refine howed.isSome_iff.mpr ⟨rfl, fun b hb => ?_⟩
    cases hb
    exact .inr ⟨1, by decide⟩
  obtain ⟨e, he⟩ := Option.isSome_iff_exists.mp hsome
  obtain ⟨d, rfl, rfl⟩ := Option.map_eq_some_iff.mp he
  obtain ⟨m, hm, highlights, hentry, hmarks⟩ := howed.eq_logged d.entry rfl
  obtain ⟨m', hm', highlights', hentry', hshown⟩ := hline d rfl
  cases hm
  cases hm'
  cases hentry.symm.trans hentry'
  refine ⟨life.toList, d, highlights, hd, hshown, ?_, (hmarks 1).mpr ⟨_, rfl, by decide⟩⟩
  rw [Bool.eq_false_iff, ne_eq, hmarks 0]
  rintro ⟨b, hb, h⟩
  cases hb
  revert h
  decide

end Session
end RenderLog
