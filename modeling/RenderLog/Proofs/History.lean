import RenderLog.Proofs.Runs

/-!
# Histories of lines

Three kinds of entries tell the life of an activation. Which of them a step
writes depends on where the reporter stands and on whether it has announced a
mount. The number that a reporter keeps is the one of its last mounted line, as
long as no unmounted line has followed.
-/
namespace RenderLog

namespace Entry

def isRendered : Entry → Bool
  | .rendered _ _ _ => true
  | _ => false

def isMounted : Entry → Bool
  | .mounted _ _ => true
  | _ => false

def isUnmounted : Entry → Bool
  | .unmounted _ _ => true
  | _ => false

/-- The entry is one of the life of an activation rather than a message of its own. -/
def tellsLife (e : Entry) : Bool := e.isRendered || e.isMounted || e.isUnmounted

theorem tellsLife_of_isRendered {e : Entry} (h : e.isRendered = true) : e.tellsLife = true := by
  rw [tellsLife, h]
  rfl

theorem tellsLife_of_isMounted {e : Entry} (h : e.isMounted = true) : e.tellsLife = true := by
  rw [tellsLife, h, Bool.or_true]
  rfl

theorem tellsLife_of_isUnmounted {e : Entry} (h : e.isUnmounted = true) : e.tellsLife = true := by
  rw [tellsLife, h, Bool.or_true]

/-- The number that stands announced after an entry. -/
def standing (before : Option Nat) : Entry → Option Nat
  | .mounted _ n => some n
  | .unmounted _ _ => none
  | _ => before

end Entry

/-- The number of a mounted line that no unmounted line has followed. -/
def standingNumber (entries : List Entry) : Option Nat := entries.foldl Entry.standing none

theorem standingNumber_append (entries more : List Entry) :
    standingNumber (entries ++ more) = more.foldl Entry.standing (standingNumber entries) :=
  List.foldl_append

theorem foldl_standing_filter (before : Option Nat) (entries : List Entry) :
    (entries.filter Entry.tellsLife).foldl Entry.standing before =
      entries.foldl Entry.standing before := by
  induction entries generalizing before with
  | nil => rfl
  | cons e rest ih => cases e <;> exact ih _

theorem any_filter_tellsLife {f : Entry → Bool} (hf : ∀ e, f e = true → e.tellsLife = true)
    (entries : List Entry) : (entries.filter Entry.tellsLife).any f = entries.any f := by
  rw [Bool.eq_iff_iff, List.any_eq_true, List.any_eq_true]
  constructor
  · rintro ⟨e, he, hfe⟩
    exact ⟨e, (List.mem_filter.mp he).1, hfe⟩
  · rintro ⟨e, he, hfe⟩
    exact ⟨e, List.mem_filter.mpr ⟨he, hf e hfe⟩, hfe⟩

namespace Reporter

theorem changedMessage_filter (p : Reporter) : p.changedMessage.filter Entry.tellsLife = [] := by
  unfold changedMessage
  split <;> rfl

/-- The line that a step adds to the life of the activation. -/
def lifeLine (p : Reporter) (r : Registry) : Step → Option Entry
  | .update props =>
    if p.leads r then
      some (.rendered p.label ((r.roster p.owner).activations.resolve p.id).1 props)
    else none
  | .mount =>
    if p.leads r then some (.mounted p.label ((r.roster p.owner).activations.resolve p.id).1)
    else none
  | .unmount => p.announced.map (.unmounted p.label)
  | _ => none

theorem act_life (p : Reporter) (r : Registry) (step : Step) :
    (p.act r step).entries.filter Entry.tellsLife = (p.lifeLine r step).toList := by
  cases step with
  | update props =>
      cases h : p.leads r with
      | true =>
          rw [act, update_of_leads h, lifeLine, if_pos h, Option.toList_some]
          exact congrArg (_ :: ·) p.changedMessage_filter
      | false =>
          rw [act, update_of_not_leads h, lifeLine, h]
          exact p.changedMessage_filter
  | mount =>
      cases h : p.leads r with
      | true =>
          rw [act, mount_of_leads h, lifeLine, if_pos h]
          rfl
      | false =>
          rw [act, mount_of_not_leads h, lifeLine, h]
          rfl
  | unmount =>
      cases h : p.announced with
      | some n =>
          rw [act, unmount_of_announced h, lifeLine, h]
          rfl
      | none =>
          rw [act, unmount_of_not_announced h, lifeLine, h]
          rfl
  | _ => rfl

/-- The lines of a life have the label of the reporter. -/
theorem life_cases {p : Reporter} {r : Registry} {step : Step} {e : Entry}
    (he : e ∈ (p.act r step).entries) (hlife : e.tellsLife = true) :
    (∃ n props, e = .rendered p.label n props) ∨ (∃ n, e = .mounted p.label n) ∨
      ∃ n, e = .unmounted p.label n := by
  have hline : p.lifeLine r step = some e := by
    rw [← Option.mem_toList, ← act_life]
    exact List.mem_filter.mpr ⟨he, hlife⟩
  cases step with
  | update props =>
      rw [lifeLine, Option.ite_none_right_eq_some] at hline
      exact .inl ⟨_, props, (Option.some.inj hline.2).symm⟩
  | mount =>
      rw [lifeLine, Option.ite_none_right_eq_some] at hline
      exact .inr (.inl ⟨_, (Option.some.inj hline.2).symm⟩)
  | unmount =>
      obtain ⟨n, -, rfl⟩ := Option.map_eq_some_iff.mp hline
      exact .inr (.inr ⟨n, rfl⟩)
  | _ => cases hline

theorem act_any {f : Entry → Bool} (hf : ∀ e, f e = true → e.tellsLife = true) (p : Reporter)
    (r : Registry) (step : Step) :
    (p.act r step).entries.any f = (p.lifeLine r step).any f := by
  rw [← any_filter_tellsLife hf, act_life]
  cases p.lifeLine r step with
  | none => rfl
  | some e => simp

theorem lifeLine_any (p : Reporter) (r : Registry) (step : Step) (f : Entry → Bool) :
    (p.lifeLine r step).any f =
      match step with
      | .update props =>
        p.leads r && f (.rendered p.label ((r.roster p.owner).activations.resolve p.id).1 props)
      | .mount => p.leads r && f (.mounted p.label ((r.roster p.owner).activations.resolve p.id).1)
      | .unmount => p.announced.any fun n => f (.unmounted p.label n)
      | _ => false := by
  cases step with
  | update props => rw [lifeLine]; cases p.leads r <;> rfl
  | mount => rw [lifeLine]; cases p.leads r <;> rfl
  | unmount => rw [lifeLine]; cases p.announced <;> rfl
  | _ => rfl

theorem act_any_isRendered (p : Reporter) (r : Registry) (step : Step) :
    (p.act r step).entries.any Entry.isRendered =
      match step with
      | .update _ => p.leads r
      | _ => false := by
  rw [act_any fun _ => Entry.tellsLife_of_isRendered, lifeLine_any]
  cases step <;> simp [Entry.isRendered]

theorem act_any_isMounted (p : Reporter) (r : Registry) (step : Step) :
    (p.act r step).entries.any Entry.isMounted =
      match step with
      | .mount => p.leads r
      | _ => false := by
  rw [act_any fun _ => Entry.tellsLife_of_isMounted, lifeLine_any]
  cases step <;> simp [Entry.isMounted]

theorem act_any_isUnmounted (p : Reporter) (r : Registry) (step : Step) :
    (p.act r step).entries.any Entry.isUnmounted =
      match step with
      | .unmount => p.announced.isSome
      | _ => false := by
  rw [act_any fun _ => Entry.tellsLife_of_isUnmounted, lifeLine_any]
  cases step <;> simp [Entry.isUnmounted, Option.any_true]

/-- Away from the primary site, without an announced number, no step tells anything. -/
theorem act_any_tellsLife (p : Reporter) (r : Registry) (step : Step) :
    (p.act r step).entries.any Entry.tellsLife =
      match step with
      | .update _ | .mount => p.leads r
      | .unmount => p.announced.isSome
      | _ => false := by
  rw [act_any fun _ h => h, lifeLine_any]
  cases step <;> simp [Entry.tellsLife, Entry.isRendered, Entry.isMounted, Entry.isUnmounted]

/-- The lines of a step say what becomes of the number that the reporter keeps. -/
theorem act_standing (p : Reporter) (r : Registry) (step : Step) :
    (p.act r step).entries.foldl Entry.standing p.announced =
      (p.act r step).reporter.announced := by
  rw [← foldl_standing_filter, act_life, act_announced]
  cases step with
  | update props =>
      rw [lifeLine]
      split <;> rfl
  | mount =>
      rw [lifeLine]
      split <;> rfl
  | unmount =>
      rw [lifeLine]
      cases p.announced <;> rfl
  | _ => rfl

end Reporter

namespace Session
variable {σ : Type} [Sink σ] {s : Session σ}

section Written
variable (s : Session σ) (past : List (ReporterId × Step)) (id : ReporterId)

theorem written_update_isRendered (props : Value) :
    (s.written past id (.update props)).any Entry.isRendered = true ↔ (s.after past).Leads id := by
  rcases perform_cases (s.after past) id (.update props) with
    ⟨logger, a, he, -, -⟩ | ⟨hidle, -, hent⟩ | ⟨channel, p, hw, -, -, hent⟩
  · cases he
  · rw [written, hent]
    exact ⟨fun h => (Bool.false_ne_true h).elim, fun ⟨c, p, hw, _⟩ => (hidle c p hw).elim⟩
  · rw [written, hent, Reporter.act_any_isRendered, hw.leads_iff]

theorem written_mount_isMounted :
    (s.written past id .mount).any Entry.isMounted = true ↔ (s.after past).Leads id := by
  rcases perform_cases (s.after past) id .mount with
    ⟨logger, a, he, -, -⟩ | ⟨hidle, -, hent⟩ | ⟨channel, p, hw, -, -, hent⟩
  · cases he
  · rw [written, hent]
    exact ⟨fun h => (Bool.false_ne_true h).elim, fun ⟨c, p, hw, _⟩ => (hidle c p hw).elim⟩
  · rw [written, hent, Reporter.act_any_isMounted, hw.leads_iff]

end Written

theorem told_of_idle (past : List (ReporterId × Step)) {id : ReporterId}
    (h : ∀ channel p, ¬ (s.after past).Works id channel p) :
    s.told past id = [] := by
  induction past using List.reverseRecOn with
  | nil => rfl
  | append_singleton past e ih =>
      obtain ⟨i, step⟩ := e
      rw [after_concat] at h
      by_cases hi : i = id
      · subst hi
        rcases perform_cases (s.after past) i step with
          ⟨logger, a, rfl, -, -⟩ | ⟨hidle, -, hent⟩ | ⟨channel, p, -, -, hact, -⟩
        · exact told_concat_attach s past i logger a
        · rw [told_concat, if_pos rfl, written, hent, ih hidle]
          cases step <;> rfl
        · exact (h _ _ hact.works_self).elim
      · rw [told_concat_of_ne s past hi]
        refine ih fun channel p hw => h channel p ?_
        rwa [Works, perform_get_of_ne _ (Ne.symm hi)]

/-- The number that a reporter keeps is the one that its lines left standing. -/
theorem announced_eq_standingNumber (hs : ∀ id, s.reporters.get id = none)
    (past : List (ReporterId × Step)) {id : ReporterId} {channel : Channel} {p : Reporter}
    (hw : (s.after past).Works id channel p) : p.announced = standingNumber (s.told past id) := by
  refine works_induction hs
    (motive := fun past _ p => p.announced = standingNumber (s.told past id)) ?_ ?_ ?_ past hw
  · intro past channel a
    rw [told_concat_attach]
    rfl
  · intro past channel p step hw hstep ih
    rw [told_concat_self s past id hstep, standingNumber_append, ← ih, written,
      (perform_acted hw hstep).2, Reporter.act_standing]
  · intro past channel p i step hi ih
    rw [told_concat_of_ne s past hi]
    exact ih

end Session
end RenderLog
