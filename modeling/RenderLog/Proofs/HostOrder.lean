import RenderLog.Proofs.History

/-!
# The order of steps that hosts keep

A reporter is attached, updated once or more, mounted, updated any number of
times and unmounted, and nothing follows. Values and messages may be logged at
any time in between. Reporters are independent of each other: the steps of
several of them interleave freely.

In this order the lines of a reporter show its phase: it is mounted at most
once, and unmounted if and only if it was mounted with a line.
-/
namespace RenderLog

inductive Phase where
  | absent | attached | rendered | mounted | gone
  deriving DecidableEq, Repr

/-- The phase after a step, none when the step is out of order. -/
def Phase.next : Phase → Step → Option Phase
  | .absent, .attach _ _ => some .attached
  | .absent, _ => none
  | .gone, _ => none
  | _, .attach _ _ => none
  | phase, .logValues _ => some phase
  | phase, .logMessage _ => some phase
  | .attached, .update _ => some .rendered
  | .rendered, .update _ => some .rendered
  | .rendered, .mount => some .mounted
  | .mounted, .update _ => some .mounted
  | .mounted, .unmount => some .gone
  | _, _ => none

theorem Phase.next_mount {ph after : Phase} (h : ph.next .mount = some after) :
    ph = .rendered ∧ after = .mounted := by
  cases ph <;> cases h
  exact ⟨rfl, rfl⟩

/-- The phase of a reporter after a run, none when its steps are out of order. -/
def phase (steps : List (ReporterId × Step)) (id : ReporterId) : Option Phase :=
  (steps.filter fun e => e.1 = id).foldl (fun ph e => ph.bind fun ph => ph.next e.2)
    (some .absent)

/-- Every reporter is driven in order. -/
def HostOrdered (steps : List (ReporterId × Step)) : Prop := ∀ id, phase steps id ≠ none

section Phase
variable {past later rest : List (ReporterId × Step)} {id i : ReporterId} {step : Step} {ph : Phase}

theorem phase_concat_self (past : List (ReporterId × Step)) (id : ReporterId) (step : Step) :
    phase (past ++ [(id, step)]) id = (phase past id).bind fun ph => ph.next step := by
  simp [phase, List.filter_append]

theorem phase_concat_of_ne (past : List (ReporterId × Step)) (h : i ≠ id) (step : Step) :
    phase (past ++ [(i, step)]) id = phase past id := by
  simp [phase, List.filter_append, h]

/-- A step in order comes after steps in order. -/
theorem exists_phase_of_concat (h : phase (past ++ [(id, step)]) id = some ph) :
    ∃ before, phase past id = some before ∧ before.next step = some ph := by
  rw [phase_concat_self] at h
  exact Option.bind_eq_some_iff.mp h

theorem exists_phases_of_concat (h : phase (past ++ [(id, step)]) id ≠ none) :
    ∃ before after, phase past id = some before ∧ before.next step = some after := by
  obtain ⟨after, ha⟩ := Option.ne_none_iff_exists'.mp h
  obtain ⟨before, hb, hn⟩ := exists_phase_of_concat ha
  exact ⟨before, after, hb, hn⟩

theorem next_ne_absent (ph : Phase) (step : Step) : ph.next step ≠ some .absent := by
  intro h
  cases ph <;> cases step <;> cases h

theorem phase_ne_absent (h : (id, step) ∈ past) : phase past id ≠ some .absent := by
  induction past using List.reverseRecOn with
  | nil => cases h
  | append_singleton past e ih =>
      obtain ⟨i, next⟩ := e
      by_cases hi : i = id
      · subst hi
        intro hp
        obtain ⟨before, -, hn⟩ := exists_phase_of_concat hp
        exact next_ne_absent before next hn
      · rw [phase_concat_of_ne _ hi]
        rcases List.mem_append.mp h with h | h
        · exact ih h
        · cases List.mem_singleton.mp h
          exact (hi rfl).elim

theorem exists_attach (h : phase past id = some ph) (hne : ph ≠ .absent) :
    ∃ logger a, (id, .attach logger a) ∈ past := by
  induction past using List.reverseRecOn generalizing ph with
  | nil =>
      cases h
      exact (hne rfl).elim
  | append_singleton past e ih =>
      obtain ⟨i, step⟩ := e
      by_cases hi : i = id
      · subst hi
        obtain ⟨before, hb, hn⟩ := exists_phase_of_concat h
        by_cases ha : before = .absent
        · subst ha
          cases step with
          | attach logger a =>
              exact ⟨logger, a, List.mem_append_right past (List.mem_singleton.mpr rfl)⟩
          | _ => cases hn
        · obtain ⟨logger, a, hm⟩ := ih hb ha
          exact ⟨logger, a, List.mem_append_left _ hm⟩
      · rw [phase_concat_of_ne _ hi] at h
        obtain ⟨logger, a, hm⟩ := ih h hne
        exact ⟨logger, a, List.mem_append_left _ hm⟩

theorem phase_ne_none_of_append (h : phase (past ++ later) id ≠ none) : phase past id ≠ none := by
  induction later using List.reverseRecOn with
  | nil => rwa [List.append_nil] at h
  | append_singleton later e ih =>
      obtain ⟨i, step⟩ := e
      rw [← List.append_assoc] at h
      refine ih ?_
      by_cases hi : i = id
      · subst hi
        intro hn
        rw [phase_concat_self, hn] at h
        exact h rfl
      · rwa [phase_concat_of_ne _ hi] at h

theorem HostOrdered.of_append (h : HostOrdered (past ++ later)) : HostOrdered past :=
  fun id => phase_ne_none_of_append (h id)

/-- Once mounted, a reporter stays mounted until it is gone. -/
theorem phase_of_mount (h : phase (past ++ (id, .mount) :: later) id = some ph) :
    ph = .mounted ∨ ph = .gone := by
  induction later using List.reverseRecOn generalizing ph with
  | nil =>
      obtain ⟨before, -, hn⟩ := exists_phase_of_concat h
      cases before <;> cases hn
      exact .inl rfl
  | append_singleton later e ih =>
      obtain ⟨i, step⟩ := e
      rw [← List.cons_append, ← List.append_assoc] at h
      by_cases hi : i = id
      · subst hi
        obtain ⟨before, hb, hn⟩ := exists_phase_of_concat h
        rcases ih hb with rfl | rfl <;> cases step <;> cases hn
        · exact .inl rfl
        · exact .inl rfl
        · exact .inl rfl
        · exact .inr rfl
      · rw [phase_concat_of_ne _ hi] at h
        exact ih h

/-- A reporter that is mounted or gone was mounted once, after an update. -/
theorem exists_mount (h : phase past id = some ph) (hm : ph = .mounted ∨ ph = .gone) :
    ∃ before mid, past = before ++ (id, .mount) :: mid ∧ phase before id = some .rendered := by
  induction past using List.reverseRecOn generalizing ph with
  | nil =>
      cases h
      rcases hm with hm | hm <;> cases hm
  | append_singleton past e ih =>
      obtain ⟨i, step⟩ := e
      have extend : (∃ before mid, past = before ++ (id, .mount) :: mid ∧
          phase before id = some .rendered) →
          ∃ before mid, past ++ [(i, step)] = before ++ (id, .mount) :: mid ∧
            phase before id = some .rendered := by
        rintro ⟨before, mid, rfl, hb⟩
        exact ⟨before, mid ++ [(i, step)], by simp, hb⟩
      by_cases hi : i = id
      · subst hi
        obtain ⟨before, hb, hn⟩ := exists_phase_of_concat h
        by_cases hmount : step = .mount
        · subst hmount
          obtain ⟨rfl, -⟩ := Phase.next_mount hn
          exact ⟨past, [], rfl, hb⟩
        · refine extend (ih hb ?_)
          rcases hm with rfl | rfl <;> cases before <;> cases step <;> cases hn
          all_goals first
            | exact .inl rfl
            | exact (hmount rfl).elim
      · rw [phase_concat_of_ne _ hi] at h
        exact extend (ih h hm)

theorem phase_eq_mounted
    (h : phase (past ++ (id, .mount) :: (later ++ (id, step) :: rest)) id ≠ none) :
    phase (past ++ (id, .mount) :: later) id = some .mounted ∧
      Phase.mounted.next step ≠ none := by
  have he : past ++ (id, .mount) :: (later ++ (id, step) :: rest) =
      (past ++ (id, .mount) :: later ++ [(id, step)]) ++ rest := by simp
  rw [he] at h
  obtain ⟨before, after, hb, hn⟩ := exists_phases_of_concat (phase_ne_none_of_append h)
  rcases phase_of_mount hb with rfl | rfl
  · exact ⟨hb, hn.trans_ne (Option.some_ne_none after)⟩
  · cases step <;> cases hn

end Phase

namespace Phase

def beforeMount : Phase → Bool
  | .absent | .attached | .rendered => true
  | .mounted | .gone => false

/-- What the lines of a reporter say when it has come to a phase. -/
structure Shows (ph : Phase) (entries : List Entry) : Prop where
  mounted : ph.beforeMount = true → entries.any Entry.isMounted = false
  unmounted : ph ≠ .gone → entries.any Entry.isUnmounted = false
  gone : ph = .gone → entries.any Entry.isUnmounted = entries.any Entry.isMounted

variable {ph after : Phase} {step : Step} {entries : List Entry}

theorem shows_nil (ph : Phase) : ph.Shows [] := ⟨fun _ => rfl, fun _ => rfl, fun _ => rfl⟩

/-- A step in order that is neither a mount nor an unmount stays on its side of both. -/
theorem next_quiet (h : ph.next step = some after) (hm : step ≠ .mount) (hu : step ≠ .unmount) :
    after.beforeMount = ph.beforeMount ∧ ph ≠ .gone ∧ after ≠ .gone := by
  cases ph <;> cases step <;> cases h
  all_goals first
    | exact ⟨rfl, by decide, by decide⟩
    | exact (hm rfl).elim
    | exact (hu rfl).elim

theorem next_unmount (h : ph.next .unmount = some after) : ph = .mounted ∧ after = .gone := by
  cases ph <;> cases h
  exact ⟨rfl, rfl⟩

theorem isSome_standingNumber (h : entries.any Entry.isUnmounted = false) :
    (standingNumber entries).isSome = entries.any Entry.isMounted := by
  have general : ∀ before : Option Nat,
      (entries.foldl Entry.standing before).isSome =
        (before.isSome || entries.any Entry.isMounted) := by
    induction entries with
    | nil => simp
    | cons e rest ih =>
        intro before
        rw [List.any_cons, Bool.or_eq_false_iff] at h
        rw [List.foldl_cons, ih h.2, List.any_cons]
        cases e with
        | mounted label n => cases before <;> rfl
        | unmounted label n => cases h.1
        | _ => rfl
  exact general none

/-- The lines after a step in order show the phase after it. -/
theorem Shows.act (h : ph.Shows entries) {p : Reporter} (hp : p.announced = standingNumber entries)
    (r : Registry) (hn : ph.next step = some after) :
    after.Shows (entries ++ (p.act r step).entries) := by
  have hm := p.act_any_isMounted r step
  have hu := p.act_any_isUnmounted r step
  by_cases hmount : step = .mount
  · subst hmount
    obtain ⟨rfl, rfl⟩ := next_mount hn
    refine ⟨fun hb => (Bool.false_ne_true hb).elim, fun _ => ?_, fun hg => by cases hg⟩
    rw [List.any_append, hu, h.unmounted (by decide)]
    rfl
  · by_cases hunmount : step = .unmount
    · subst hunmount
      obtain ⟨rfl, rfl⟩ := next_unmount hn
      have hk := h.unmounted (by decide)
      refine ⟨fun hb => (Bool.false_ne_true hb).elim, fun hg => (hg rfl).elim, fun _ => ?_⟩
      simp only [List.any_append, hm, hu, hk, hp, isSome_standingNumber hk, Bool.false_or,
        Bool.or_false]
    · obtain ⟨hbefore, hph, hafter⟩ := next_quiet hn hmount hunmount
      have hm' : (p.act r step).entries.any Entry.isMounted = false := by
        rw [hm]
        cases step <;> first | rfl | exact (hmount rfl).elim
      have hu' : (p.act r step).entries.any Entry.isUnmounted = false := by
        rw [hu]
        cases step <;> first | rfl | exact (hunmount rfl).elim
      refine ⟨fun hb => ?_, fun _ => ?_, fun hg => (hafter hg).elim⟩
      · rw [List.any_append, hm', h.mounted (hbefore ▸ hb)]
        rfl
      · rw [List.any_append, hu', h.unmounted hph]
        rfl

end Phase

namespace Session
variable {σ : Type} [Sink σ] {s : Session σ}

theorem told_shows (hs : ∀ id, s.reporters.get id = none) (past : List (ReporterId × Step))
    {id : ReporterId} {ph : Phase} (h : phase past id = some ph) : ph.Shows (s.told past id) := by
  induction past using List.reverseRecOn generalizing ph with
  | nil => exact ph.shows_nil
  | append_singleton past e ih =>
      obtain ⟨i, step⟩ := e
      by_cases hi : i = id
      · subst hi
        obtain ⟨before, hb, hn⟩ := exists_phase_of_concat h
        rcases perform_cases (s.after past) i step with
          ⟨logger, a, rfl, -, -⟩ | ⟨hidle, -, hent⟩ | ⟨channel, p, hw, hstep, -, hent⟩
        · rw [told_concat_attach]
          exact ph.shows_nil
        · rw [told_concat, if_pos rfl, written, hent, told_of_idle past hidle]
          cases step <;> exact ph.shows_nil
        · rw [told_concat_self s past i hstep, written, hent]
          exact (ih hb).act (announced_eq_standingNumber hs past hw) _ hn
      · rw [told_concat_of_ne s past hi]
        rw [phase_concat_of_ne _ hi] at h
        exact ih h

variable {mid : List (ReporterId × Step)} {id : ReporterId}

/-- The one mount of a reporter decides whether a mounted line stands among its lines. -/
theorem told_any_isMounted (hs : ∀ id, s.reporters.get id = none)
    {past : List (ReporterId × Step)} (h : phase (past ++ (id, .mount) :: mid) id ≠ none) :
    (s.told (past ++ (id, .mount) :: mid) id).any Entry.isMounted =
      (s.written past id .mount).any Entry.isMounted := by
  induction mid using List.reverseRecOn with
  | nil =>
      obtain ⟨before, after, hb, hn⟩ := exists_phases_of_concat h
      obtain ⟨rfl, -⟩ := Phase.next_mount hn
      rw [told_concat_self s past id (by simp), List.any_append,
        (told_shows hs past hb).mounted rfl, Bool.false_or]
  | append_singleton mid e ih =>
      obtain ⟨i, step⟩ := e
      rw [← List.cons_append, ← List.append_assoc] at h ⊢
      have hprev := ih (phase_ne_none_of_append h)
      by_cases hi : i = id
      · subst hi
        obtain ⟨before, after, hb, hn⟩ := exists_phases_of_concat h
        have hmounted : before = .mounted := by
          rcases phase_of_mount hb with rfl | rfl
          · rfl
          · cases step <;> cases hn
        subst hmounted
        rcases perform_cases (s.after (past ++ (i, .mount) :: mid)) i step with
          ⟨logger, a, rfl, -, -⟩ | ⟨-, -, hent⟩ | ⟨channel, p, -, hstep, -, hent⟩
        · cases hn
        · have htold : s.told (past ++ (i, .mount) :: mid ++ [(i, step)]) i =
              s.told (past ++ (i, .mount) :: mid) i := by
            rw [told_concat_self s _ i (by rintro logger a rfl; cases hn), written, hent,
              List.append_nil]
          rw [htold, hprev]
        · have hquiet : (s.written (past ++ (i, .mount) :: mid) i step).any Entry.isMounted =
              false := by
            rw [written, hent, Reporter.act_any_isMounted]
            cases step <;> first | rfl | cases hn
          rw [told_concat_self s _ i hstep, List.any_append, hprev, hquiet, Bool.or_false]
      · rw [told_concat_of_ne s _ hi, hprev]

end Session
end RenderLog
