import RenderLog.Markup.Event

/-!
# The rule of the marks

The events of a segment are the only reading that the rule of the marks allows.
The rule is laid down here on the characters of the segment, without lexemes: an
open marker closes before a boundary, otherwise a closed one opens after a
boundary or a switch, otherwise the mark is literal text. The open markers go on
from segment to segment and the character before does not.

What a reading leaves of a segment is the segment without the marks that switch.
-/
namespace RenderLog.Markup

/-- A text starts with a mark of the marker; a doubled sign comes before a single one. -/
inductive Mark : Marker → List Char → List Char → Prop
  | bold {c : Char} {rest : List Char} : c = '*' ∨ c = '_' → Mark .bold [c, c] rest
  | italic {c : Char} {rest : List Char} : c = '*' ∨ c = '_' → rest.head? ≠ some c →
      Mark .italic [c] rest
  | code {rest : List Char} : Mark .code ['\x60'] rest

def IsSign (c : Char) : Prop := c = '*' ∨ c = '_' ∨ c = '\x60'

instance IsSign.decidable : DecidablePred IsSign :=
  fun _ => inferInstanceAs (Decidable (_ ∨ _ ∨ _))

/-- Reading a text, with some markers open and a character before it, gives the events and
leaves the markers open that are named last. -/
inductive Scans : OpenMarkers → Option Char → List Char → List Event → OpenMarkers → Prop
  | done {s : OpenMarkers} {prev : Option Char} : Scans s prev [] [] s
  | plain {s t : OpenMarkers} {prev : Option Char} {c : Char} {rest : List Char}
      {events : List Event} : ¬ IsSign c → Scans s (some c) rest events t →
      Scans s prev (c :: rest) (.literal c :: events) t
  | close {s t : OpenMarkers} {prev : Option Char} {m : Marker} {mark rest : List Char}
      {events : List Event} : Mark m mark rest → s.isOpen m = true →
      isBoundary rest.head? = true → Scans (s.set m false) none rest events t →
      Scans s prev (mark ++ rest) (.toggle m false :: events) t
  | opening {s t : OpenMarkers} {prev : Option Char} {m : Marker} {mark rest : List Char}
      {events : List Event} : Mark m mark rest → s.isOpen m = false →
      isBoundary prev = true → Scans (s.set m true) none rest events t →
      Scans s prev (mark ++ rest) (.toggle m true :: events) t
  | literal {s t : OpenMarkers} {prev : Option Char} {m : Marker} {mark rest : List Char}
      {events : List Event} : Mark m mark rest →
      (s.isOpen m = true → isBoundary rest.head? = false) →
      (s.isOpen m = false → isBoundary prev = false) → Scans s mark.getLast? rest events t →
      Scans s prev (mark ++ rest) (mark.map .literal ++ events) t

/-- A run of characters of one kind with none behind it is taken off a text in one way. -/
theorem run_append_inj {p : Char → Prop} [DecidablePred p] {run others back rest : List Char}
    (hrun : ∀ c ∈ run, p c) (hothers : ∀ c ∈ others, p c)
    (hback : ∀ c, back.head? = some c → ¬ p c) (hrest : ∀ c, rest.head? = some c → ¬ p c)
    (h : run ++ back = others ++ rest) : run = others ∧ back = rest := by
  have take {cs tail : List Char} (hcs : ∀ c ∈ cs, p c) (htail : ∀ c, tail.head? = some c → ¬ p c) :
      (cs ++ tail).takeWhile (fun c => decide (p c)) = cs := by
    rw [List.takeWhile_append_of_pos (by simpa using hcs)]
    cases tail with
    | nil => exact List.append_nil cs
    | cons c tail =>
        rw [List.takeWhile_cons_of_neg (by simpa using htail c rfl), List.append_nil]
  have hsame : run = others := by rw [← take hrun hback, h, take hothers hrest]
  rw [hsame] at h
  exact ⟨hsame, List.append_cancel_left h⟩

section Lexemes
variable {m : Marker} {mark rest cs : List Char} {c : Char}

theorem ofChar_of_not_isSign (h : ¬ IsSign c) : Lexeme.ofChar c = .plain c := by
  simp only [IsSign, not_or] at h
  simp [Lexeme.ofChar, h]

theorem lexemes_plain (h : ¬ IsSign c) (rest : List Char) :
    lexemes (c :: rest) = .plain c :: lexemes rest := by
  have hc := ofChar_of_not_isSign h
  simp only [IsSign, not_or] at h
  cases rest with
  | nil => simp [lexemes, hc]
  | cons d rest => simp [lexemes, hc, h]

theorem Mark.ne_nil (h : Mark m mark rest) : mark ≠ [] := by
  cases h <;> simp

theorem Mark.lexemes (h : Mark m mark rest) :
    ∃ c, mark = (Lexeme.mark m c).chars ∧
      Markup.lexemes (mark ++ rest) = .mark m c :: Markup.lexemes rest := by
  cases h with
  | @bold c _ hc => exact ⟨c, rfl, by simp [Markup.lexemes, hc]⟩
  | @italic c _ hc hr =>
      refine ⟨c, rfl, ?_⟩
      cases rest with
      | nil => simp [Markup.lexemes, Lexeme.ofChar, hc]
      | cons d rest =>
          have hd : c ≠ d := fun he => hr (by rw [he]; rfl)
          simp [Markup.lexemes, Lexeme.ofChar, hc, hd]
  | code =>
      refine ⟨'\x60', rfl, ?_⟩
      cases rest <;> simp [Markup.lexemes, Lexeme.ofChar]

theorem text_cases (cs : List Char) :
    cs = [] ∨ (∃ c rest, cs = c :: rest ∧ ¬ IsSign c) ∨
      ∃ m mark rest, cs = mark ++ rest ∧ mark ≠ [] ∧ Mark m mark rest := by
  cases cs with
  | nil => exact .inl rfl
  | cons c rest =>
      right
      by_cases hsign : IsSign c
      · right
        rcases or_assoc.mpr hsign with hc | rfl
        · by_cases hr : rest.head? = some c
          · obtain ⟨tail, rfl⟩ := List.head?_eq_some_iff.mp hr
            exact ⟨.bold, [c, c], tail, rfl, by simp, .bold hc⟩
          · exact ⟨.italic, [c], rest, rfl, by simp, .italic hc hr⟩
        · exact ⟨.code, ['\x60'], rest, rfl, by simp, .code⟩
      · exact .inl ⟨c, rest, rfl, hsign⟩

theorem head?_lexemes (cs : List Char) : (Markup.lexemes cs).head?.map Lexeme.sign = cs.head? := by
  have sign (c : Char) : (Lexeme.ofChar c).sign = c := by
    unfold Lexeme.ofChar
    split
    · rfl
    · split <;> rfl
  unfold Markup.lexemes
  split
  · rfl
  · exact congrArg some (sign _)
  · split
    · rfl
    · exact congrArg some (sign _)

end Lexemes

namespace OpenMarkers

theorem isOpen_none (m : Marker) : none.isOpen m = false := by
  cases m <;> rfl

theorem after_literals (s : OpenMarkers) (cs : List Char) (events : List Event) :
    s.after (cs.map .literal ++ events) = s.after events := by
  induction cs with
  | nil => rfl
  | cons c cs ih => exact ih

end OpenMarkers

variable {s t : OpenMarkers} {prev : Option Char} {cs : List Char} {events : List Event}

theorem Scans.eq_eventsAfter (h : Scans s prev cs events t) :
    events = eventsAfter s prev (lexemes cs) ∧ t = s.after events := by
  induction h with
  | done => exact ⟨rfl, rfl⟩
  | plain hc _ ih =>
      rw [lexemes_plain hc, eventsAfter, ← ih.1]
      exact ⟨rfl, ih.2⟩
  | close hm ho hb _ ih =>
      obtain ⟨c, -, hl⟩ := hm.lexemes
      rw [hl, eventsAfter, head?_lexemes, ho, hb, Bool.and_self, if_pos rfl, ← ih.1]
      exact ⟨rfl, ih.2⟩
  | opening hm ho hb _ ih =>
      obtain ⟨c, -, hl⟩ := hm.lexemes
      rw [hl, eventsAfter, ho, hb, if_neg (by simp), Bool.not_false, Bool.and_self, if_pos rfl,
        ← ih.1]
      exact ⟨rfl, ih.2⟩
  | @literal s t prev m mark rest events hm hclose hopen _ ih =>
      obtain ⟨c, rfl, hl⟩ := hm.lexemes
      have hlast : (Lexeme.mark m c).chars.getLast? = some c := by cases m <;> rfl
      rw [hlast] at ih
      rw [hl, eventsAfter, head?_lexemes, OpenMarkers.after_literals, ← ih.1]
      refine ⟨?_, ih.2⟩
      cases ho : s.isOpen m with
      | true => simp [hclose ho]
      | false => simp [hopen ho]

theorem exists_scans (s : OpenMarkers) (prev : Option Char) (cs : List Char) :
    ∃ events t, Scans s prev cs events t := by
  induction hn : cs.length using Nat.strongRecOn generalizing s prev cs with
  | ind n ih =>
      subst hn
      rcases text_cases cs with rfl | ⟨c, rest, rfl, hc⟩ | ⟨m, mark, rest, rfl, hne, hm⟩
      · exact ⟨_, _, .done⟩
      · obtain ⟨events, t, h⟩ := ih rest.length (by simp) s (some c) rest rfl
        exact ⟨_, _, .plain hc h⟩
      · have hlt : rest.length < (mark ++ rest).length := by
          have := List.length_pos_iff.mpr hne
          rw [List.length_append]
          omega
        have shorter := fun s prev => ih rest.length hlt s prev rest rfl
        cases ho : s.isOpen m with
        | true =>
            cases hb : isBoundary rest.head? with
            | true =>
                obtain ⟨events, t, h⟩ := shorter (s.set m false) none
                exact ⟨_, _, .close hm ho hb h⟩
            | false =>
                obtain ⟨events, t, h⟩ := shorter s mark.getLast?
                exact ⟨_, _, .literal hm (fun _ => hb) (fun hf => by simp [ho] at hf) h⟩
        | false =>
            cases hb : isBoundary prev with
            | true =>
                obtain ⟨events, t, h⟩ := shorter (s.set m true) none
                exact ⟨_, _, .opening hm ho hb h⟩
            | false =>
                obtain ⟨events, t, h⟩ := shorter s mark.getLast?
                exact ⟨_, _, .literal hm (fun hf => by simp [ho] at hf) (fun _ => hb) h⟩

/-- The events are the reading that the rule allows. -/
theorem scans_iff :
    Scans s prev cs events t ↔ events = eventsAfter s prev (lexemes cs) ∧ t = s.after events := by
  constructor
  · exact Scans.eq_eventsAfter
  · rintro ⟨rfl, rfl⟩
    obtain ⟨events, t, h⟩ := exists_scans s prev cs
    obtain ⟨he, ht⟩ := h.eq_eventsAfter
    rw [← he, ← ht]
    exact h

-- Of three signs the first two open bold and the third, behind a switch, opens italic.
example : Scans .none none "***x".toList
    [.toggle .bold true, .toggle .italic true, .literal 'x']
    ((OpenMarkers.none.set .bold true).set .italic true) :=
  scans_iff.mpr ⟨by decide, rfl⟩

theorem length_eventsOfSegments (s : OpenMarkers) (segments : List String) :
    (eventsOfSegments s segments).length = segments.length := by
  induction segments generalizing s with
  | nil => rfl
  | cons segment rest ih => exact congrArg (· + 1) (ih _)

/-- A step of reading a message: an event, or the end of the segment at a position. -/
inductive Cue where
  | event (e : Event)
  | segmentEnd (i : Nat)
  deriving DecidableEq, Repr

/-- Reading segments one after another, the first of them at position `i`. -/
inductive ScansSegments : OpenMarkers → Nat → List String → List Cue → Prop
  | done {s : OpenMarkers} {i : Nat} : ScansSegments s i [] []
  | segment {s t : OpenMarkers} {i : Nat} {segment : String} {rest : List String}
      {events : List Event} {cues : List Cue} : Scans s none segment.toList events t →
      ScansSegments t (i + 1) rest cues →
      ScansSegments s i (segment :: rest) (events.map .event ++ .segmentEnd i :: cues)

/-- The events of segments in one sequence, with the end of each. -/
def cuesFrom (i : Nat) : List (List Event) → List Cue
  | [] => []
  | events :: rest => events.map .event ++ .segmentEnd i :: cuesFrom (i + 1) rest

theorem lt_of_segmentEnd_mem {i j : Nat} {segments : List (List Event)}
    (h : .segmentEnd j ∈ cuesFrom i segments) : j < i + segments.length := by
  induction segments generalizing i with
  | nil => exact (List.not_mem_nil h).elim
  | cons events rest ih =>
      rw [List.length_cons]
      rcases List.mem_append.mp h with hevents | hrest
      · obtain ⟨e, -, he⟩ := List.mem_map.mp hevents
        cases he
      · rcases List.mem_cons.mp hrest with heq | hlater
        · cases heq
          omega
        · have hlt := ih hlater
          omega

theorem flatMap_cuesFrom {β : Type} (f : Cue → List β) (i : Nat) (segments : List (List Event)) :
    (cuesFrom i segments).flatMap f =
      (segments.zipIdx i).flatMap fun e => e.1.flatMap (fun event => f (.event event)) ++
        f (.segmentEnd e.2) := by
  induction segments generalizing i with
  | nil => rfl
  | cons events rest ih =>
      rw [cuesFrom, List.flatMap_append, List.flatMap_cons, List.flatMap_map, ih, List.zipIdx_cons,
        List.flatMap_cons, List.append_assoc]

/-- What is taken of the value behind each segment comes from the values that have a segment. -/
theorem flatMap_zipIdx_elim {α β γ : Type} (values : List α) (f : α → List γ) (i : Nat)
    (segments : List β) :
    (segments.zipIdx i).flatMap (fun e => values[e.2]?.elim [] f) =
      ((values.drop i).take segments.length).flatMap f := by
  induction segments generalizing i with
  | nil => rfl
  | cons segment rest ih =>
      rw [List.zipIdx_cons, List.flatMap_cons, ih, List.length_cons]
      cases hv : values[i]? with
      | none =>
          have hle : values.length ≤ i := List.getElem?_eq_none_iff.mp hv
          rw [List.drop_eq_nil_of_le hle, List.drop_eq_nil_of_le (by omega), List.take_nil,
            List.take_nil]
          rfl
      | some v =>
          obtain ⟨hlt, rfl⟩ := List.getElem?_eq_some_iff.mp hv
          rw [List.drop_eq_getElem_cons hlt, List.take_succ_cons, List.flatMap_cons]
          rfl

/-- The cues are the reading of the segments that the rule allows. -/
theorem scansSegments_iff {i : Nat} {segments : List String} {cues : List Cue} :
    ScansSegments s i segments cues ↔ cues = cuesFrom i (eventsOfSegments s segments) := by
  constructor
  · intro h
    induction h with
    | done => rfl
    | segment hs _ ih =>
        obtain ⟨he, ht⟩ := scans_iff.mp hs
        rw [eventsOfSegments, cuesFrom, events, ← he, ← ht, ih]
  · rintro rfl
    induction segments generalizing s i with
    | nil => exact .done
    | cons segment rest ih => exact .segment (scans_iff.mpr ⟨rfl, rfl⟩) ih

end RenderLog.Markup
