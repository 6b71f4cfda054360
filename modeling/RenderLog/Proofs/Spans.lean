import RenderLog.Proofs.Inert

/-!
# Marked spans

Text is marked by putting a mark in front of it and another one behind it. A
document is plain text with such spans in it, any number of them, where plain text
keeps the spans apart and has a boundary beside each. Its marks are read as they
were meant: each span opens and closes its own marker, nothing else switches, and
every other character is literal.

Either sign may be taken for bold or italic text, also another one at the end of a
span than at its start.
-/
namespace RenderLog.Markup

/-- The marks that switch the marker. -/
def Marker.spellings : Marker → List (List Char)
  | .bold => [['*', '*'], ['_', '_']]
  | .italic => [['*'], ['_']]
  | .code => [['\x60']]

def Plain (cs : List Char) : Prop := ∀ c ∈ cs, ¬ IsSign c

instance Plain.decidable (cs : List Char) : Decidable (Plain cs) :=
  List.decidableBAll (fun c => ¬ IsSign c) cs

structure Span where
  marker : Marker
  opening : List Char
  body : List Char
  closing : List Char
  opening_mem : opening ∈ marker.spellings
  closing_mem : closing ∈ marker.spellings
  body_ne_nil : body ≠ []
  plain_body : Plain body

namespace Span

def text (p : Span) : List Char := p.opening ++ p.body ++ p.closing

def events (p : Span) : List Event :=
  .toggle p.marker true :: p.body.map .literal ++ [.toggle p.marker false]

end Span

/-- A plain text and spans behind it, each with the plain text that follows it. Where a span
starts or ends, the text beside it has a boundary or is empty, and only the first text and the
last one may be empty. -/
structure Document where
  first : List Char
  rest : List (Span × List Char)
  plain_first : Plain first
  plain_rest : ∀ e ∈ rest, Plain e.2
  first_ends : isBoundary first.getLast? = true
  rest_starts : ∀ e ∈ rest, isBoundary e.2.head? = true
  inner_ends : ∀ e ∈ rest.dropLast, e.2 ≠ [] ∧ isBoundary e.2.getLast? = true

namespace Document

def restText (rest : List (Span × List Char)) : List Char :=
  rest.flatMap fun e => e.1.text ++ e.2

def restEvents (rest : List (Span × List Char)) : List Event :=
  rest.flatMap fun e => e.1.events ++ e.2.map .literal

def text (d : Document) : List Char := d.first ++ restText d.rest

def events (d : Document) : List Event := d.first.map .literal ++ restEvents d.rest

end Document

section Scan
variable {s t : OpenMarkers} {prev : Option Char} {m : Marker} {mark cs rest : List Char}
  {events : List Event}

/-- In front of other text than signs a spelling is a mark of its own. -/
theorem Mark.of_mem_spellings (hmark : mark ∈ m.spellings)
    (hrest : ∀ c, rest.head? = some c → ¬ IsSign c) : Mark m mark rest := by
  have italic {c : Char} (h : c = '*' ∨ c = '_') : Mark .italic [c] rest := by
    apply Mark.italic h
    intro hc
    exact hrest c hc (or_assoc.mp (.inl h))
  simp only [Marker.spellings] at hmark
  cases m with
  | bold =>
      rcases List.mem_cons.mp hmark with rfl | h
      · exact .bold (.inl rfl)
      · rw [List.mem_singleton.mp h]
        exact .bold (.inr rfl)
  | italic =>
      rcases List.mem_cons.mp hmark with rfl | h
      · exact italic (.inl rfl)
      · rw [List.mem_singleton.mp h]
        exact italic (.inr rfl)
  | code =>
      rw [List.mem_singleton.mp hmark]
      exact .code

theorem Plain.not_isSign_of_head? (hcs : Plain cs) (hne : cs ≠ []) (rest : List Char) (c : Char)
    (h : (cs ++ rest).head? = some c) : ¬ IsSign c := by
  obtain ⟨d, cs, rfl⟩ := List.exists_cons_of_ne_nil hne
  rw [List.cons_append, List.head?_cons] at h
  rw [← Option.some.inj h]
  exact hcs d List.mem_cons_self

theorem Scans.plain_append (hcs : Plain cs) (h : Scans s (cs.getLast?.or prev) rest events t) :
    Scans s prev (cs ++ rest) (cs.map .literal ++ events) t := by
  obtain ⟨hevents, ht⟩ := scans_iff.mp h
  apply scans_iff.mpr
  rw [lexemes_append_of_forall hcs, eventsAfter_plain, ← hevents, OpenMarkers.after_literals]
  exact ⟨rfl, ht⟩

theorem OpenMarkers.set_set_of_closed (h : s.isOpen m = false) :
    (s.set m true).set m false = s := by
  obtain ⟨bold, italic, code⟩ := s
  cases m <;> simp_all [set, isOpen]

/-- Between boundaries a span opens its marker and closes it again. -/
theorem Span.scans (p : Span) (hclosed : s.isOpen p.marker = false)
    (hprev : isBoundary prev = true) (hnext : isBoundary rest.head? = true)
    (hrest : ∀ c, rest.head? = some c → ¬ IsSign c) (h : Scans s none rest events t) :
    Scans s prev (p.text ++ rest) (p.events ++ events) t := by
  have hclose : Scans (s.set p.marker true) (p.body.getLast?.or none) (p.closing ++ rest)
      (.toggle p.marker false :: events) t := by
    apply Scans.close (Mark.of_mem_spellings p.closing_mem hrest) _ hnext
    · rw [OpenMarkers.set_set_of_closed hclosed]
      exact h
    · exact OpenMarkers.isOpen_set_self s p.marker true
  have hmark : Mark p.marker p.opening (p.body ++ (p.closing ++ rest)) :=
    Mark.of_mem_spellings p.opening_mem (p.plain_body.not_isSign_of_head? p.body_ne_nil _)
  have hopen := Scans.opening hmark hclosed hprev (hclose.plain_append p.plain_body)
  simpa [Span.text, Span.events] using hopen

end Scan

namespace Document

/-- The spans of a document are read one after another. The text before a span counts only
where a span follows. -/
theorem scans_rest {prev : Option Char} {rest : List (Span × List Char)}
    (hplain : ∀ e ∈ rest, Plain e.2) (hstarts : ∀ e ∈ rest, isBoundary e.2.head? = true)
    (hinner : ∀ e ∈ rest.dropLast, e.2 ≠ [] ∧ isBoundary e.2.getLast? = true)
    (hprev : rest ≠ [] → isBoundary prev = true) :
    Scans .none prev (restText rest) (restEvents rest) .none := by
  induction rest generalizing prev with
  | nil => exact .done
  | cons e more ih =>
      obtain ⟨span, text⟩ := e
      have htext : Plain text := hplain _ List.mem_cons_self
      have hstart : isBoundary text.head? = true := hstarts _ List.mem_cons_self
      have hends (h : more ≠ []) : text ≠ [] ∧ isBoundary text.getLast? = true := by
        apply hinner (span, text)
        rw [List.dropLast_cons_of_ne_nil h]
        exact List.mem_cons_self
      have hmore : Scans .none (text.getLast?.or none) (restText more) (restEvents more) .none := by
        apply ih (fun e he => hplain e (List.mem_cons_of_mem _ he))
          (fun e he => hstarts e (List.mem_cons_of_mem _ he))
        · intro e he
          apply hinner
          rw [List.dropLast_cons_of_ne_nil (List.ne_nil_of_mem (List.dropLast_subset _ he))]
          exact List.mem_cons_of_mem _ he
        · intro h
          rw [Option.or_none]
          exact (hends h).2
      have hhead : (text ++ restText more).head? = text.head? := by
        cases more with
        | nil => rw [restText, List.flatMap_nil, List.append_nil]
        | cons next more =>
            obtain ⟨c, cs, rfl⟩ := List.exists_cons_of_ne_nil (hends (List.cons_ne_nil _ _)).1
            rfl
      have hsign (c : Char) (hc : (text ++ restText more).head? = some c) : ¬ IsSign c := by
        rw [hhead] at hc
        exact htext c (List.mem_of_head? hc)
      have hnext : isBoundary (text ++ restText more).head? = true := by
        rw [hhead]
        exact hstart
      have hspan := span.scans (OpenMarkers.isOpen_none span.marker)
        (hprev (List.cons_ne_nil _ _)) hnext hsign (hmore.plain_append htext)
      simpa [restText, restEvents] using hspan

theorem scans (d : Document) : Scans .none none d.text d.events .none := by
  apply Scans.plain_append d.plain_first
  apply scans_rest d.plain_rest d.rest_starts d.inner_ends
  intro _
  rw [Option.or_none]
  exact d.first_ends

end Document

end RenderLog.Markup

namespace RenderLog.Message
open Markup

/-- The marks of a document are read as they were meant, and they leave no marker open. -/
theorem items_document (d : Document) :
    Markup.events .none d.text = d.events ∧ OpenMarkers.none.after d.events = .none ∧
      ∀ highlights, (ofText (String.ofList d.text)).items highlights =
        d.events.map Item.ofEvent := by
  obtain ⟨hevents, hclosed⟩ := scans_iff.mp d.scans
  refine ⟨hevents.symm, hclosed.symm, ?_⟩
  intro highlights
  have hsegments : (ofText (String.ofList d.text)).events = [d.events] := by
    rw [hevents]
    simp [Message.events, ofText, eventsOfSegments, Markup.events]
  rw [items, hsegments]
  exact List.append_nil _

/-- The marks of one span may be spelled with either sign, and spans may hold blanks. -/
def twoSpans : Document :=
  ⟨"see ".toList,
    [(⟨.bold, ['*', '*'], "the log".toList, ['_', '_'], by decide, by decide, by decide,
        by decide⟩, " or ".toList),
      (⟨.code, ['\x60'], "run".toList, ['\x60'], by decide, by decide, by decide, by decide⟩, [])],
    by decide, by decide, by decide, by decide, by decide⟩

theorem items_document_twoSpans :
    twoSpans.text = "see **the log__ or \x60run\x60".toList ∧
      Markup.events .none "see **the log__ or \x60run\x60".toList =
        "see ".toList.map .literal ++
          .toggle .bold true :: "the log".toList.map .literal ++
          .toggle .bold false :: " or ".toList.map .literal ++
          .toggle .code true :: "run".toList.map .literal ++ [.toggle .code false] := by
  have htext : twoSpans.text = "see **the log__ or \x60run\x60".toList := by decide
  obtain ⟨hevents, -⟩ := items_document twoSpans
  rw [htext] at hevents
  exact ⟨htext, hevents.trans (by decide)⟩

end RenderLog.Message
