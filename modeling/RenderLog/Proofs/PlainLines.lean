import RenderLog.Proofs.Display

/-!
# Lines that lose their styling

A plain line is shown with a blank between its pieces, and the texts around a value
have lost the blank beside it. So a line that loses its styling still shows the text
that a console would show with styling, if there was one blank to lose on either side
of a value that has text there.

A text is taken without its marks. One of a single blank between two values becomes
no piece at all, and the blank that is put between the values stands for it.
-/
namespace RenderLog

/-- A text in front of the first value: empty, or with a blank towards the value. -/
def LeadsIn (text : List Char) : Prop := text = [] ∨ ∃ words, words ≠ [] ∧ text = words ++ [' ']

/-- A text between two values: one blank, or words with a blank on either side. -/
def Joins (text : List Char) : Prop :=
  text = [' '] ∨ ∃ words, words ≠ [] ∧ text = ' ' :: (words ++ [' '])

/-- A text behind the last value: empty, or with a blank towards the value. -/
def LeadsOut (text : List Char) : Prop := text = [] ∨ ∃ words, words ≠ [] ∧ text = ' ' :: words

def Spaced (texts : List (List Char)) : Prop :=
  ∃ first inner last, texts = first :: (inner ++ [last]) ∧
    LeadsIn first ∧ (∀ text ∈ inner, Joins text) ∧ LeadsOut last

theorem shownText_cons (text : List Char) (texts : List (List Char)) (v : Value)
    (values : List Value) :
    shownText (text :: texts) (v :: values) =
      text ++ (v.shownText ++ shownText texts values) := by
  unfold shownText
  rw [List.zipIdx_cons, List.flatMap_cons, List.zipIdx_succ, List.flatMap_map]
  simp

theorem intercalate_cons (blank piece : List Char) (pieces : List (List Char)) :
    blank.intercalate (piece :: pieces) = piece ++ pieces.flatMap (blank ++ ·) := by
  induction pieces generalizing piece with
  | nil => simp
  | cons next pieces ih =>
      rw [List.intercalate_cons_cons, ih next, List.flatMap_cons, List.append_assoc,
        List.append_assoc]

namespace Piece
variable {events : List Markup.Event} {words : List Char}

def ofText (text : List Char) : List Piece :=
  if text.isEmpty then [] else [.text (String.ofList text)]

theorem ofText_nil : ofText [] = [] := rfl

theorem ofText_of_ne (h : words ≠ []) : ofText words = [.text (String.ofList words)] := by
  simp [ofText, h]

/-- A text without the blanks beside values: the first has no value before it, and the last none
behind it. -/
def trim (first last : Bool) (text : List Char) : List Char :=
  let text := if last then text else dropBlankEnd text
  if first then text else dropBlankStart text

theorem ofSegment_eq (first last : Bool) (events : List Markup.Event) :
    ofSegment first last events = ofText (trim first last (Markup.literals events)) := rfl

theorem dropBlankEnd_concat (cs : List Char) : dropBlankEnd (cs ++ [' ']) = cs := by
  simp [dropBlankEnd]

theorem trim_leadsIn (words : List Char) : trim true false (words ++ [' ']) = words :=
  dropBlankEnd_concat words

theorem trim_joins (words : List Char) : trim false false (' ' :: (words ++ [' '])) = words := by
  have hend := dropBlankEnd_concat (' ' :: words)
  rw [List.cons_append] at hend
  simp [trim, hend, dropBlankStart]

theorem trim_leadsOut (words : List Char) : trim false true (' ' :: words) = words := by
  simp [trim, dropBlankStart]

/-- What is shown of pieces that stand behind another one. -/
def behind (pieces : List Piece) : List Char :=
  (pieces.map fun p => p.display.toList).flatMap ([' '] ++ ·)

theorem behind_nil : behind [] = [] := rfl

theorem behind_cons (p : Piece) (pieces : List Piece) :
    behind (p :: pieces) = ' ' :: (p.display.toList ++ behind pieces) := rfl

theorem behind_append (front back : List Piece) :
    behind (front ++ back) = behind front ++ behind back := by
  unfold behind
  rw [List.map_append, List.flatMap_append]

theorem behind_ofText (h : words ≠ []) : behind (ofText words) = ' ' :: words := by
  rw [ofText_of_ne h, behind_cons, behind_nil, List.append_nil, display, String.toList_ofList]

theorem display_plain_cons (p : Piece) (pieces : List Piece) :
    (Line.plain (p :: pieces)).display = String.ofList (p.display.toList ++ behind pieces) := by
  rw [Line.display, List.map_cons, intercalate_cons]
  rfl

theorem display_ofValue (v : Value) : (ofValue v).display.toList = v.shownText := by
  cases v <;> rfl

/-- The blank before the first value is the one that is put there. -/
theorem display_leadsIn (h : LeadsIn (Markup.literals events)) (v : Value) (pieces : List Piece) :
    (Line.plain (ofSegment true false events ++ ofValue v :: pieces)).display =
      String.ofList (Markup.literals events ++ (v.shownText ++ behind pieces)) := by
  rw [ofSegment_eq]
  cases h with
  | inl hempty =>
      have htrim : trim true false [] = [] := rfl
      rw [hempty, htrim, ofText_nil, List.nil_append, display_plain_cons, display_ofValue]
      rfl
  | inr hwords =>
      obtain ⟨words, hne, he⟩ := hwords
      rw [he, trim_leadsIn, ofText_of_ne hne, List.singleton_append, display_plain_cons,
        behind_cons, display_ofValue, display, String.toList_ofList, List.append_assoc,
        List.singleton_append]

/-- A text between two values is shown with the blank that is put before the second. -/
theorem behind_joins (h : Joins (Markup.literals events)) :
    behind (ofSegment false false events) ++ [' '] = Markup.literals events := by
  rw [ofSegment_eq]
  cases h with
  | inl hblank =>
      rw [hblank]
      rfl
  | inr hwords =>
      obtain ⟨words, hne, he⟩ := hwords
      rw [he, trim_joins, behind_ofText hne, List.cons_append]

theorem behind_leadsOut (h : LeadsOut (Markup.literals events)) :
    behind (ofSegment false true events) = Markup.literals events := by
  rw [ofSegment_eq]
  cases h with
  | inl hempty =>
      rw [hempty]
      rfl
  | inr hwords =>
      obtain ⟨words, hne, he⟩ := hwords
      rw [he, trim_leadsOut, behind_ofText hne]

/-- The texts and values behind the first value are shown as they stand. -/
theorem behind_ofEvents {segments : List (List Markup.Event)} {values : List Value}
    {inner : List (List Char)} {last : List Char}
    (hfit : segments.length = values.length + 1)
    (htexts : segments.map Markup.literals = inner ++ [last])
    (hinner : ∀ text ∈ inner, Joins text) (hlast : LeadsOut last) :
    behind (ofEvents false segments values) =
      shownText (segments.map Markup.literals) values := by
  induction inner generalizing segments values with
  | nil =>
      obtain ⟨events, rfl, rfl⟩ := List.map_eq_singleton_iff.mp htexts
      have hvalues : values = [] := List.eq_nil_of_length_eq_zero (Nat.succ.inj hfit).symm
      rw [hvalues, ofEvents, ofEvents, List.append_nil, behind_leadsOut hlast, List.map_singleton,
        shownText_singleton]
  | cons text inner ih =>
      rw [List.cons_append] at htexts
      obtain ⟨events, rest, rfl, rfl, hrest⟩ := List.map_eq_cons_iff.mp htexts
      have hlength := congrArg List.length hrest
      simp only [List.length_map, List.length_append, List.length_singleton] at hlength
      simp only [List.length_cons] at hfit
      cases values with
      | nil =>
          rw [List.length_nil] at hfit
          omega
      | cons v values =>
          have hfit' : rest.length = values.length + 1 := by
            rw [List.length_cons] at hfit
            omega
          have hjoins := behind_joins (hinner _ List.mem_cons_self)
          have hshown := ih hfit' hrest fun t ht => hinner t (List.mem_cons_of_mem _ ht)
          rw [List.map_cons, shownText_cons, ofEvents, behind_append, behind_cons, display_ofValue,
            hshown, ← hjoins, List.append_assoc, List.singleton_append]

theorem display_ofEvents_nil (events : List Markup.Event) :
    (Line.plain (ofEvents true [events] [])).display =
      String.ofList (shownText [Markup.literals events] []) := by
  have htrim : trim true true (Markup.literals events) = Markup.literals events := rfl
  rw [shownText_singleton, ofEvents, ofEvents, List.append_nil, ofSegment_eq, htrim]
  by_cases hempty : Markup.literals events = []
  · rw [hempty]
    rfl
  · rw [ofText_of_ne hempty, display_plain_cons, behind_nil, List.append_nil, display,
      String.toList_ofList]

/-- The pieces of a message are shown as its texts and values. -/
theorem display_ofEvents {segments : List (List Markup.Event)} {values : List Value}
    (hfit : segments.length = values.length + 1)
    (hspaced : values ≠ [] → Spaced (segments.map Markup.literals)) :
    (Line.plain (ofEvents true segments values)).display =
      String.ofList (shownText (segments.map Markup.literals) values) := by
  cases segments with
  | nil => cases hfit
  | cons events rest =>
      have hfit' : rest.length = values.length := Nat.succ.inj hfit
      cases values with
      | nil =>
          rw [List.eq_nil_of_length_eq_zero hfit']
          exact display_ofEvents_nil events
      | cons v values =>
          obtain ⟨first, inner, last, htexts, hfirst, hinner, hlast⟩ := hspaced (by simp)
          obtain ⟨rfl, hrest⟩ := List.cons.inj htexts
          have hbehind := behind_ofEvents hfit' hrest hinner hlast
          rw [ofEvents, display_leadsIn hfirst, hbehind, List.map_cons, shownText_cons]

end Piece

namespace Message
variable {m : Message} {texts : List (List Char)} {trace : Option String}

/-- A message that loses its styling shows the text that a console shows of it with styling,
when there is no call site to show and its values are set off by blanks. -/
theorem display_plain_eq_styled (hfit : m.segments.length = m.values.length + 1)
    (htexts : Markup.StripsSegments .none m.segments texts)
    (hspaced : m.values ≠ [] → Spaced texts) (htrace : shownTrace trace = none)
    {plain styled : StylingRule} (hplain : plain m.values = true)
    (hstyled : styled m.values = false) (highlights : Highlights) (medium : Medium) :
    (m.typeset highlights trace ⟨medium, plain⟩).display =
        (m.typeset highlights trace ⟨.console, styled⟩).display ∧
      (m.typeset highlights trace ⟨medium, plain⟩).display =
        String.ofList (shownText texts m.values) := by
  obtain rfl := Markup.stripsSegments_iff.mp htexts
  have hlength : m.events.length = m.values.length + 1 := by
    rw [events, Markup.length_eventsOfSegments, hfit]
  have hpieces : (m.typeset highlights trace ⟨medium, plain⟩).display =
      String.ofList (shownText (m.events.map Markup.literals) m.values) := by
    rw [typeset, if_pos hplain, typesetPlain, htrace]
    exact Piece.display_ofEvents hlength hspaced
  have hconsole := display_styled hstyled highlights trace
  rw [htrace, Option.elim_none, List.append_nil] at hconsole
  exact ⟨hpieces.trans hconsole.symm, hpieces⟩

/-- Marks that vanish beside values, a text that is one blank, and a segment that ends open. -/
theorem display_plain_eq_styled_marks :
    let m : Message := ⟨["**", "** ", " is *", "* \x60x%"], [.text "5%", .object ⟨0, "%o"⟩, .null]⟩
    let texts := ["".toList, " ".toList, " is ".toList, " x%".toList]
    m.segments.length = m.values.length + 1 ∧ Markup.StripsSegments .none m.segments texts ∧
      (m.values ≠ [] → Spaced texts) ∧ shownTrace none = none ∧
      StylingRule.plainObjects m.values = true ∧ StylingRule.lenient m.values = false ∧
      (m.typeset (.ofList [0]) none ⟨.console, .plainObjects⟩).display =
        (m.typeset (.ofList [0]) none .console).display ∧
      (m.typeset (.ofList [0]) none ⟨.console, .plainObjects⟩).display =
        "\x225%\x22 %o is null x%" := by
  intro m texts
  have hfit : m.segments.length = m.values.length + 1 := rfl
  have htexts : Markup.StripsSegments .none m.segments texts := Markup.stripsSegments_iff.mpr rfl
  have hspaced : m.values ≠ [] → Spaced texts := by
    intro _
    refine ⟨_, [" ".toList, " is ".toList], _, rfl, .inl rfl, ?_, .inr ⟨_, ?_, rfl⟩⟩
    · intro text htext
      simp only [List.mem_cons, List.not_mem_nil, or_false] at htext
      rcases htext with rfl | rfl
      · exact .inl rfl
      · exact .inr ⟨"is".toList, by decide, rfl⟩
    · decide
  have htrace : shownTrace none = none := rfl
  have hplain : StylingRule.plainObjects m.values = true := rfl
  have hstyled : StylingRule.lenient m.values = false := rfl
  obtain ⟨hsame, htext⟩ :=
    display_plain_eq_styled hfit htexts hspaced htrace hplain hstyled (.ofList [0]) .console
  exact ⟨hfit, htexts, hspaced, htrace, hplain, hstyled, hsame, htext.trans rfl⟩

end Message
end RenderLog
