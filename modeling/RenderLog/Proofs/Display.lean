import RenderLog.Proofs.Renderings

/-!
# What a console shows

A console consumes the arguments of a format and shows the rest. Of a styled line
it shows each symbol as it is meant: characters as themselves, styles as nothing,
objects by their debug text. So a message is shown as its segments without the
marks that switch, each followed by the text of its value, and the call site.

Percent signs need no care: whatever stands in a segment, in a value or in the
call site is shown as it stands.
-/
namespace RenderLog

def Symbol.text : Symbol Arg → List Char
  | .shown c => [c]
  | .directive (.style _) => []
  | .directive (.object o) => o.text.toList

theorem displayFormat_cons_of_ne {c : Char} (h : c ≠ '%') (rest : List Char) (args : List Arg) :
    displayFormat (c :: rest) args = c :: displayFormat rest args := by
  cases rest with
  | nil => rfl
  | cons d rest => simp [displayFormat, h]

theorem displayFormat_spell (symbols : List (Symbol Arg)) :
    displayFormat (spell (symbols.map (Symbol.map Arg.directive)))
        (symbols.filterMap Symbol.directive?) =
      symbols.flatMap Symbol.text := by
  induction symbols with
  | nil => rfl
  | cons s rest ih =>
      rw [List.map_cons, spell_cons, List.flatMap_cons, ← ih]
      cases s with
      | shown c =>
          by_cases h : c = '%'
          · subst h
            simp [Symbol.map, Symbol.chars, displayFormat, Symbol.text, List.filterMap_cons]
          · simp only [Symbol.map, Symbol.chars, h, if_false, List.singleton_append]
            rw [displayFormat_cons_of_ne h]
            rfl
      | directive a =>
          cases a with
          | style css =>
              simp [Symbol.map, Symbol.chars, Arg.directive, Directive.letter, displayFormat,
                Symbol.text]
          | object o =>
              simp [Symbol.map, Symbol.chars, Arg.directive, Directive.letter, displayFormat,
                objectText, Symbol.text]

theorem Line.display_ofSymbols (symbols : List (Symbol Arg)) :
    (Line.ofSymbols symbols).display = String.ofList (symbols.flatMap Symbol.text) := by
  rw [ofSymbols, display, String.toList_ofList, displayFormat_spell]

section Styles
variable {β : Type} {f : Symbol Arg → List β} (hf : ∀ css, f (.directive (.style css)) = [])
include hf

theorem flatMap_leadStyle (css : String) (symbols : List (Symbol Arg)) :
    (leadStyle css symbols).flatMap f = symbols.flatMap f := by
  unfold leadStyle
  split <;> simp [hf]

/-- Whatever styles mean nothing to finds the same whether they are joined or not. -/
theorem flatMap_joinStyles (symbols : List (Symbol Arg)) :
    (joinStyles symbols).flatMap f = symbols.flatMap f := by
  fun_induction joinStyles symbols with
  | case1 => rfl
  | case2 css rest ih => rw [flatMap_leadStyle hf, ih, List.flatMap_cons, hf, List.nil_append]
  | case3 s rest _ ih => rw [List.flatMap_cons, ih, List.flatMap_cons]

end Styles

theorem flatMap_text_shown (cs : List Char) :
    (cs.map (Symbol.shown (α := Arg))).flatMap Symbol.text = cs := by
  induction cs with
  | nil => rfl
  | cons c cs ih => exact congrArg (c :: ·) ih

/-- A primitive value is shown as inside any line and an object by its debug text. -/
def Value.shownText : Value → List Char
  | .object o => o.text.toList
  | v => v.inline.toList

theorem Value.flatMap_text_symbols (v : Value) : v.symbols.flatMap Symbol.text = v.shownText := by
  cases v with
  | object o => exact List.append_nil _
  | _ => exact flatMap_text_shown _

/-- Texts of segments, each followed by its value if there is one. -/
def shownText (texts : List (List Char)) (values : List Value) : List Char :=
  texts.zipIdx.flatMap fun e => e.1 ++ values[e.2]?.elim [] Value.shownText

theorem shownText_singleton (text : List Char) : shownText [text] [] = text := by
  simp [shownText]

namespace Markup

/-- The second text is the first without the marks of the switches among the events. -/
inductive Strips : List Event → List Char → List Char → Prop
  | done : Strips [] [] []
  | literal {c : Char} {events : List Event} {rest kept : List Char} : Strips events rest kept →
      Strips (.literal c :: events) (c :: rest) (c :: kept)
  | toggle {m : Marker} {on : Bool} {events : List Event} {mark rest kept : List Char} :
      Mark m mark rest → Strips events rest kept →
      Strips (.toggle m on :: events) (mark ++ rest) kept

/-- The texts are the segments without the marks that switch when they are read in turn. -/
inductive StripsSegments : OpenMarkers → List String → List (List Char) → Prop
  | done {s : OpenMarkers} : StripsSegments s [] []
  | segment {s t : OpenMarkers} {segment : String} {rest : List String} {events : List Event}
      {kept : List Char} {texts : List (List Char)} : Scans s none segment.toList events t →
      Strips events segment.toList kept → StripsSegments t rest texts →
      StripsSegments s (segment :: rest) (kept :: texts)

def literals (events : List Event) : List Char := events.filterMap Event.literal?

variable {s t : OpenMarkers} {prev : Option Char} {events : List Event} {cs kept : List Char}

theorem Strips.eq_literals (h : Strips events cs kept) : kept = literals events := by
  induction h with
  | done => rfl
  | literal _ ih =>
      rw [ih]
      rfl
  | toggle _ _ ih =>
      rw [ih]
      rfl

theorem Strips.literals (h : Strips events cs kept) (more : List Char) :
    Strips (more.map .literal ++ events) (more ++ cs) (more ++ kept) := by
  induction more with
  | nil => exact h
  | cons c more ih => exact .literal ih

/-- Reading a text takes nothing from it but marks that switch. -/
theorem Scans.strips (h : Scans s prev cs events t) : ∃ kept, Strips events cs kept := by
  induction h with
  | done => exact ⟨_, .done⟩
  | plain _ _ ih =>
      obtain ⟨kept, hk⟩ := ih
      exact ⟨_, .literal hk⟩
  | close hm _ _ _ ih =>
      obtain ⟨kept, hk⟩ := ih
      exact ⟨_, .toggle hm hk⟩
  | opening hm _ _ _ ih =>
      obtain ⟨kept, hk⟩ := ih
      exact ⟨_, .toggle hm hk⟩
  | literal _ _ _ _ ih =>
      obtain ⟨kept, hk⟩ := ih
      exact ⟨_, hk.literals _⟩

theorem stripsSegments_iff {segments : List String} {texts : List (List Char)} :
    StripsSegments s segments texts ↔
      texts = (eventsOfSegments s segments).map Markup.literals := by
  constructor
  · intro h
    induction h with
    | done => rfl
    | segment hs hk _ ih =>
        obtain ⟨rfl, rfl⟩ := scans_iff.mp hs
        rw [hk.eq_literals, ih]
        rfl
  · rintro rfl
    induction segments generalizing s with
    | nil => exact .done
    | cons segment rest ih =>
        have hs : Scans s none segment.toList (Markup.events s segment.toList)
            (s.after (Markup.events s segment.toList)) := scans_iff.mpr ⟨rfl, rfl⟩
        obtain ⟨kept, hk⟩ := hs.strips
        exact .segment hs (hk.eq_literals ▸ hk) ih

theorem Mark.isSign {m : Marker} {mark rest : List Char} (h : Mark m mark rest) :
    ∃ c ∈ mark, IsSign c := by
  cases h with
  | bold hc => exact ⟨_, List.mem_cons_self, or_assoc.mp (.inl hc)⟩
  | italic hc _ => exact ⟨_, List.mem_cons_self, or_assoc.mp (.inl hc)⟩
  | code => exact ⟨_, List.mem_cons_self, .inr (.inr rfl)⟩

theorem Strips.eq_of_forall (h : Strips events cs kept) (hc : ∀ c ∈ cs, ¬ IsSign c) :
    kept = cs := by
  induction h with
  | done => rfl
  | literal _ ih => rw [ih fun c h => hc c (List.mem_cons_of_mem _ h)]
  | toggle hm _ _ =>
      obtain ⟨c, hcm, hsign⟩ := hm.isSign
      exact (hc c (List.mem_append_left _ hcm) hsign).elim

theorem StripsSegments.getElem?_of_forall {segments : List String} {texts : List (List Char)}
    (h : StripsSegments s segments texts) {i : Nat} {segment : String}
    (hi : segments[i]? = some segment) (hc : ∀ c ∈ segment.toList, ¬ IsSign c) :
    texts[i]? = some segment.toList := by
  induction h generalizing i with
  | done => cases hi
  | segment _ hk _ ih =>
      cases i with
      | zero =>
          obtain rfl := Option.some.inj hi
          exact congrArg some (hk.eq_of_forall hc)
      | succ i => exact ih hi

def Item.symbols : Medium → Item → List (Symbol Arg)
  | .terminal => Item.terminal
  | .console => Item.console

theorem Item.symbols_value (medium : Medium) (v : Value) :
    Item.symbols medium (.value v) = v.symbols := by
  cases medium <;> rfl

/-- The characters that a medium shows for an event. -/
def Event.shown : Medium → Event → List Char
  | _, .literal c => [c]
  | .terminal, .toggle m on => ((Style.marker m).escape on).toList
  | .console, .toggle _ _ => []

theorem flatMap_text_event (medium : Medium) (e : Event) :
    (Item.symbols medium (.ofEvent e)).flatMap Symbol.text = e.shown medium := by
  cases e with
  | literal c => cases medium <;> rfl
  | toggle m on =>
      cases medium with
      | terminal => exact flatMap_text_shown _
      | console => rfl

theorem flatMap_shown_console (events : List Event) :
    events.flatMap (Event.shown .console) = literals events := by
  induction events with
  | nil => rfl
  | cons e events ih =>
      rw [List.flatMap_cons, ih]
      cases e <;> rfl

end Markup

theorem flatMap_text_placeSymbols (place : String) :
    (placeSymbols place .console).flatMap Symbol.text = traceText place := by
  rw [placeSymbols_console, List.flatMap_cons, flatMap_text_shown]
  rfl

theorem flatMap_text_traceSymbols (trace : Option String) :
    (traceSymbols trace .console).flatMap Symbol.text = (shownTrace trace).elim [] traceText := by
  rw [traceSymbols]
  cases shownTrace trace with
  | none => rfl
  | some place => exact flatMap_text_placeSymbols place

namespace Message
variable {m : Message} {rule : StylingRule}

/-- Whatever styles mean nothing to finds in a styled message the events of each segment, the value
behind them, and the call site. -/
theorem flatMap_bodySymbols {β : Type} {f : Symbol Arg → List β}
    (hf : ∀ css, f (.directive (.style css)) = []) (m : Message) (highlights : Highlights)
    (medium : Medium) :
    (Markup.bodySymbols (m.items highlights) medium).flatMap f =
      m.events.zipIdx.flatMap fun e =>
        e.1.flatMap (fun event => (Markup.Item.symbols medium (.ofEvent event)).flatMap f) ++
          m.values[e.2]?.elim [] fun v => v.symbols.flatMap f := by
  have hitems : (Markup.bodySymbols (m.items highlights) medium).flatMap f =
      (m.items highlights).flatMap fun i => (i.symbols medium).flatMap f := by
    cases medium with
    | terminal => exact List.flatMap_assoc
    | console => exact (flatMap_joinStyles hf _).trans List.flatMap_assoc
  have hchanged (on : Bool) :
      (Markup.Item.symbols medium (.switch .changed on)).flatMap f = [] := by
    cases medium with
    | terminal => rfl
    | console => exact (List.flatMap_singleton ..).trans (hf _)
  rw [hitems, flatMap_items hchanged]
  simp only [Markup.Item.symbols_value]

/-- A styled message is shown as the characters of its events, with the value behind each segment
and the call site. -/
theorem display_of_styled (h : rule m.values = false) (highlights : Highlights)
    (trace : Option String) (medium : Medium) :
    (m.typeset highlights trace ⟨medium, rule⟩).display =
      String.ofList (shownText (m.events.map (·.flatMap (Markup.Event.shown medium))) m.values ++
        (traceSymbols trace medium).flatMap Symbol.text) := by
  rw [typeset_styled h, Line.display_ofSymbols, List.flatMap_append,
    flatMap_bodySymbols fun _ => rfl, shownText, List.zipIdx_map, List.flatMap_map]
  simp only [Markup.flatMap_text_event, Value.flatMap_text_symbols]
  rfl

/-- On a console a styled message is shown as the characters that its reading leaves, with the
values and the call site. -/
theorem display_styled (h : rule m.values = false) (highlights : Highlights)
    (trace : Option String) :
    (m.typeset highlights trace ⟨.console, rule⟩).display =
      String.ofList (shownText (m.events.map Markup.literals) m.values ++
        (shownTrace trace).elim [] traceText) := by
  rw [display_of_styled h, flatMap_text_traceSymbols]
  simp only [Markup.flatMap_shown_console]

end Message

/-- A console shows the segments of a styled message without the marks that switch, each
followed by its value, and the call site behind them. A segment without signs is shown as it
stands. -/
theorem Message.display_typeset_console {m : Message} {rule : StylingRule}
    (h : rule m.values = false) (highlights : Highlights) (trace : Option String) :
    ∃ texts, (∀ other, Markup.StripsSegments .none m.segments other ↔ other = texts) ∧
      (m.typeset highlights trace ⟨.console, rule⟩).display =
        String.ofList (shownText texts m.values ++ (shownTrace trace).elim [] traceText) ∧
      ∀ (i : Nat) (segment : String), m.segments[i]? = some segment →
        (∀ c ∈ segment.toList, ¬ Markup.IsSign c) → texts[i]? = some segment.toList := by
  refine ⟨m.events.map Markup.literals, fun other => Markup.stripsSegments_iff,
    display_styled h highlights trace, ?_⟩
  intro i segment hi hc
  exact (Markup.stripsSegments_iff.mpr rfl).getElem?_of_forall hi hc

/-- Percent signs around marks, joined styles, an object and the call site. -/
theorem Message.display_typeset_console_percent :
    Screen.console.refuses [.object ⟨0, "%o"⟩] = false ∧
      ((⟨["5% ***", "%c*** a*b 100%%"], [.object ⟨0, "%o"⟩]⟩ : Message).typeset (.ofList [0])
          (some "a%o") .console).display = "5% %o%c a*b 100%%(@ a%o)" := by
  have h : Screen.console.refuses [.object ⟨0, "%o"⟩] = false := rfl
  obtain ⟨texts, hall, hd, -⟩ := display_typeset_console
    (m := ⟨["5% ***", "%c*** a*b 100%%"], [.object ⟨0, "%o"⟩]⟩) h (.ofList [0]) (some "a%o")
  have ht := (hall _).mp (Markup.stripsSegments_iff.mpr rfl)
  refine ⟨h, hd.trans ?_⟩
  rw [← ht]
  rfl

end RenderLog
