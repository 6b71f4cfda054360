import RenderLog.Proofs.Fusion

/-!
# Highlights as styles

A highlight is nothing but a style of a console. A terminal has no escape sequence for it
and a plain line has no styles, so there a line is the same with any highlights. A console
shows the same text and the same objects with any; in the row of its styles a pair stands
for each highlighted value, one that sets it off and one that takes that back.

A position counts only where the message has a segment and a value.
-/
namespace RenderLog

/-- Lines that show the same text and carry the same objects. -/
structure Line.ShowsAs (l l' : Line) : Prop where
  display : l.display = l'.display
  objects : l.objects = l'.objects

def Line.css (l : Line) : String := String.join l.styles

namespace Markup

def Event.css? : Event → Option String
  | .literal _ => none
  | .toggle m on => some ((Style.marker m).css on)

/-- What sets a value off on a console, and what takes that back behind it. -/
def highlightStyles : List String := [Style.changed.css true, Style.changed.css false]

end Markup

namespace Message

/-- A value is set off where there is one at a highlighted position. -/
def setsOff (m : Message) (highlights : Highlights) (i : Nat) : Bool :=
  highlights.marks i && decide (i < m.values.length)

/-- The styles of a message on a console, in order: those of its marks, segment after segment, with
a pair behind each segment whose value is set off, and that of the call site. -/
def styleRow (m : Message) (highlights : Highlights) (trace : Option String) : List String :=
  (m.events.zipIdx.flatMap fun e =>
      e.1.filterMap Markup.Event.css? ++
        if m.setsOff highlights e.2 then Markup.highlightStyles else []) ++
    ((shownTrace trace).map fun _ => traceCss).toList

end Message

def Symbol.object? (s : Symbol Arg) : Option Object := s.directive?.bind Arg.object?

section Symbols
variable {symbols symbols' fused : List (Symbol Arg)}

/-- A function that styles mean nothing to sees what is shown. -/
theorem flatMap_shownSymbols {β : Type} {f : Symbol Arg → List β}
    (hf : ∀ css, f (.directive (.style css)) = []) (symbols : List (Symbol Arg)) :
    (shownSymbols symbols).flatMap f = symbols.flatMap f := by
  unfold shownSymbols
  induction symbols with
  | nil => rfl
  | cons s symbols ih =>
      match s with
      | .shown _ | .directive (.object _) => exact congrArg (f _ ++ ·) ih
      | .directive (.style css) =>
          rw [List.flatMap_cons, hf, List.nil_append]
          exact ih

theorem Line.objects_ofSymbols (symbols : List (Symbol Arg)) :
    (ofSymbols symbols).objects = symbols.flatMap fun s => s.object?.toList := by
  rw [ofSymbols, objects, List.filterMap_filterMap]
  exact List.filterMap_eq_flatMap_toList ..

/-- Lines are told by what stands in them beside their styles. -/
theorem Line.showsAs_of_shownSymbols (h : shownSymbols symbols = shownSymbols symbols') :
    (ofSymbols symbols).ShowsAs (ofSymbols symbols') := by
  have heq {β : Type} {f : Symbol Arg → List β} (hf : ∀ css, f (.directive (.style css)) = []) :
      symbols.flatMap f = symbols'.flatMap f := by
    rw [← flatMap_shownSymbols hf, h, flatMap_shownSymbols hf]
  constructor
  · rw [display_ofSymbols, display_ofSymbols, heq fun _ => rfl]
  · rw [objects_ofSymbols, objects_ofSymbols, heq fun _ => rfl]

theorem Fuses.join_style?_eq (h : Fuses symbols fused) :
    String.join (fused.filterMap Symbol.style?) =
      String.join (symbols.filterMap Symbol.style?) := by
  induction h with
  | done => rfl
  | other hs _ ih => rw [List.filterMap_cons_none hs, List.filterMap_cons_none hs, ih]
  | @run styles rest fused _ _ _ ih =>
      have hstyles : (styles.map fun css => Symbol.directive (Arg.style css)).filterMap
          Symbol.style? = styles := by
        rw [List.filterMap_map]
        exact List.filterMap_some
      rw [List.filterMap_append, hstyles, String.join_append, ← ih]
      exact String.join_cons

theorem Line.css_ofSymbols (symbols : List (Symbol Arg)) :
    (ofSymbols symbols).css = String.join (symbols.filterMap Symbol.style?) := by
  rw [css, styles, ofSymbols, args, List.filterMap_filterMap]
  rfl

end Symbols

namespace Markup

theorem filterMap_style?_symbols (v : Value) : v.symbols.filterMap Symbol.style? = [] := by
  apply List.filterMap_eq_nil_iff.mpr
  intro s hs
  exact Symbol.style?_eq_none_iff.mpr (Value.ne_style_of_mem_symbols hs)

theorem filterMap_style?_event (e : Event) :
    (Item.ofEvent e).console.filterMap Symbol.style? = e.css?.toList := by
  cases e <;> rfl

theorem filterMap_style?_ofValue (v : Value) (marked : Bool) :
    ((Item.ofValue v marked).flatMap Item.console).filterMap Symbol.style? =
      if marked then highlightStyles else [] := by
  cases marked <;> simp [Item.ofValue, Item.console, filterMap_style?_symbols, highlightStyles]

theorem filterMap_style?_segmentEnd (m : Message) (highlights : Highlights) (i : Nat) :
    ((Cue.items m.values highlights (.segmentEnd i)).flatMap Item.console).filterMap
        Symbol.style? =
      if m.setsOff highlights i then highlightStyles else [] := by
  rw [Cue.items, Message.setsOff]
  cases hv : m.values[i]? with
  | none =>
      have hle : ¬ i < m.values.length := Nat.not_lt.mpr (List.getElem?_eq_none_iff.mp hv)
      simp [hle]
  | some v =>
      obtain ⟨hlt, -⟩ := List.getElem?_eq_some_iff.mp hv
      rw [filterMap_style?_ofValue]
      simp [hlt]

end Markup

theorem filterMap_style?_traceSymbols (trace : Option String) :
    (traceSymbols trace .console).filterMap Symbol.style? =
      ((shownTrace trace).map fun _ => traceCss).toList := by
  rw [traceSymbols]
  cases shownTrace trace with
  | none => rfl
  | some place =>
      have htext : ((traceText place).map Symbol.shown).filterMap Symbol.style? = [] := by
        simp [List.filterMap_map]
      rw [Option.elim_some, placeSymbols_console]
      exact congrArg (traceCss :: ·) htext

namespace Message
variable {m : Message} {rule : StylingRule}

/-- Whatever highlights mean nothing to finds the same with any highlights. -/
theorem flatMap_items_eq {β : Type} {f : Markup.Item → List β}
    (hf : ∀ on, f (.switch .changed on) = []) (m : Message) (highlights highlights' : Highlights) :
    (m.items highlights).flatMap f = (m.items highlights').flatMap f := by
  rw [flatMap_items hf, flatMap_items hf]

theorem shownSymbols_singleSymbols (m : Message) (highlights highlights' : Highlights) :
    shownSymbols (m.singleSymbols highlights) = shownSymbols (m.singleSymbols highlights') := by
  unfold singleSymbols shownSymbols
  rw [List.filter_flatMap, List.filter_flatMap]
  exact flatMap_items_eq (fun _ => rfl) m highlights highlights'

theorem showsAs_console (h : rule m.values = false) (highlights highlights' : Highlights)
    (trace : Option String) :
    (m.typeset highlights trace ⟨.console, rule⟩).ShowsAs
      (m.typeset highlights' trace ⟨.console, rule⟩) := by
  have hbody := shownSymbols_singleSymbols m highlights highlights'
  unfold singleSymbols at hbody
  rw [typeset_styled h, typeset_styled h]
  apply Line.showsAs_of_shownSymbols
  rw [shownSymbols_append, shownSymbols_append, Markup.bodySymbols, Markup.bodySymbols,
    shownSymbols_joinStyles, shownSymbols_joinStyles, hbody]

/-- A reading sets the styles of its marks, and a pair around each value that is set off. -/
theorem filterMap_style?_items (m : Message) (highlights : Highlights) :
    ((m.items highlights).flatMap Markup.Item.console).filterMap Symbol.style? =
      m.events.zipIdx.flatMap fun e => e.1.filterMap Markup.Event.css? ++
        if m.setsOff highlights e.2 then Markup.highlightStyles else [] := by
  rw [items_eq, List.flatMap_assoc, List.filterMap_flatMap, Markup.flatMap_cuesFrom]
  apply List.flatMap_congr
  intro e _
  rw [Markup.filterMap_style?_segmentEnd, List.filterMap_eq_flatMap_toList]
  congr 1
  apply List.flatMap_congr
  intro event _
  rw [Markup.Cue.items, List.flatMap_singleton]
  exact Markup.filterMap_style?_event event

theorem css_console (h : rule m.values = false) (highlights : Highlights)
    (trace : Option String) :
    (m.typeset highlights trace ⟨.console, rule⟩).css =
      String.join (m.styleRow highlights trace) := by
  have hfuses : Fuses ((m.items highlights).flatMap Markup.Item.console)
      (joinStyles ((m.items highlights).flatMap Markup.Item.console)) := fuses_iff.mpr rfl
  rw [typeset_styled h, Line.css_ofSymbols, List.filterMap_append, String.join_append,
    Markup.bodySymbols, hfuses.join_style?_eq, filterMap_style?_items,
    filterMap_style?_traceSymbols, styleRow, String.join_append]

theorem typeset_eq (m : Message) {screen : Screen}
    (h : screen.medium = .terminal ∨ screen.refuses m.values = true)
    (highlights highlights' : Highlights) (trace : Option String) :
    m.typeset highlights trace screen = m.typeset highlights' trace screen := by
  cases hr : screen.refuses m.values with
  | true => rw [typeset, typeset, if_pos hr, if_pos hr]
  | false =>
      obtain ⟨medium, rule⟩ := screen
      have hstyled : rule m.values = false := hr
      obtain rfl : medium = .terminal := h.resolve_right (by simp [hstyled])
      rw [typeset_styled hstyled, typeset_styled hstyled, Markup.bodySymbols, Markup.bodySymbols,
        flatMap_items_eq (fun _ => rfl) m highlights highlights']

theorem items_congr {highlights highlights' : Highlights}
    (h : ∀ i < m.segments.length, i < m.values.length →
      highlights.marks i = highlights'.marks i) : m.items highlights = m.items highlights' := by
  rw [items_eq, items_eq]
  apply List.flatMap_congr
  intro c hc
  cases c with
  | event e => rfl
  | segmentEnd i =>
      have hi := Markup.lt_of_segmentEnd_mem hc
      rw [events, Markup.length_eventsOfSegments] at hi
      rw [Markup.Cue.items, Markup.Cue.items]
      cases hv : m.values[i]? with
      | none => rfl
      | some v =>
          obtain ⟨hlt, -⟩ := List.getElem?_eq_some_iff.mp hv
          rw [h i (by omega) hlt]

/-- Highlights change nothing but the styles of a console: the text and the objects of a line stay,
and so does all of a line on a terminal and of one without styles. On a console the styles in a row
are those of the marks, with a pair for each position that is highlighted and has a segment and a
value; what is highlighted elsewhere means nothing. -/
theorem typeset_restyles (m : Message) (trace : Option String) (screen : Screen)
    (highlights highlights' : Highlights) :
    (m.typeset highlights trace screen).ShowsAs (m.typeset highlights' trace screen) ∧
      (screen.medium = .terminal ∨ screen.refuses m.values = true →
        m.typeset highlights trace screen = m.typeset highlights' trace screen) ∧
      (screen.medium = .console → screen.refuses m.values = false →
        (m.typeset highlights trace screen).css = String.join (m.styleRow highlights trace) ∧
          (m.typeset highlights' trace screen).css =
            String.join (m.styleRow highlights' trace)) ∧
      ((∀ i < m.segments.length, i < m.values.length →
          highlights.marks i = highlights'.marks i) →
        m.typeset highlights trace screen = m.typeset highlights' trace screen) := by
  have hsame (h : screen.medium = .terminal ∨ screen.refuses m.values = true) :=
    typeset_eq m h highlights highlights' trace
  obtain ⟨medium, rule⟩ := screen
  refine ⟨?_, hsame, ?_, ?_⟩
  · cases hr : rule m.values with
    | true =>
        rw [hsame (.inr hr)]
        exact ⟨rfl, rfl⟩
    | false =>
        cases medium with
        | terminal =>
            rw [hsame (.inl rfl)]
            exact ⟨rfl, rfl⟩
        | console => exact showsAs_console hr highlights highlights' trace
  · rintro rfl hr
    exact ⟨css_console hr highlights trace, css_console hr highlights' trace⟩
  · intro h
    rw [typeset, typeset, typesetStyled, typesetStyled, items_congr h]

/-- A value set off at the edge of bold text, an object, and marks without a value. -/
theorem typeset_restyles_edge :
    let m : Message := ⟨["a **", "** b ", ""], [.int 5, .object ⟨0, "o"⟩]⟩
    let bold := (Markup.Style.marker .bold).css
    let changed := Markup.Style.changed.css
    (m.typeset (.ofList [0]) none .console).ShowsAs (m.typeset .none none .console) ∧
      (m.typeset (.ofList [0]) none .console).css =
        bold true ++ (changed true ++ (changed false ++ bold false)) ∧
      (m.typeset .none none .console).css = bold true ++ bold false ∧
      m.typeset (.ofList [0]) none .console ≠ m.typeset .none none .console ∧
      m.typeset (.ofList [2, 7]) none .console = m.typeset .none none .console := by
  intro m bold changed
  obtain ⟨hshows, -, hcss, -⟩ := typeset_restyles m none .console (.ofList [0]) .none
  obtain ⟨-, -, -, hsame⟩ := typeset_restyles m none .console (.ofList [2, 7]) .none
  obtain ⟨hmarked, hplain⟩ := hcss rfl rfl
  have hne : m.typeset (.ofList [0]) none .console ≠ m.typeset .none none .console := by
    intro he
    have hstyles := hmarked.symm.trans ((congrArg Line.css he).trans hplain)
    revert hstyles
    decide
  exact ⟨hshows, hmarked.trans rfl, hplain.trans rfl, hne, hsame (by decide)⟩

end Message
end RenderLog
