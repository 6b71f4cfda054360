import RenderLog.Proofs.Directives
import RenderLog.Proofs.Scan

/-!
# Three renderings of one reading

The segments of a message are read once, by the rule of the marks. A terminal
line, a console line and a plain line are made from that reading: the terminal
has an escape sequence where a style is switched, the console a directive with
the style, and a plain line nothing. Styles that meet on a console share one
directive, and a plain line lacks the blanks around values.

Which marks switch is settled by the segments alone, before values, highlights,
call site and screen are looked at.
-/
namespace RenderLog

def Value.symbols : Value → List (Symbol Arg)
  | .object o => [.directive (.object o)]
  | v => v.inline.toList.map .shown

namespace Markup

/-- For each style, whether it goes on or off: its escape sequence and its declarations. -/
def styleTable : List (Style × Bool × String × String) :=
  [(.marker .bold, true, "\x1b[1m", "font-weight: bold;"),
    (.marker .bold, false, "\x1b[22m", "font-weight: normal;"),
    (.marker .italic, true, "\x1b[3m", "font-style: italic;"),
    (.marker .italic, false, "\x1b[23m", "font-style: normal;"),
    (.marker .code, true, "\x1b[96m\x1b[1m",
      "background: hsla(0,0%,70%,.3); border-radius:3px; padding: 0 2px;"),
    (.marker .code, false, "\x1b[39m\x1b[22m", "background: unset;"),
    (.changed, true, "",
      "text-decoration: underline; text-decoration-color: green; " ++
        "text-decoration-style: wavy; padding-bottom: 1px; text-decoration-skip-ink: none;"),
    (.changed, false, "", "text-decoration: none; padding-bottom: 0;")]

/-- The table has one row for each style and switch. -/
theorem mem_styleTable_iff {style : Style} {on : Bool} {escape css : String} :
    (style, on, escape, css) ∈ styleTable ↔ escape = style.escape on ∧ css = style.css on := by
  have hrows : styleTable =
      [.marker .bold, .marker .italic, .marker .code, .changed].flatMap fun style =>
        [true, false].map fun on => (style, on, style.escape on, style.css on) := rfl
  have hstyle : style ∈ [.marker .bold, .marker .italic, .marker .code, .changed] := by
    cases style with
    | marker m => cases m <;> simp
    | changed => simp
  rw [hrows, List.mem_flatMap]
  constructor
  · rintro ⟨style, -, h⟩
    obtain ⟨on, -, h⟩ := List.mem_map.mp h
    cases h
    exact ⟨rfl, rfl⟩
  · rintro ⟨rfl, rfl⟩
    exact ⟨style, hstyle, List.mem_map.mpr ⟨on, by cases on <;> simp, rfl⟩⟩

/-- On a terminal a style is switched by an escape sequence. -/
def Item.terminal : Item → List (Symbol Arg)
  | .literal c => [.shown c]
  | .switch s on => (s.escape on).toList.map .shown
  | .value v => v.symbols

/-- On a console a style is switched by the argument of a directive. -/
def Item.console : Item → List (Symbol Arg)
  | .literal c => [.shown c]
  | .switch s on => [.directive (.style (s.css on))]
  | .value v => v.symbols

/-- What a cue stands for in a styled line; at the end of a segment that is its value. -/
def Cue.items (values : List Value) (highlights : Highlights) : Cue → List Item
  | .event e => [.ofEvent e]
  | .segmentEnd i =>
    match values[i]? with
    | some v => Item.ofValue v (highlights.marks i)
    | none => []

end Markup

/-- A style in front of symbols, joined with a style that they start with. -/
def leadStyle (css : String) : List (Symbol Arg) → List (Symbol Arg)
  | .directive (.style more) :: rest => .directive (.style (css ++ more)) :: rest
  | symbols => .directive (.style css) :: symbols

/-- Styles without anything between them become one. -/
def joinStyles : List (Symbol Arg) → List (Symbol Arg)
  | [] => []
  | .directive (.style css) :: rest => leadStyle css (joinStyles rest)
  | s :: rest => s :: joinStyles rest

/-- The call site at the end of a styled line. -/
def placeSymbols (place : String) : Medium → List (Symbol Arg)
  | .terminal => ("  \x1b[2m".toList ++ traceText place ++ "\x1b[22m".toList).map .shown
  | .console => .directive (.style traceCss) :: (traceText place).map .shown

theorem placeSymbols_terminal (place : String) : placeSymbols place .terminal =
    ("  \x1b[2m".toList ++ traceText place ++ "\x1b[22m".toList).map .shown := rfl

theorem placeSymbols_console (place : String) :
    placeSymbols place .console =
      .directive (.style traceCss) :: (traceText place).map .shown := rfl

def traceSymbols (trace : Option String) (medium : Medium) : List (Symbol Arg) :=
  (shownTrace trace).elim [] fun place => placeSymbols place medium

/-- The pieces of the segment at position `i`: its text without the blanks around values,
and its value. -/
def segmentPieces (i : Nat) (value : Option Value) (text : List Char) : List Piece :=
  let text := if value.isSome then Piece.dropBlankEnd text else text
  let text := if i = 0 then text else Piece.dropBlankStart text
  (if text.isEmpty then [] else [.text (String.ofList text)]) ++ (value.map Piece.ofValue).toList

namespace Markup

def bodySymbols (items : List Item) : Medium → List (Symbol Arg)
  | .terminal => items.flatMap Item.terminal
  | .console => joinStyles (items.flatMap Item.console)

def styledLine (cues : List Cue) (values : List Value) (highlights : Highlights)
    (trace : Option String) (medium : Medium) : Line :=
  .ofSymbols (bodySymbols (cues.flatMap (Cue.items values highlights)) medium ++
    traceSymbols trace medium)

/-- The pieces of a reading whose present segment has had the text so far. -/
def plainPieces (values : List Value) (text : List Char) : List Cue → List Piece
  | [] => []
  | .event e :: rest => plainPieces values (text ++ e.literal?.toList) rest
  | .segmentEnd i :: rest => segmentPieces i values[i]? text ++ plainPieces values [] rest

def plainLine (cues : List Cue) (values : List Value) (trace : Option String) : Line :=
  .plain (plainPieces values [] cues ++
    ((shownTrace trace).map fun t => .text (String.ofList (' ' :: traceText t))).toList)

/-- The line of a reading on a screen. -/
def render (cues : List Cue) (values : List Value) (highlights : Highlights)
    (trace : Option String) (screen : Screen) : Line :=
  if screen.refuses values then plainLine cues values trace
  else styledLine cues values highlights trace screen.medium

theorem flatMap_items_events (values : List Value) (highlights : Highlights) (es : List Event) :
    (es.map Cue.event).flatMap (Cue.items values highlights) = es.map Item.ofEvent := by
  induction es with
  | nil => rfl
  | cons e es ih => exact congrArg (Item.ofEvent e :: ·) ih

/-- The items of a message are those of its cues. -/
theorem interleave_drop (highlights : Highlights) (values : List Value) (i : Nat)
    (segments : List (List Event)) :
    interleave highlights i segments (values.drop i) =
      (cuesFrom i segments).flatMap (Cue.items values highlights) := by
  induction segments generalizing i with
  | nil => rfl
  | cons es rest ih =>
      rw [cuesFrom, List.flatMap_append, List.flatMap_cons, flatMap_items_events, ← ih (i + 1)]
      cases hv : values[i]? with
      | none =>
          have hle : values.length ≤ i := List.getElem?_eq_none_iff.mp hv
          rw [List.drop_eq_nil_of_le hle, List.drop_eq_nil_of_le (by omega), interleave]
          simp [Cue.items, hv]
      | some v =>
          obtain ⟨hlt, rfl⟩ := List.getElem?_eq_some_iff.mp hv
          rw [List.drop_eq_getElem_cons hlt, interleave]
          simp [Cue.items, hv]

theorem plainPieces_events (values : List Value) (text : List Char) (es : List Event)
    (rest : List Cue) :
    plainPieces values text (es.map Cue.event ++ rest) =
      plainPieces values (text ++ es.filterMap Event.literal?) rest := by
  induction es generalizing text with
  | nil => simp
  | cons e es ih =>
      rw [List.map_cons, List.cons_append, plainPieces, ih, List.append_assoc]
      cases e <;> rfl

theorem ofEvents_drop (values : List Value) (i : Nat) (segments : List (List Event)) :
    Piece.ofEvents (decide (i = 0)) segments (values.drop i) =
      plainPieces values [] (cuesFrom i segments) := by
  induction segments generalizing i with
  | nil => rfl
  | cons es rest ih =>
      rw [cuesFrom, plainPieces_events, plainPieces, List.nil_append, ← ih (i + 1)]
      cases hv : values[i]? with
      | none =>
          have hle : values.length ≤ i := List.getElem?_eq_none_iff.mp hv
          rw [List.drop_eq_nil_of_le hle, List.drop_eq_nil_of_le (by omega), Piece.ofEvents]
          simp [segmentPieces, Piece.ofSegment]
      | some v =>
          obtain ⟨hlt, rfl⟩ := List.getElem?_eq_some_iff.mp hv
          rw [List.drop_eq_getElem_cons hlt, Piece.ofEvents]
          simp [segmentPieces, Piece.ofSegment]

end Markup

section Inline

theorem Number.natText_ne_nil (n : Nat) : Number.natText n ≠ [] := by
  exact List.ne_nil_of_length_pos Nat.length_toDigits_pos

theorem Number.text_ne_nil (n : Number) : n.text ≠ [] := by
  cases n with
  | int n =>
      rw [Number.text, Number.intText]
      split
      · simp
      · exact natText_ne_nil _
  | float x =>
      have decimal (l : Number.Layout) (d : Number.Decimal) : d.text l ≠ [] := by
        simp only [Number.Decimal.text, Number.positional, Number.scientific]
        split
        · split
          · simp
          · split <;> simp
        · simp
      rw [Number.text, Number.Binary64.text]
      split
      · simp
      · exact decimal _ _

theorem Value.inline_ne_nil {v : Value} (h : v.object? = none) : v.inline.toList ≠ [] := by
  cases v with
  | null => decide
  | bool b => cases b <;> decide
  | number n => simpa [Value.inline, Value.json, Value.display] using n.text_ne_nil
  | text s => simp [Value.inline, Value.json, Text.quoted]
  | object o => cases h

theorem Value.symbols_of_primitive {v : Value} (h : v.object? = none) :
    v.symbols = v.inline.toList.map .shown := by
  cases v with
  | object o => cases h
  | _ => rfl

theorem Value.symbols_of_object {v : Value} {o : Object} (h : v.object? = some o) :
    v.symbols = [.directive (.object o)] := by
  cases v with
  | object p =>
      cases h
      rfl
  | _ => cases h

theorem Value.symbols_ne_nil (v : Value) : v.symbols ≠ [] := by
  cases hv : v.object? with
  | none => simpa [symbols_of_primitive hv] using inline_ne_nil hv
  | some o => simp [symbols_of_object hv]

/-- No value brings a style. -/
theorem Value.ne_style_of_mem_symbols {v : Value} {s : Symbol Arg} (h : s ∈ v.symbols)
    (css : String) : s ≠ .directive (.style css) := by
  cases hv : v.object? with
  | none =>
      rw [symbols_of_primitive hv] at h
      obtain ⟨c, -, rfl⟩ := List.mem_map.mp h
      simp
  | some o =>
      rw [symbols_of_object hv, List.mem_singleton] at h
      simp [h]

end Inline

namespace Draft
variable {d : Draft} {symbols : List (Symbol Arg)}

theorem heldSymbols_of_none (h : d.held = none) : d.heldSymbols = [] := by
  rw [heldSymbols, h]

@[simp] theorem heldSymbols_text (d : Draft) (cs : List Char) : (d.text cs).heldSymbols = [] := by
  obtain ⟨format, args, held⟩ := d
  cases held <;> rfl

@[simp] theorem heldSymbols_object (d : Draft) (o : Object) : (d.object o).heldSymbols = [] := by
  obtain ⟨format, args, held⟩ := d
  cases held <;> rfl

/-- On a terminal no style is held back, and every item is written at once. -/
theorem Consists.items_terminal (h : d.Consists symbols) (hd : d.held = none)
    (items : List Markup.Item) :
    (items.foldl (Draft.item .terminal) d).Consists
        (symbols ++ items.flatMap Markup.Item.terminal) ∧
      (items.foldl (Draft.item .terminal) d).held = none := by
  induction items generalizing d symbols with
  | nil => exact ⟨by simpa using h, hd⟩
  | cons i items ih =>
      have hi : (d.item .terminal i).Consists (symbols ++ i.terminal) ∧
          (d.item .terminal i).held = none := by
        have text (cs : List Char) : (d.text cs).Consists (symbols ++ cs.map Symbol.shown) ∧
            (d.text cs).held = none := by
          have ht := h.text cs
          rw [heldSymbols_of_none hd, List.append_nil] at ht
          refine ⟨ht, ?_⟩
          simp [Draft.text, Draft.flush, hd]
        cases i with
        | literal c => exact text [c]
        | switch s on => exact text (s.escape on).toList
        | value v =>
            cases v with
            | object o =>
                have ho := h.object o
                rw [heldSymbols_of_none hd, List.append_nil] at ho
                refine ⟨ho, ?_⟩
                simp [Draft.item, Draft.object, Draft.flush, hd]
            | _ => exact text _
      rw [List.foldl_cons, List.flatMap_cons, ← List.append_assoc]
      exact ih hi.1 hi.2

section Join
variable {rest : List (Symbol Arg)} {s : Symbol Arg}

theorem leadStyle_leadStyle (a b : String) (symbols : List (Symbol Arg)) :
    leadStyle a (leadStyle b symbols) = leadStyle (a ++ b) symbols := by
  cases symbols with
  | nil => rfl
  | cons s rest =>
      cases s with
      | shown c => rfl
      | directive arg =>
          cases arg with
          | style css => simp only [leadStyle, String.append_assoc]
          | object o => rfl

theorem joinStyles_of_ne (hs : ∀ css, s ≠ .directive (.style css)) (rest : List (Symbol Arg)) :
    joinStyles (s :: rest) = s :: joinStyles rest := by
  rw [joinStyles]
  exact fun css he => hs css he

theorem leadStyle_of_ne (hs : ∀ css, s ≠ .directive (.style css)) (css : String)
    (rest : List (Symbol Arg)) :
    leadStyle css (s :: rest) = .directive (.style css) :: s :: rest := by
  rw [leadStyle]
  exact fun more tail he => hs more (List.cons.inj he).1

/-- Symbols without styles are joined with nothing. -/
theorem joinStyles_append {word : List (Symbol Arg)}
    (hw : ∀ s ∈ word, ∀ css, s ≠ .directive (.style css)) (rest : List (Symbol Arg)) :
    joinStyles (word ++ rest) = word ++ joinStyles rest := by
  induction word with
  | nil => rfl
  | cons s word ih =>
      have hrest := ih fun t ht => hw t (List.mem_cons_of_mem _ ht)
      rw [List.cons_append, joinStyles_of_ne (hw s List.mem_cons_self), hrest, List.cons_append]

theorem joinStyles_style_append {word : List (Symbol Arg)} (hne : word ≠ [])
    (hw : ∀ s ∈ word, ∀ css, s ≠ .directive (.style css)) (css : String)
    (rest : List (Symbol Arg)) :
    joinStyles (.directive (.style css) :: (word ++ rest)) =
      .directive (.style css) :: (word ++ joinStyles rest) := by
  rw [joinStyles, joinStyles_append hw]
  obtain ⟨s, word, rfl⟩ := List.exists_cons_of_ne_nil hne
  rw [List.cons_append, leadStyle_of_ne (hw s List.mem_cons_self)]

theorem joinStyles_shown (cs : List Char) (rest : List (Symbol Arg)) :
    joinStyles (cs.map .shown ++ rest) = cs.map .shown ++ joinStyles rest :=
  joinStyles_append (by simp) rest

theorem joinStyles_held (d : Draft) (hs : ∀ css, s ≠ .directive (.style css))
    (rest : List (Symbol Arg)) :
    joinStyles (d.heldSymbols ++ s :: rest) = d.heldSymbols ++ s :: joinStyles rest := by
  have hcons := joinStyles_of_ne hs rest
  cases hd : d.held with
  | none => simp only [heldSymbols, hd, List.nil_append, hcons]
  | some css =>
      simp only [heldSymbols, hd, List.singleton_append, joinStyles, hcons, leadStyle_of_ne hs]

theorem joinStyles_held_text (d : Draft) {cs : List Char} (hcs : cs ≠ [])
    (rest : List (Symbol Arg)) :
    joinStyles (d.heldSymbols ++ cs.map .shown ++ rest) =
      d.heldSymbols ++ cs.map .shown ++ joinStyles rest := by
  obtain ⟨c, cs, rfl⟩ := List.exists_cons_of_ne_nil hcs
  rw [List.map_cons, List.append_assoc, List.cons_append, joinStyles_held d (by simp),
    joinStyles_shown, List.append_assoc, List.cons_append]

theorem joinStyles_held_style (d : Draft) (css : String) (rest : List (Symbol Arg)) :
    joinStyles ((d.style css).heldSymbols ++ rest) =
      joinStyles (d.heldSymbols ++ .directive (.style css) :: rest) := by
  cases hd : d.held with
  | none => simp [heldSymbols, Draft.style, hd]
  | some held =>
      simp only [heldSymbols, Draft.style, hd, Option.getD_some, List.singleton_append, joinStyles,
        leadStyle_leadStyle]

theorem joinStyles_heldSymbols (d : Draft) : joinStyles d.heldSymbols = d.heldSymbols := by
  unfold heldSymbols
  split <;> rfl

end Join

/-- On a console an item is written behind what is held back, unless it is a style that joins
it. -/
theorem Consists.item_console (h : d.Consists symbols) (i : Markup.Item) :
    ∃ written, (d.item .console i).Consists written ∧ ∀ rest,
      written ++ joinStyles ((d.item .console i).heldSymbols ++ rest) =
        symbols ++ joinStyles (d.heldSymbols ++ i.console ++ rest) := by
  have text {cs : List Char} (hcs : cs ≠ []) (rest : List (Symbol Arg)) :
      symbols ++ d.heldSymbols ++ cs.map .shown ++ joinStyles ((d.text cs).heldSymbols ++ rest) =
        symbols ++ joinStyles (d.heldSymbols ++ cs.map .shown ++ rest) := by
    rw [joinStyles_held_text d hcs, heldSymbols_text]
    simp
  cases i with
  | literal c => exact ⟨_, h.text [c], text (by simp)⟩
  | switch s on =>
      refine ⟨_, h.style (s.css on), fun rest => ?_⟩
      rw [Draft.item, joinStyles_held_style, Markup.Item.console, List.append_assoc]
      rfl
  | value v =>
      cases hv : v.object? with
      | none =>
          rw [item_value_of_primitive d .console hv, Markup.Item.console,
            Value.symbols_of_primitive hv]
          exact ⟨_, h.text _, text (Value.inline_ne_nil hv)⟩
      | some o =>
          rw [item_value_of_object d .console hv, Markup.Item.console, Value.symbols_of_object hv]
          refine ⟨_, h.object o, fun rest => ?_⟩
          rw [heldSymbols_object, List.append_assoc d.heldSymbols, List.singleton_append,
            joinStyles_held d (by simp)]
          simp

/-- On a console styles that meet are joined. -/
theorem Consists.items_console (h : d.Consists symbols) (items : List Markup.Item) :
    ∃ written, (items.foldl (Draft.item .console) d).Consists written ∧
      written ++ (items.foldl (Draft.item .console) d).heldSymbols =
        symbols ++ joinStyles (d.heldSymbols ++ items.flatMap Markup.Item.console) := by
  induction items generalizing d symbols with
  | nil =>
      refine ⟨symbols, h, ?_⟩
      rw [List.foldl_nil, List.flatMap_nil, List.append_nil, joinStyles_heldSymbols]
  | cons i items ih =>
      obtain ⟨written, hw, hrest⟩ := h.item_console i
      obtain ⟨all, ha, he⟩ := ih hw
      refine ⟨all, ha, ?_⟩
      rw [List.foldl_cons, he, hrest, List.flatMap_cons, List.append_assoc]

theorem heldSymbols_flush_style (d : Draft) (css : String) :
    (d.flush.style css).heldSymbols = [.directive (.style css)] := by
  obtain ⟨format, args, held⟩ := d
  cases held <;> simp [heldSymbols, Draft.style, Draft.flush]

/-- The call site is written behind what is held back and joined with nothing. -/
theorem Consists.trace (h : d.Consists symbols) (medium : Medium) (place : String) :
    (d.trace medium place).Consists (symbols ++ d.heldSymbols ++ placeSymbols place medium) ∧
      (d.trace medium place).heldSymbols = [] := by
  cases medium with
  | terminal => exact ⟨h.text _, heldSymbols_text _ _⟩
  | console =>
      have ht := (h.flush.style traceCss).text (traceText place)
      rw [heldSymbols_flush_style, List.append_assoc _ [_]] at ht
      exact ⟨ht, heldSymbols_text _ _⟩

theorem consists_items (items : List Markup.Item) (medium : Medium) :
    ∃ written, (items.foldl (Draft.item medium) empty).Consists written ∧
      written ++ (items.foldl (Draft.item medium) empty).heldSymbols =
        Markup.bodySymbols items medium := by
  cases medium with
  | terminal =>
      obtain ⟨hc, hn⟩ := consists_empty.items_terminal rfl items
      exact ⟨_, hc, by rw [heldSymbols_of_none hn, List.append_nil]; rfl⟩
  | console => exact consists_empty.items_console items

end Draft

namespace Message

theorem items_eq (m : Message) (highlights : Highlights) :
    m.items highlights =
      (Markup.cuesFrom 0 m.events).flatMap (Markup.Cue.items m.values highlights) :=
  Markup.interleave_drop highlights m.values 0 m.events

/-- Whatever highlights mean nothing to finds in a message the events of each segment and the value
behind them. -/
theorem flatMap_items {β : Type} {f : Markup.Item → List β}
    (hf : ∀ on, f (.switch .changed on) = []) (m : Message) (highlights : Highlights) :
    (m.items highlights).flatMap f =
      m.events.zipIdx.flatMap fun e => e.1.flatMap (fun event => f (.ofEvent event)) ++
        m.values[e.2]?.elim [] fun v => f (.value v) := by
  have hvalue (v : Value) (marked : Bool) :
      (Markup.Item.ofValue v marked).flatMap f = f (.value v) := by
    cases marked <;> simp [Markup.Item.ofValue, hf]
  rw [items_eq, List.flatMap_assoc, Markup.flatMap_cuesFrom]
  congr 1
  funext e
  congr 1
  · congr 1
    funext event
    exact List.flatMap_singleton ..
  · rw [Markup.Cue.items]
    cases m.values[e.2]? with
    | none => rfl
    | some v => exact hvalue v _

theorem typesetStyled_eq (m : Message) (highlights : Highlights) (trace : Option String)
    (medium : Medium) :
    m.typesetStyled highlights trace medium =
      Markup.styledLine (Markup.cuesFrom 0 m.events) m.values highlights trace medium := by
  obtain ⟨written, hw, hbody⟩ := Draft.consists_items (m.items highlights) medium
  rw [typesetStyled, Markup.styledLine, traceSymbols, ← items_eq, ← hbody]
  cases shownTrace trace with
  | none =>
      rw [Option.elim_none, List.append_nil]
      exact hw.line.eq_ofSymbols
  | some place =>
      obtain ⟨ht, hn⟩ := hw.trace medium place
      have hl := ht.line.eq_ofSymbols
      rw [hn, List.append_nil] at hl
      exact hl

/-- A line with styles is written from the items of its message. -/
theorem typeset_styled {m : Message} {rule : StylingRule} (h : rule m.values = false)
    (highlights : Highlights) (trace : Option String) (medium : Medium) :
    m.typeset highlights trace ⟨medium, rule⟩ =
      .ofSymbols (Markup.bodySymbols (m.items highlights) medium ++ traceSymbols trace medium) := by
  rw [typeset, if_neg (by simp [h]), typesetStyled_eq, Markup.styledLine, items_eq]

theorem typesetPlain_eq (m : Message) (trace : Option String) :
    m.typesetPlain trace = Markup.plainLine (Markup.cuesFrom 0 m.events) m.values trace := by
  have hpieces : Piece.ofEvents true m.events m.values =
      Markup.plainPieces m.values [] (Markup.cuesFrom 0 m.events) :=
    Markup.ofEvents_drop m.values 0 m.events
  rw [typesetPlain, Markup.plainLine, hpieces]
  cases shownTrace trace with
  | none => rw [Option.map_none, Option.toList_none, List.append_nil]
  | some place => rfl

/-- Segments have one reading, and every line of a message with these segments is made from
it, whatever the values, the highlights, the call site and the screen. What it switches styles with
is written in the table of styles. -/
theorem typeset_of_scan (segments : List String) :
    (∃ cues, (∀ other, Markup.ScansSegments .none 0 segments other ↔ other = cues) ∧
      ∀ (values : List Value) (highlights : Highlights) (trace : Option String) (screen : Screen),
        (⟨segments, values⟩ : Message).typeset highlights trace screen =
          Markup.render cues values highlights trace screen) ∧
    ∀ style on escape css, (style, on, escape, css) ∈ Markup.styleTable ↔
      escape = style.escape on ∧ css = style.css on := by
  refine ⟨⟨Markup.cuesFrom 0 (Markup.eventsOfSegments .none segments),
    fun other => Markup.scansSegments_iff, ?_⟩, fun _ _ _ _ => Markup.mem_styleTable_iff⟩
  intro values highlights trace screen
  rw [typeset, Markup.render]
  split
  · exact typesetPlain_eq _ trace
  · exact typesetStyled_eq _ highlights trace screen.medium

/-- A number set in bold and a word in code, on a terminal, on a console and without styles. -/
theorem typeset_of_scan_word :
    let m : Message := ⟨["say **", "** \x60it\x60"], [.int 3]⟩
    m.typeset .none none .terminal =
        .styled "say \x1b[1m3\x1b[22m \x1b[96m\x1b[1mit\x1b[39m\x1b[22m" [] ∧
      m.typeset .none none .console =
        .styled "say %c3%c %cit%c"
          [.style "font-weight: bold;", .style "font-weight: normal;",
            .style "background: hsla(0,0%,70%,.3); border-radius:3px; padding: 0 2px;",
            .style "background: unset;"] ∧
      m.typeset .none none ⟨.terminal, fun _ => true⟩ =
        .plain [.text "say", .value (.int 3), .text "it"] := by
  intro m
  obtain ⟨⟨cues, hread, hrender⟩, -⟩ := typeset_of_scan m.segments
  obtain rfl : cues = _ := Markup.scansSegments_iff.mp ((hread cues).mpr rfl)
  refine ⟨?_, ?_, ?_⟩
  · rw [hrender]
    decide
  · rw [hrender]
    decide
  · rw [hrender]
    decide

end Message
end RenderLog
