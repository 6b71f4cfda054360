import Mathlib.Data.List.Induction
import RenderLog.Proofs.Display

/-!
# Pens of a terminal

A terminal writes each character with its pen and changes the pen where it reads an
escape sequence. A line tells it to change the pen at each switch of a style, and nothing
else in the line does: segments are taken without escape characters, and a value that is
written into a line never has one.

Italic text and colour follow the open markers. Bold text and code share the weight, and
leaving either takes the weight away, so the weight follows the last switch of the two. It
is not what the open markers ask for where one of the two was left and the other is open.
-/
namespace RenderLog

section Terminal

structure Pen where
  bold : Bool
  dim : Bool
  italic : Bool
  coloured : Bool
  deriving DecidableEq, Repr

namespace Pen

def plain : Pen := ⟨false, false, false, false⟩

def set (p : Pen) : Nat → Pen
  | 1 => {p with bold := true}
  | 2 => {p with dim := true}
  | 3 => {p with italic := true}
  | 22 => {p with bold := false, dim := false}
  | 23 => {p with italic := false}
  | 39 => {p with coloured := false}
  | 96 => {p with coloured := true}
  | _ => p

end Pen

def escapeChar : Char := '\x1b'

/-- What a terminal is reading: text, what follows an escape character, or a number. -/
inductive Reading where
  | text
  | escape
  | number (n : Nat)
  deriving DecidableEq, Repr

/-- The characters that a terminal writes, each with its pen. -/
def written (p : Pen) : Reading → List Char → List (Char × Pen)
  | _, [] => []
  | .text, c :: rest =>
    if c = escapeChar then written p .escape rest else (c, p) :: written p .text rest
  | .escape, c :: rest => written p (if c = '[' then .number 0 else .text) rest
  | .number n, c :: rest =>
    if c.isDigit then written p (.number (10 * n + (c.toNat - '0'.toNat))) rest
    else if c = ';' then written (p.set n) (.number 0) rest
    else written (if c = 'm' then p.set n else p) .text rest

end Terminal

namespace Markup

def Item.event? : Item → Option Event
  | .literal c => some (.literal c)
  | .switch (.marker m) on => some (.toggle m on)
  | _ => none

def Item.weight? : Item → Option Bool
  | .switch (.marker .bold) on => some on
  | .switch (.marker .code) on => some on
  | _ => none

def openAfter (before : List Item) : OpenMarkers :=
  OpenMarkers.none.after (before.filterMap Item.event?)

def lastWeight (before : List Item) : Option Bool := (before.filterMap Item.weight?).getLast?

/-- The pen that the open markers ask for. -/
def markersPen (before : List Item) : Pen :=
  let s := openAfter before
  ⟨s.bold || s.code, false, s.italic, s.code⟩

/-- The pen with the weight of the last switch of bold text or of code. -/
def switchesPen (before : List Item) : Pen :=
  {markersPen before with bold := lastWeight before == some true}

/-- What an item puts into the format of a terminal line. -/
def Item.format (i : Item) : List Char := spell (i.terminal.map (Symbol.map Arg.directive))

/-- What the terminal writes for an item: a switch is nothing to it but a change of the pen. -/
def Item.chars : Item → List Char
  | .switch _ _ => []
  | i => i.format

/-- The characters of items, each with the pen for the items in front of its own. -/
def drawn (pen : List Item → Pen) (before : List Item) : List Item → List (Char × Pen)
  | [] => []
  | i :: rest => i.chars.map (fun c => (c, pen before)) ++ drawn pen (before ++ [i]) rest

end Markup

/-- On a terminal every character of the segments and of the values is written with the pen for
the items in front of it. Behind them is written nothing but the call site. -/
def Message.DrawnWith (pen : List Markup.Item → Pen) (m : Message) : Prop :=
  ∀ (highlights : Highlights) (trace : Option String) (rule : StylingRule),
    rule m.values = false → ∃ format args behind,
      m.typeset highlights trace ⟨.terminal, rule⟩ = .styled format args ∧
        written .plain .text format.toList =
          Markup.drawn pen [] (m.items highlights) ++ behind ∧
        (shownTrace trace = none → behind = [])

section Inline
variable {digits : List Char}

theorem escapeChar_notMem_natText (n : Nat) : escapeChar ∉ Number.natText n := by
  intro h
  have hdigit : escapeChar.isDigit = true := Nat.isDigit_of_mem_toDigits (by omega) (by omega) h
  cases hdigit

theorem escapeChar_notMem_positional (h : escapeChar ∉ digits) (exponent : Int) :
    escapeChar ∉ Number.positional digits exponent := by
  have hpoint : escapeChar ≠ '.' := by decide
  have hzero : escapeChar ≠ '0' := by decide
  have htake (n : Nat) : escapeChar ∉ digits.take n := fun hm => h (List.mem_of_mem_take hm)
  have hdrop (n : Nat) : escapeChar ∉ digits.drop n := fun hm => h (List.mem_of_mem_drop hm)
  unfold Number.positional
  split
  · simp [h, hpoint, hzero]
  · dsimp only
    split
    · simp [h, hpoint, hzero]
    · simp [htake, hdrop, hpoint]

theorem escapeChar_notMem_scientific (h : escapeChar ∉ digits) (first : Int) :
    escapeChar ∉ Number.scientific digits first := by
  have hpoint : escapeChar ≠ '.' := by decide
  have hletter : escapeChar ≠ 'e' := by decide
  have hsign : escapeChar ≠ if first < 0 then '-' else '+' := by
    split <;> decide
  unfold Number.scientific
  match digits with
  | [] => simp [hletter, hsign, escapeChar_notMem_natText]
  | [_] | _ :: _ :: _ => simpa [hpoint, hletter, hsign, escapeChar_notMem_natText] using h

theorem escapeChar_notMem_text (n : Number) : escapeChar ∉ n.text := by
  have hminus : escapeChar ≠ '-' := by decide
  cases n with
  | int n =>
      rw [Number.text, Number.intText]
      split
      · exact List.not_mem_cons_of_ne_of_not_mem hminus (escapeChar_notMem_natText _)
      · exact escapeChar_notMem_natText _
  | float x =>
      have hdecimal (d : Number.Decimal) : escapeChar ∉ d.text Number.layout := by
        rw [Number.Decimal.text]
        split
        · exact escapeChar_notMem_positional (escapeChar_notMem_natText _) _
        · exact escapeChar_notMem_scientific (escapeChar_notMem_natText _) _
      rw [Number.text, Number.Binary64.text]
      split
      · exact List.not_mem_cons_of_ne_of_not_mem hminus (hdecimal _)
      · exact hdecimal _

theorem escapeChar_notMem_escape (d : Char) : escapeChar ∉ Text.escape d := by
  have hshort : ∀ e ∈ Text.shortEscapes, escapeChar ≠ e.2 := by
    unfold Text.shortEscapes
    simp [escapeChar]
  unfold Text.escape
  split
  · next letter hletter =>
      obtain ⟨front, back, hsplit, -⟩ := List.lookup_eq_some_iff.mp hletter
      have hne : escapeChar ≠ letter := hshort (d, letter) (by simp [hsplit])
      have hslash : escapeChar ≠ '\x5c' := by decide
      simp [hslash, hne]
  · split
    · next =>
        have hdigit (n : Nat) : escapeChar ≠ Nat.digitChar n :=
          (Nat.digitChar_ne _ (by decide)).symm
        have hletters : escapeChar ∉ ['\x5c', 'u', '0', '0'] := by decide
        simpa [hdigit] using hletters
    · next hlarge =>
        -- The escape character is itself written by its code.
        intro he
        rw [← List.mem_singleton.mp he] at hlarge
        exact hlarge (by decide)

theorem escapeChar_notMem_quoted (cs : List Char) : escapeChar ∉ Text.quoted cs := by
  have hquote : escapeChar ≠ '\x22' := by decide
  unfold Text.quoted
  simp [hquote, escapeChar_notMem_escape]

theorem Value.escapeChar_notMem_inline {v : Value} (h : v.object? = none) :
    escapeChar ∉ v.inline.toList := by
  cases v with
  | null => decide
  | bool b => cases b <;> decide
  | number n =>
      have htext : (Value.number n).inline.toList = n.text := String.toList_ofList
      rw [htext]
      exact escapeChar_notMem_text n
  | text s =>
      have htext : (Value.text s).inline.toList = Text.quoted s.toList := String.toList_ofList
      rw [htext]
      exact escapeChar_notMem_quoted _
  | object o => cases h

end Inline

namespace Markup

theorem written_append_text {cs : List Char} (h : escapeChar ∉ cs) (p : Pen)
    (rest : List Char) :
    written p .text (cs ++ rest) = cs.map (fun c => (c, p)) ++ written p .text rest := by
  induction cs with
  | nil => rfl
  | cons c cs ih =>
      have hc : c ≠ escapeChar := (List.ne_of_not_mem_cons h).symm
      have hcs := ih (List.not_mem_of_not_mem_cons h)
      rw [List.cons_append, written, if_neg hc, hcs]
      rfl

/-- The numbers in the escape sequences of a switch. -/
def Style.codes : Style → Bool → List Nat
  | .marker .bold, true => [1]
  | .marker .bold, false => [22]
  | .marker .italic, true => [3]
  | .marker .italic, false => [23]
  | .marker .code, true => [96, 1]
  | .marker .code, false => [39, 22]
  | .changed, _ => []

theorem written_escape (p : Pen) (s : Style) (on : Bool) (rest : List Char) :
    written p .text ((s.escape on).toList ++ rest) =
      written ((s.codes on).foldl Pen.set p) .text rest := by
  match s, on with
  | .marker .bold, true | .marker .bold, false | .marker .italic, true | .marker .italic, false
  | .marker .code, true | .marker .code, false | .changed, true | .changed, false => rfl

theorem openAfter_concat (before : List Item) (i : Item) :
    openAfter (before ++ [i]) = i.event?.elim (openAfter before) (openAfter before).step := by
  rw [openAfter, List.filterMap_append, OpenMarkers.after, List.foldl_append]
  match i with
  | .literal _ | .switch (.marker _) _ | .switch .changed _ | .value _ => rfl

theorem lastWeight_concat (before : List Item) (i : Item) :
    lastWeight (before ++ [i]) = i.weight?.or (lastWeight before) := by
  rw [lastWeight, List.filterMap_append, List.getLast?_append]
  cases h : i.weight? <;> simp [h, lastWeight]

/-- A switch takes the pen from the items in front of it to the pen behind it. -/
theorem foldl_codes (before : List Item) (s : Style) (on : Bool) :
    (s.codes on).foldl Pen.set (switchesPen before) = switchesPen (before ++ [.switch s on]) := by
  unfold switchesPen markersPen
  rw [openAfter_concat, lastWeight_concat]
  match s, on with
  | .marker .bold, true | .marker .bold, false | .marker .italic, true | .marker .italic, false
  | .marker .code, true | .marker .code, false | .changed, true | .changed, false => rfl

theorem switchesPen_concat_of_not_switch (before : List Item) {i : Item}
    (h : ∀ s on, i ≠ .switch s on) : switchesPen (before ++ [i]) = switchesPen before := by
  unfold switchesPen markersPen
  rw [openAfter_concat, lastWeight_concat]
  match i with
  | .literal _ | .value _ => rfl
  | .switch s on => exact (h s on rfl).elim

theorem mem_of_mem_escapePercent {cs : List Char} {c : Char} (h : c ∈ Draft.escapePercent cs) :
    c ∈ cs := by
  obtain ⟨d, hd, hc⟩ := List.mem_flatMap.mp h
  split at hc
  · next hpercent =>
      have hc' : c = '%' := by simpa using hc
      rw [hc', ← hpercent]
      exact hd
  · rw [List.mem_singleton.mp hc]
    exact hd

theorem format_switch (s : Style) (on : Bool) :
    (Item.switch s on).format = (s.escape on).toList := by
  match s, on with
  | .marker .bold, true | .marker .bold, false | .marker .italic, true | .marker .italic, false
  | .marker .code, true | .marker .code, false | .changed, true | .changed, false => rfl

/-- What is shown brings no escape character into a format. -/
theorem escapeChar_notMem_format {i : Item} (hs : ∀ s on, i ≠ .switch s on)
    (hliteral : i ≠ .literal escapeChar) : escapeChar ∉ i.format := by
  intro hc
  unfold Item.format at hc
  cases i with
  | literal d =>
      have hd : escapeChar ∈ Draft.escapePercent [d] := by
        rw [← spell_map_shown]
        exact hc
      rw [List.mem_singleton.mp (mem_of_mem_escapePercent hd)] at hliteral
      exact hliteral rfl
  | switch s on => exact (hs s on rfl).elim
  | value v =>
      rw [Item.terminal] at hc
      cases hv : v.object? with
      | none =>
          rw [Value.symbols_of_primitive hv, map_map_shown, spell_map_shown] at hc
          exact Value.escapeChar_notMem_inline hv (mem_of_mem_escapePercent hc)
      | some o =>
          rw [Value.symbols_of_object hv] at hc
          have hobject : escapeChar ∉ ['%', 'o'] := by decide
          exact hobject hc

/-- A terminal that reads the items of a line writes each of them with the pen of the switches in
front of it. -/
theorem written_items (before items : List Item) (rest : List Char)
    (h : .literal escapeChar ∉ items) :
    written (switchesPen before) .text (items.flatMap Item.format ++ rest) =
      drawn switchesPen before items ++
        written (switchesPen (before ++ items)) .text rest := by
  induction items generalizing before with
  | nil =>
      rw [List.append_nil]
      rfl
  | cons i items ih =>
      have hitems := ih (before ++ [i]) (List.not_mem_of_not_mem_cons h)
      rw [List.append_assoc, List.singleton_append] at hitems
      rw [List.flatMap_cons, List.append_assoc]
      by_cases hs : ∃ s on, i = .switch s on
      · obtain ⟨s, on, rfl⟩ := hs
        rw [format_switch, written_escape, foldl_codes, hitems]
        rfl
      · have hnot : ∀ s on, i ≠ .switch s on := fun s on he => hs ⟨s, on, he⟩
        have hchars : i.chars = i.format := by
          match i with
          | .literal _ | .value _ => rfl
          | .switch s on => exact (hnot s on rfl).elim
        have hplain := escapeChar_notMem_format hnot (List.ne_of_not_mem_cons h).symm
        rw [written_append_text hplain, drawn, hchars, List.append_assoc, ← hitems,
          switchesPen_concat_of_not_switch before hnot]

theorem Strips.mem_of_literal {events : List Event} {cs kept : List Char} {c : Char}
    (h : Strips events cs kept) (hc : .literal c ∈ events) : c ∈ cs := by
  induction h with
  | done => exact (List.not_mem_nil hc).elim
  | literal _ ih =>
      rcases List.mem_cons.mp hc with he | hrest
      · cases he
        exact List.mem_cons_self
      · exact List.mem_cons_of_mem _ (ih hrest)
  | toggle _ _ ih =>
      rcases List.mem_cons.mp hc with he | hrest
      · cases he
      · exact List.mem_append_right _ (ih hrest)

theorem mem_of_literal_mem_events {s : OpenMarkers} {cs : List Char} {c : Char}
    (h : .literal c ∈ Markup.events s cs) : c ∈ cs := by
  have hscan : Scans s none cs (Markup.events s cs) (s.after (Markup.events s cs)) :=
    scans_iff.mpr ⟨rfl, rfl⟩
  obtain ⟨kept, hstrips⟩ := hscan.strips
  exact hstrips.mem_of_literal h

theorem literal_mem_map_ofEvent {c : Char} {events : List Event}
    (h : .literal c ∈ events.map Item.ofEvent) : .literal c ∈ events := by
  obtain ⟨e, he, heq⟩ := List.mem_map.mp h
  cases e with
  | literal d =>
      cases heq
      exact he
  | toggle m on => cases heq

theorem mem_segment_of_literal {c : Char} {highlights : Highlights} {i : Nat} {s : OpenMarkers}
    {segments : List String} {values : List Value}
    (h : .literal c ∈ interleave highlights i (eventsOfSegments s segments) values) :
    ∃ segment ∈ segments, c ∈ segment.toList := by
  induction segments generalizing s i values with
  | nil => exact (List.not_mem_nil h).elim
  | cons segment rest ih =>
      rw [eventsOfSegments] at h
      have hhere (he : .literal c ∈ (Markup.events s segment.toList).map Item.ofEvent) :
          ∃ segment' ∈ segment :: rest, c ∈ segment'.toList :=
        ⟨segment, List.mem_cons_self, mem_of_literal_mem_events (literal_mem_map_ofEvent he)⟩
      have hlater {j : Nat} {t : OpenMarkers} {more : List Value}
          (he : .literal c ∈ interleave highlights j (eventsOfSegments t rest) more) :
          ∃ segment' ∈ segment :: rest, c ∈ segment'.toList := by
        obtain ⟨segment', hmem, hc⟩ := ih he
        exact ⟨segment', List.mem_cons_of_mem _ hmem, hc⟩
      cases values with
      | nil =>
          rw [interleave] at h
          exact (List.mem_append.mp h).elim hhere hlater
      | cons v values =>
          rw [interleave] at h
          rcases List.mem_append.mp h with hfront | hrest
          · rcases List.mem_append.mp hfront with he | hvalue
            · exact hhere he
            · apply absurd hvalue
              cases highlights.marks i <;> simp [Item.ofValue]
          · exact hlater hrest

/-- The weight of the last switch against the open markers. -/
theorem lastWeight_cases (before : List Item) :
    (lastWeight before = some true ∧
        ((openAfter before).bold || (openAfter before).code) = true) ∨
      (lastWeight before = some false ∧
        ((openAfter before).bold && (openAfter before).code) = false) ∨
      (lastWeight before = none ∧
        ((openAfter before).bold || (openAfter before).code) = false) := by
  induction before using List.reverseRecOn with
  | nil => exact .inr (.inr ⟨rfl, rfl⟩)
  | append_singleton before i ih =>
      rw [openAfter_concat, lastWeight_concat]
      match i with
      | .literal _ | .value _ | .switch .changed _ | .switch (.marker .italic) _ => exact ih
      | .switch (.marker .bold) true => exact .inl ⟨rfl, rfl⟩
      | .switch (.marker .code) true => exact .inl ⟨rfl, Bool.or_true _⟩
      | .switch (.marker .bold) false => exact .inr (.inl ⟨rfl, rfl⟩)
      | .switch (.marker .code) false => exact .inr (.inl ⟨rfl, Bool.and_false _⟩)

/-- The pen is not what the open markers ask for exactly where the last switch left one of bold text
and code with the other open. -/
theorem switchesPen_ne_iff (before : List Item) :
    switchesPen before ≠ markersPen before ↔
      lastWeight before = some false ∧ (openAfter before).bold ≠ (openAfter before).code := by
  have hpen : switchesPen before = markersPen before ↔
      (lastWeight before == some true) = ((openAfter before).bold || (openAfter before).code) := by
    simp [switchesPen, markersPen]
  rw [Ne, hpen]
  rcases lastWeight_cases before with ⟨hw, hs⟩ | ⟨hw, hs⟩ | ⟨hw, hs⟩
  · simp [hw, hs]
  · rw [hw]
    revert hs
    cases (openAfter before).bold <;> cases (openAfter before).code <;> decide
  · simp [hw, hs]

end Markup

namespace Message
open Markup

theorem spell_bodySymbols_terminal (items : List Item) :
    spell ((bodySymbols items .terminal).map (Symbol.map Arg.directive)) =
      items.flatMap Item.format := by
  induction items with
  | nil => rfl
  | cons i items ih =>
      rw [List.flatMap_cons, ← ih, bodySymbols, bodySymbols, List.flatMap_cons, List.map_append,
        spell_append]
      rfl

/-- On a terminal every character is written in italics while Italic is open, in colour while Code
is open, and in bold when the last switch of Bold or Code in front of it was an opening. That is
not what the open markers ask for where that switch left one of the two with the other open. -/
theorem drawnWith_switchesPen {m : Message}
    (h : ∀ segment ∈ m.segments, escapeChar ∉ segment.toList) :
    m.DrawnWith switchesPen ∧ ∀ before,
      switchesPen before ≠ markersPen before ↔
        lastWeight before = some false ∧ (openAfter before).bold ≠ (openAfter before).code := by
  refine ⟨?_, switchesPen_ne_iff⟩
  intro highlights trace rule hrule
  let place := spell ((traceSymbols trace .terminal).map (Symbol.map Arg.directive))
  let args := (bodySymbols (m.items highlights) .terminal ++
    traceSymbols trace .terminal).filterMap Symbol.directive?
  have hline : m.typeset highlights trace ⟨.terminal, rule⟩ =
      .styled (String.ofList ((m.items highlights).flatMap Item.format ++ place)) args := by
    rw [typeset_styled hrule, Line.ofSymbols, List.map_append, spell_append,
      spell_bodySymbols_terminal]
  have hliteral : .literal escapeChar ∉ m.items highlights := by
    intro hc
    obtain ⟨segment, hmem, hseg⟩ := mem_segment_of_literal hc
    exact h segment hmem hseg
  refine ⟨_, args, written (switchesPen (m.items highlights)) .text place, hline, ?_, ?_⟩
  · rw [String.toList_ofList]
    exact written_items [] (m.items highlights) place hliteral
  · intro htrace
    have hnone : traceSymbols trace .terminal = [] := by rw [traceSymbols, htrace, Option.elim_none]
    have hplace : place = [] := by simp only [place, hnone, List.map_nil, spell_nil]
    rw [hplace]
    rfl

/-- Code around a value in bold text: the text behind the code is not bold. -/
theorem drawnWith_switchesPen_nested :
    let m : Message := ⟨["**a \x60", "\x60 c** *d*"], [.int 5]⟩
    let code : Pen := {Pen.plain with bold := true, coloured := true}
    let bold : Pen := {Pen.plain with bold := true}
    let italic : Pen := {Pen.plain with italic := true}
    (∀ segment ∈ m.segments, escapeChar ∉ segment.toList) ∧
      ∃ format args, m.typeset .none none .terminal = .styled format args ∧
        written .plain .text format.toList =
          [('a', bold), (' ', bold), ('5', code), (' ', .plain), ('c', .plain), (' ', .plain),
            ('d', italic)] := by
  intro m code bold italic
  have h : ∀ segment ∈ m.segments, escapeChar ∉ segment.toList := by decide
  obtain ⟨format, args, behind, hline, hwritten, hbehind⟩ :=
    (drawnWith_switchesPen h).1 .none none .lenient rfl
  refine ⟨h, format, args, hline, ?_⟩
  rw [hwritten, hbehind rfl, List.append_nil]
  decide

/-- The text behind code in bold text is not written in bold, though Bold is open. -/
theorem not_drawnWith_markersPen :
    ¬ ∀ m : Message, (∀ segment ∈ m.segments, escapeChar ∉ segment.toList) →
      (∀ v ∈ m.values, escapeChar ∉ v.inline.toList) → m.DrawnWith markersPen := by
  intro hall
  let m : Message := .ofText "**a \x60b\x60 c**"
  have h : ∀ segment ∈ m.segments, escapeChar ∉ segment.toList := by decide
  obtain ⟨format, args, behind, hline, hwritten, hbehind⟩ :=
    hall m h (by simp [m, ofText]) .none none .lenient rfl
  have hformat : "\x1b[1ma \x1b[96m\x1b[1mb\x1b[39m\x1b[22m c\x1b[22m" = format := by
    have hformat? := congrArg Line.format? hline
    exact Option.some.inj hformat?
  rw [← hformat, hbehind rfl, List.append_nil] at hwritten
  revert hwritten
  decide

end Message
end RenderLog
