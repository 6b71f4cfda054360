import Mathlib.Data.List.Chain
import RenderLog.Proofs.Display

/-!
# Switches of a message

The marks of a message switch each marker on and off in turn, from one segment to the
next. A marker goes on at the start of a segment, right behind another switch or behind a
boundary, and goes off at the end of a segment or before a boundary. A mark is found in
its segment by the events around it: the text before it is read as the events before the
switch, and the text behind it as those behind.

A value that changed stands alone between the two switches of its highlight.
-/
namespace RenderLog.Markup

section Turns

def Event.switch? (marker : Marker) : Event → Option Bool
  | .literal _ => none
  | .toggle m on => if m = marker then some on else none

def Item.switch? (style : Style) : Item → Option Bool
  | .switch s on => if s = style then some on else none
  | _ => none

/-- Each switch differs from the one before it, the first of them from what was set before. -/
def InTurn (on : Bool) (switches : List Bool) : Prop := List.IsChain (· ≠ ·) (on :: switches)

theorem inTurn_nil (on : Bool) : InTurn on [] := List.isChain_singleton on

theorem inTurn_cons {on next : Bool} {switches : List Bool} :
    InTurn on (next :: switches) ↔ on ≠ next ∧ InTurn next switches := List.isChain_cons_cons

variable {s t : OpenMarkers} {prev : Option Char} {cs : List Char} {events : List Event}

theorem filterMap_switch?_literals (marker : Marker) (cs : List Char) (events : List Event) :
    (cs.map Event.literal ++ events).filterMap (Event.switch? marker) =
      events.filterMap (Event.switch? marker) := by
  induction cs with
  | nil => rfl
  | cons c cs ih => exact ih

/-- A switch of the marker keeps the turns, and that of another marker is none. -/
theorem inTurn_toggle {marker m : Marker} {on : Bool} {more : List Bool}
    (hs : s.isOpen m = !on)
    (hmore : InTurn ((s.set m on).isOpen marker)
      (events.filterMap (Event.switch? marker) ++ more)) :
    InTurn (s.isOpen marker)
      ((Event.toggle m on :: events).filterMap (Event.switch? marker) ++ more) := by
  by_cases he : m = marker
  · subst he
    rw [OpenMarkers.isOpen_set_self] at hmore
    have hswitch : (Event.toggle m on).switch? m = some on := if_pos rfl
    rw [List.filterMap_cons, hswitch, List.cons_append, inTurn_cons, hs]
    refine ⟨?_, hmore⟩
    cases on <;> simp
  · rw [OpenMarkers.isOpen_set_of_ne s on (Ne.symm he)] at hmore
    have hswitch : (Event.toggle m on).switch? marker = none := if_neg he
    rw [List.filterMap_cons, hswitch]
    exact hmore

theorem Scans.inTurn (h : Scans s prev cs events t) {marker : Marker} {more : List Bool}
    (hmore : InTurn (t.isOpen marker) more) :
    InTurn (s.isOpen marker) (events.filterMap (Event.switch? marker) ++ more) := by
  induction h with
  | done => exact hmore
  | plain _ _ ih => exact ih hmore
  | close _ hopen _ _ ih => exact inTurn_toggle hopen (ih hmore)
  | opening _ hopen _ _ ih => exact inTurn_toggle hopen (ih hmore)
  | literal _ _ _ _ ih =>
      rw [filterMap_switch?_literals]
      exact ih hmore

theorem inTurn_eventsOfSegments (s : OpenMarkers) (marker : Marker) (segments : List String) :
    InTurn (s.isOpen marker)
      ((eventsOfSegments s segments).flatten.filterMap (Event.switch? marker)) := by
  induction segments generalizing s with
  | nil => exact inTurn_nil _
  | cons segment rest ih =>
      have hscan : Scans s none segment.toList (Markup.events s segment.toList)
          (s.after (Markup.events s segment.toList)) := scans_iff.mpr ⟨rfl, rfl⟩
      have hturn := hscan.inTurn (ih (s.after (Markup.events s segment.toList)))
      rw [← List.filterMap_append] at hturn
      exact hturn

theorem filterMap_switch?_events (marker : Marker) (events : List Event) :
    (events.map Item.ofEvent).filterMap (Item.switch? (.marker marker)) =
      events.filterMap (Event.switch? marker) := by
  rw [List.filterMap_map]
  congr 1
  funext e
  cases e <;> simp [Item.ofEvent, Item.switch?, Event.switch?]

theorem filterMap_switch?_ofValue (marker : Marker) (v : Value) (marked : Bool) :
    (Item.ofValue v marked).filterMap (Item.switch? (.marker marker)) = [] := by
  cases marked <;> rfl

/-- Values and their highlights switch no marker. -/
theorem filterMap_switch?_interleave (marker : Marker) (highlights : Highlights) (i : Nat)
    (segments : List (List Event)) (values : List Value) :
    (interleave highlights i segments values).filterMap (Item.switch? (.marker marker)) =
      segments.flatten.filterMap (Event.switch? marker) := by
  induction segments generalizing i values with
  | nil => rfl
  | cons events rest ih =>
      cases values with
      | nil =>
          rw [interleave, List.filterMap_append, filterMap_switch?_events, ih, List.flatten_cons,
            List.filterMap_append]
      | cons v values =>
          rw [interleave, List.filterMap_append, List.filterMap_append, filterMap_switch?_events,
            filterMap_switch?_ofValue, ih, List.append_nil, List.flatten_cons,
            List.filterMap_append]

end Turns

section Places
variable {s t : OpenMarkers} {prev : Option Char} {events before after : List Event}
variable {m : Marker} {on : Bool} {cs front mark back rest kept : List Char}

/-- A mark makes the switch between two runs of events: the text before the mark is read as the
events before, and the text behind it as those behind. -/
structure Split (cs : List Char) (before : List Event) (m : Marker) (after : List Event)
    (front mark back : List Char) : Prop where
  text : cs = front ++ (mark ++ back)
  mark : Mark m mark back
  front : Strips before front (literals before)
  back : Strips after back (literals after)

/-- Where a marker may go on: at the start, right behind a switch, or behind a boundary. -/
def Opens (before : List Event) (front : List Char) : Prop :=
  front = [] ∨ (∃ m on, before.getLast? = some (.toggle m on)) ∨
    ∃ c, front.getLast? = some c ∧ isBoundary (some c) = true

/-- Where a marker may go off: at the end, or before a boundary. -/
def Closes (back : List Char) : Prop :=
  back = [] ∨ ∃ c, back.head? = some c ∧ isBoundary (some c) = true

/-- The character before a place, as the rule of the marks sees it behind some events. -/
def charBefore (prev : Option Char) (before : List Event) : Option Char :=
  before.getLast?.elim prev Event.literal?

theorem charBefore_cons (prev : Option Char) (e : Event) (before : List Event) :
    charBefore prev (e :: before) = charBefore e.literal? before := by
  unfold charBefore
  rw [List.getLast?_cons]
  cases before.getLast? <;> rfl

theorem charBefore_literals (hne : mark ≠ []) (prev : Option Char) (before : List Event) :
    charBefore prev (mark.map .literal ++ before) = charBefore mark.getLast? before := by
  induction mark generalizing prev with
  | nil => exact (hne rfl).elim
  | cons c mark ih =>
      rw [List.map_cons, List.cons_append, charBefore_cons]
      cases mark with
      | nil => rfl
      | cons d mark => exact ih (by simp) _

/-- A mark stays one when less of the text follows it. -/
theorem Mark.of_append (h : Mark m mark (front ++ rest)) : Mark m mark front := by
  cases h with
  | bold hc => exact .bold hc
  | italic hc hnext =>
      apply Mark.italic hc
      cases front with
      | nil => simp
      | cons c front => exact hnext
  | code => exact .code

theorem Scans.strips_literals (h : Scans s prev cs events t) :
    Strips events cs (literals events) := by
  obtain ⟨kept, hk⟩ := h.strips
  exact hk.eq_literals ▸ hk

theorem Split.first (hm : Mark m mark rest) (h : Scans s prev rest after t) :
    Split (mark ++ rest) [] m after [] mark rest :=
  ⟨rfl, hm, .done, h.strips_literals⟩

theorem Split.toggle {k : Marker} {turn : Bool} {sign : List Char} (hk : Mark k sign cs)
    (h : Split cs before m after front mark back) :
    Split (sign ++ cs) (.toggle k turn :: before) m after (sign ++ front) mark back := by
  refine ⟨?_, h.mark, ?_, h.back⟩
  · rw [h.text, List.append_assoc]
  · apply Strips.toggle
    · exact Mark.of_append (h.text ▸ hk)
    · exact h.front

theorem Split.literals (h : Split cs before m after front mark back) (sign : List Char) :
    Split (sign ++ cs) (sign.map .literal ++ before) m after (sign ++ front) mark back := by
  refine ⟨?_, h.mark, ?_, h.back⟩
  · rw [h.text, List.append_assoc]
  · have hfront := h.front.literals sign
    rw [hfront.eq_literals] at hfront
    exact hfront

theorem exists_of_literals_append {sign : List Char}
    (h : sign.map .literal ++ events = before ++ .toggle m on :: after) :
    ∃ rest, before = sign.map .literal ++ rest ∧ events = rest ++ .toggle m on :: after := by
  induction sign generalizing before with
  | nil => exact ⟨before, rfl, h⟩
  | cons c sign ih =>
      cases before with
      | nil => cases h
      | cons e before =>
          obtain ⟨rfl, htail⟩ := List.cons.inj h
          obtain ⟨rest, rfl, hrest⟩ := ih htail
          exact ⟨rest, rfl, hrest⟩

/-- Each switch among the events is made by a mark of the text, which opens its marker after a
boundary or closes it before one. -/
def Placed (prev : Option Char) (cs : List Char) (events : List Event) : Prop :=
  ∀ before m on after, events = before ++ .toggle m on :: after →
    ∃ front mark back, Split cs before m after front mark back ∧
      (on = true → isBoundary (charBefore prev before) = true) ∧
      (on = false → isBoundary back.head? = true)

theorem placed_nil : Placed prev [] [] := by
  intro before m on after he
  simp at he

theorem Placed.literals {sign : List Char} (hne : sign ≠ [])
    (h : Placed sign.getLast? rest events) :
    Placed prev (sign ++ rest) (sign.map .literal ++ events) := by
  intro before m on after he
  obtain ⟨before, rfl, hrest⟩ := exists_of_literals_append he
  obtain ⟨front, mark, back, hsplit, hon, hoff⟩ := h before m on after hrest
  refine ⟨sign ++ front, mark, back, hsplit.literals sign, ?_, hoff⟩
  rw [charBefore_literals hne]
  exact hon

theorem Placed.toggle {k : Marker} {turn : Bool} {sign : List Char} (hk : Mark k sign rest)
    (hscan : Scans s none rest events t) (hon : turn = true → isBoundary prev = true)
    (hoff : turn = false → isBoundary rest.head? = true) (h : Placed none rest events) :
    Placed prev (sign ++ rest) (.toggle k turn :: events) := by
  intro before m on after he
  cases before with
  | nil =>
      cases he
      exact ⟨[], sign, rest, .first hk hscan, hon, hoff⟩
  | cons e before =>
      rw [List.cons_append] at he
      obtain ⟨rfl, hrest⟩ := List.cons.inj he
      obtain ⟨front, mark, back, hsplit, hopen, hclose⟩ := h before m on after hrest
      refine ⟨sign ++ front, mark, back, hsplit.toggle hk, ?_, hclose⟩
      rw [charBefore_cons]
      exact hopen

theorem Scans.placed (h : Scans s prev cs events t) : Placed prev cs events := by
  induction h with
  | done => exact placed_nil
  | @plain _ _ _ c _ _ _ _ ih => exact Placed.literals (List.cons_ne_nil c []) ih
  | close hm _ hb hscan ih => exact ih.toggle hm hscan (by simp) fun _ => hb
  | opening hm _ hb hscan ih => exact ih.toggle hm hscan (fun _ => hb) (by simp)
  | literal hm _ _ _ ih => exact ih.literals hm.ne_nil

theorem Strips.getLast?_eq (h : Strips events cs kept) {c : Char}
    (hlast : events.getLast? = some (.literal c)) : cs.getLast? = some c := by
  induction h with
  | done => simp at hlast
  | @literal d events rest kept h ih =>
      rw [List.getLast?_cons] at hlast ⊢
      cases hl : events.getLast? with
      | none =>
          obtain rfl := List.getLast?_eq_none_iff.mp hl
          cases h
          rw [hl] at hlast
          cases hlast
          rfl
      | some e =>
          rw [hl] at hlast
          cases hlast
          rw [ih hl, Option.getD_some]
  | @toggle k turn events mark rest kept _ _ ih =>
      rw [List.getLast?_cons] at hlast
      cases hl : events.getLast? with
      | none =>
          rw [hl] at hlast
          cases hlast
      | some e =>
          rw [hl] at hlast
          cases hlast
          rw [List.getLast?_append, ih hl, Option.some_or]

theorem Split.opens (h : Split cs before m after front mark back)
    (hb : isBoundary (charBefore none before) = true) : Opens before front := by
  unfold charBefore at hb
  cases hl : before.getLast? with
  | none =>
      left
      have hfront := h.front
      rw [List.getLast?_eq_none_iff.mp hl] at hfront
      cases hfront
      rfl
  | some e =>
      right
      rw [hl] at hb
      cases e with
      | literal c => exact .inr ⟨c, h.front.getLast?_eq hl, hb⟩
      | toggle k turn => exact .inl ⟨k, turn, hl⟩

theorem closes_of_isBoundary (h : isBoundary back.head? = true) : Closes back := by
  cases back with
  | nil => exact .inl rfl
  | cons c back => exact .inr ⟨c, rfl, h⟩

theorem exists_scans_of_getElem? {segments : List String} {i : Nat}
    (he : (eventsOfSegments s segments)[i]? = some events) :
    ∃ segment, segments[i]? = some segment ∧ ∃ s t, Scans s none segment.toList events t := by
  induction segments generalizing s i with
  | nil => cases he
  | cons segment segments ih =>
      cases i with
      | zero =>
          cases he
          exact ⟨segment, rfl, s, _, scans_iff.mpr ⟨rfl, rfl⟩⟩
      | succ i => exact ih he

end Places

section Items
variable {items more : List Item} {highlights : Highlights}

/-- An element of two lists in a row stands in the first or in the second. -/
theorem append_eq_append_cons {α : Type} {xs ys before after : List α} {x : α}
    (h : xs ++ ys = before ++ x :: after) :
    (∃ tail, xs = before ++ x :: tail ∧ after = tail ++ ys) ∨
      ∃ tail, before = xs ++ tail ∧ ys = tail ++ x :: after := by
  rcases List.append_eq_append_iff.mp h with ⟨tail, hbefore, hys⟩ | ⟨tail, hxs, htail⟩
  · exact .inr ⟨tail, hbefore, hys⟩
  · cases tail with
    | nil =>
        rw [List.append_nil] at hxs
        rw [List.nil_append] at htail
        exact .inr ⟨[], by rw [hxs, List.append_nil], htail.symm⟩
    | cons first tail =>
        rw [List.cons_append] at htail
        obtain ⟨rfl, hafter⟩ := List.cons.inj htail
        exact .inl ⟨tail, hxs, hafter⟩

/-- The switch between two runs of events is made by a mark of the segment, which stands where it
may open or close. -/
def MadeIn (segment : String) (before : List Event) (m : Marker) (on : Bool)
    (after : List Event) : Prop :=
  ∃ front mark back, Split segment.toList before m after front mark back ∧
    (on = true → Opens before front) ∧ (on = false → Closes back)

theorem exists_of_map_ofEvent {events : List Event} {before after : List Item} {m : Marker}
    {on : Bool} (h : events.map Item.ofEvent = before ++ .switch (.marker m) on :: after) :
    ∃ earlier later, events = earlier ++ .toggle m on :: later ∧
      earlier.map Item.ofEvent = before := by
  obtain ⟨earlier, rest, rfl, hearlier, hrest⟩ := List.map_eq_append_iff.mp h
  obtain ⟨e, later, rfl, he, -⟩ := List.map_eq_cons_iff.mp hrest
  cases e with
  | literal c => cases he
  | toggle k turn =>
      cases he
      exact ⟨earlier, later, rfl, hearlier⟩

theorem marker_not_mem_ofValue (m : Marker) (on : Bool) (v : Value) (marked : Bool) :
    .switch (.marker m) on ∉ Item.ofValue v marked := by
  cases marked <;> simp [Item.ofValue]

/-- Behind the events of a segment stand items that switch no marker. -/
theorem exists_interleave_cons (highlights : Highlights) (i : Nat) (events : List Event)
    (values : List Value) : ∃ value later,
      (∀ m on, .switch (.marker m) on ∉ value) ∧
        ∀ rest, interleave highlights i (events :: rest) values =
          events.map Item.ofEvent ++ (value ++ interleave highlights (i + 1) rest later) := by
  cases values with
  | nil => exact ⟨[], [], fun _ _ => List.not_mem_nil, fun _ => rfl⟩
  | cons v values =>
      refine ⟨Item.ofValue v (highlights.marks i), values, ?_, ?_⟩
      · exact fun m on => marker_not_mem_ofValue m on v _
      · intro rest
        rw [interleave, List.append_assoc]

/-- A switch of a marker stands among the events of some segment, with the items of the segments
before it in front of them. -/
theorem exists_of_interleave {i : Nat} {segments : List (List Event)} {values : List Value}
    {before after : List Item} {m : Marker} {on : Bool}
    (h : interleave highlights i segments values =
      before ++ .switch (.marker m) on :: after) :
    ∃ (j : Nat) (earlier later : List Event),
      segments[j]? = some (earlier ++ .toggle m on :: later) ∧
        before = interleave highlights i (segments.take j) values ++
          earlier.map Item.ofEvent := by
  induction segments generalizing i values before with
  | nil => simp [interleave] at h
  | cons events rest ih =>
      obtain ⟨value, later, hvalue, hcons⟩ := exists_interleave_cons highlights i events values
      rw [hcons] at h
      rcases append_eq_append_cons h with ⟨tail, hevents, -⟩ | ⟨front, rfl, hrest⟩
      · obtain ⟨earlier, later, rfl, rfl⟩ := exists_of_map_ofEvent hevents
        exact ⟨0, earlier, later, rfl, rfl⟩
      · rcases append_eq_append_cons hrest with ⟨tail, he, -⟩ | ⟨near, rfl, hlater⟩
        · apply absurd _ (hvalue m on)
          rw [he]
          simp
        · obtain ⟨j, earlier, later, hj, hbefore⟩ := ih hlater
          refine ⟨j + 1, earlier, later, hj, ?_⟩
          rw [List.take_succ_cons, hcons, hbefore, List.append_assoc, List.append_assoc]

/-- A highlight that goes on goes off right behind the value that follows. -/
def Wraps (items : List Item) : Prop :=
  ∀ before after, items = before ++ .switch .changed true :: after →
    ∃ v rest, after = .value v :: .switch .changed false :: rest

theorem wraps_of_not_mem (h : .switch .changed true ∉ items) : Wraps items := by
  intro before after he
  apply absurd _ h
  rw [he]
  simp

theorem Wraps.append (h : Wraps items) (hmore : Wraps more) : Wraps (items ++ more) := by
  intro before after he
  rcases append_eq_append_cons he with ⟨tail, hitems, rfl⟩ | ⟨tail, -, hm⟩
  · obtain ⟨v, rest, rfl⟩ := h before tail hitems
    exact ⟨v, rest ++ more, rfl⟩
  · exact hmore tail after hm

theorem wraps_events (events : List Event) : Wraps (events.map Item.ofEvent) := by
  apply wraps_of_not_mem
  intro hmem
  obtain ⟨e, -, he⟩ := List.mem_map.mp hmem
  cases e <;> cases he

theorem wraps_ofValue (v : Value) (marked : Bool) : Wraps (Item.ofValue v marked) := by
  cases marked with
  | false => exact wraps_of_not_mem (by simp [Item.ofValue])
  | true =>
      intro before after he
      cases before with
      | nil =>
          cases he
          exact ⟨v, [], rfl⟩
      | cons first before =>
          rw [List.cons_append] at he
          obtain ⟨-, htail⟩ := List.cons.inj he
          apply absurd (List.mem_append_right before List.mem_cons_self)
          rw [← htail]
          simp

theorem wraps_interleave (highlights : Highlights) (i : Nat) (segments : List (List Event))
    (values : List Value) : Wraps (interleave highlights i segments values) := by
  induction segments generalizing i values with
  | nil => exact wraps_of_not_mem List.not_mem_nil
  | cons events rest ih =>
      cases values with
      | nil => exact (wraps_events events).append (ih (i + 1) [])
      | cons v values =>
          exact ((wraps_events events).append (wraps_ofValue v _)).append (ih (i + 1) values)

end Items

end RenderLog.Markup

namespace RenderLog.Message
open Markup

/-- Each marker is switched on and off in turn over the whole message, by marks of its segments
that stand where they may. A highlight that goes on goes off right behind its value. -/
theorem switches_in_turn (m : Message) (highlights : Highlights) :
    (∀ marker, InTurn false ((m.items highlights).filterMap (Item.switch? (.marker marker)))) ∧
      (∀ before marker on after,
        m.items highlights = before ++ .switch (.marker marker) on :: after →
        ∃ (i : Nat) (segment : String) (earlier later : List Event),
          m.segments[i]? = some segment ∧
            m.events[i]? = some (earlier ++ .toggle marker on :: later) ∧
            before = interleave highlights 0 (m.events.take i) m.values ++
              earlier.map Item.ofEvent ∧
            MadeIn segment earlier marker on later) ∧
      Wraps (m.items highlights) := by
  refine ⟨?_, ?_, wraps_interleave highlights 0 m.events m.values⟩
  · intro marker
    have hturn := inTurn_eventsOfSegments .none marker m.segments
    rw [OpenMarkers.isOpen_none] at hturn
    rw [items, filterMap_switch?_interleave]
    exact hturn
  · intro before marker on after hitems
    obtain ⟨i, earlier, later, hi, hbefore⟩ := exists_of_interleave hitems
    obtain ⟨segment, hsegment, s, t, hscan⟩ := exists_scans_of_getElem? hi
    obtain ⟨front, mark, back, hsplit, hon, hoff⟩ := hscan.placed earlier marker on later rfl
    refine ⟨i, segment, earlier, later, hsegment, hi, hbefore, front, mark, back, hsplit, ?_, ?_⟩
    · exact fun h => hsplit.opens (hon h)
    · exact fun h => closes_of_isBoundary (hoff h)

-- Bold stays on over the value; the third sign in a row is one of italic.
example : ((⟨["***a ", " b* c**"], [.null]⟩ : Message).items .none).filterMap
    (Item.switch? (.marker .bold)) = [true, false] := by decide

end RenderLog.Message
