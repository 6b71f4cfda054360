import Mathlib.Data.List.Forall2
import RenderLog.Proofs.Renderings

/-!
# Lists of values told by their lines

A list of values is written with a comma and a blank between them. A text may hold
commas and quotes of its own, but the quotes in it are escaped, so it ends at the first
quote that is not. Null, truth values and whole numbers have no comma and end at the
first one. So a line of such values is cut in one way only, and another list of values
is another line.
-/
namespace RenderLog
namespace Text

/-- What a hexadecimal digit counts. -/
def digitValue (c : Char) : Nat :=
  if c.isDigit then c.toNat - '0'.toNat else c.toNat - 'a'.toNat + 10

/-- Reads back the written form of one character, and what stands behind it. -/
def unescape : List Char → Option (Char × List Char)
  | [] => none
  | '\x5c' :: 'u' :: '0' :: '0' :: high :: low :: rest =>
    some (Char.ofNat (16 * digitValue high + digitValue low), rest)
  | '\x5c' :: letter :: rest =>
    ((shortEscapes.map Prod.swap).lookup letter).map fun c => (c, rest)
  | c :: rest => some (c, rest)

theorem escape_cases (c : Char) :
    (∃ letter, (c, letter) ∈ shortEscapes ∧ escape c = ['\x5c', letter]) ∨
      (c.toNat < 0x20 ∧ escape c =
        ['\x5c', 'u', '0', '0', Nat.digitChar (c.toNat / 16), Nat.digitChar (c.toNat % 16)]) ∨
      (c ≠ '\x5c' ∧ c ≠ '\x22' ∧ escape c = [c]) := by
  unfold escape
  split
  · next letter hletter =>
      obtain ⟨front, back, hsplit, -⟩ := List.lookup_eq_some_iff.mp hletter
      exact .inl ⟨letter, by simp [hsplit], rfl⟩
  · next hnone =>
      right
      split
      · next hcontrol => exact .inl ⟨hcontrol, rfl⟩
      · right
        refine ⟨?_, ?_, rfl⟩
        · intro hc
          rw [hc] at hnone
          cases hnone
        · intro hc
          rw [hc] at hnone
          cases hnone

theorem unescape_escape (c : Char) (rest : List Char) :
    unescape (escape c ++ rest) = some (c, rest) := by
  rcases escape_cases c with ⟨letter, hmem, he⟩ | ⟨hcontrol, he⟩ | ⟨hslash, -, he⟩
  · have hshort : ∀ e ∈ shortEscapes,
        e.2 ≠ 'u' ∧ (shortEscapes.map Prod.swap).lookup e.2 = some e.1 := by decide
    obtain ⟨hu, hlookup⟩ := hshort (c, letter) hmem
    rw [he]
    simp [unescape, hu, hlookup]
  · have hcode : ∀ n < 0x20, Char.ofNat (16 * digitValue (Nat.digitChar (n / 16)) +
        digitValue (Nat.digitChar (n % 16))) = Char.ofNat n := by decide
    rw [he]
    simp only [List.cons_append, List.nil_append, unescape]
    rw [hcode c.toNat hcontrol, Char.ofNat_toNat]
  · rw [he, List.singleton_append]
    unfold unescape
    split <;> simp_all

theorem head?_escape_append (c : Char) (rest : List Char) :
    (escape c ++ rest).head? ≠ some '\x22' := by
  rcases escape_cases c with ⟨letter, -, he⟩ | ⟨-, he⟩ | ⟨-, hquote, he⟩
  · simp [he]
  · simp [he]
  · simp [he, hquote]

/-- A quoted text ends at its closing quote, whatever stands in it and behind it. -/
theorem quoted_append_inj {cs ds rest more : List Char}
    (h : quoted cs ++ rest = quoted ds ++ more) : cs = ds ∧ rest = more := by
  simp only [quoted, List.cons_append, List.append_assoc, List.cons.injEq, true_and] at h
  induction cs generalizing ds with
  | nil =>
      cases ds with
      | nil => exact ⟨rfl, (List.cons.inj h).2⟩
      | cons d ds =>
          rw [List.flatMap_cons, List.append_assoc] at h
          exact absurd (congrArg List.head? h).symm (head?_escape_append d _)
  | cons c cs ih =>
      cases ds with
      | nil =>
          rw [List.flatMap_cons, List.append_assoc] at h
          exact absurd (congrArg List.head? h) (head?_escape_append c _)
      | cons d ds =>
          rw [List.flatMap_cons, List.append_assoc, List.flatMap_cons, List.append_assoc] at h
          have hread := congrArg unescape h
          rw [unescape_escape, unescape_escape] at hread
          obtain ⟨rfl, hrest⟩ := Prod.mk.inj (Option.some.inj hread)
          obtain ⟨rfl, hmore⟩ := ih hrest
          exact ⟨rfl, hmore⟩

end Text

namespace Number

theorem mem_intText {n : Int} {c : Char} (h : c ∈ intText n) : c = '-' ∨ c.isDigit = true := by
  have hdigit {m : Nat} (hm : c ∈ natText m) : c.isDigit = true :=
    Nat.isDigit_of_mem_toDigits (by omega) (by omega) hm
  unfold intText at h
  split at h
  · rcases List.mem_cons.mp h with hsign | hm
    · exact .inl hsign
    · exact .inr (hdigit hm)
  · exact .inr (hdigit h)

theorem intText_injective : Function.Injective intText := by
  have hminus (m : Nat) : '-' ∉ natText m := by
    intro h
    have hdigit : ('-').isDigit = true := Nat.isDigit_of_mem_toDigits (by omega) (by omega) h
    cases hdigit
  intro m n h
  unfold intText at h
  split at h
  · split at h
    · have habs := natText_injective (List.cons.inj h).2
      omega
    · exact (hminus n.natAbs (h ▸ List.mem_cons_self)).elim
  · split at h
    · exact (hminus m.natAbs (h ▸ List.mem_cons_self)).elim
    · have habs := natText_injective h
      omega

end Number

namespace Value

/-- Null, a truth value, a whole number or a text. -/
def IsDiscrete : Value → Prop
  | .null | .bool _ | .number (.int _) | .text _ => True
  | .number (.float _) | .object _ => False

instance IsDiscrete.decidable : DecidablePred IsDiscrete
  | .null | .bool _ | .number (.int _) | .text _ => .isTrue trivial
  | .number (.float _) | .object _ => .isFalse id

variable {v w : Value}

theorem IsDiscrete.object?_eq_none (h : v.IsDiscrete) : v.object? = none := by
  cases v with
  | object o => exact h.elim
  | _ => rfl

theorem IsDiscrete.same_iff_eq (hv : v.IsDiscrete) (hw : w.IsDiscrete) :
    v.same w = true ↔ v = w := by
  cases v with
  | number m =>
      cases w with
      | number n =>
          cases m with
          | int m =>
              cases n with
              | int n => simp [same, Number.same]
              | float y => exact hw.elim
          | float x => exact hv.elim
      | _ => simp [same]
  | object o => exact hv.elim
  | _ => cases w <;> simp [same]

theorem inline_text (s : String) : (Value.text s).inline.toList = Text.quoted s.toList :=
  String.toList_ofList

theorem inline_int (n : Int) : (Value.int n).inline.toList = Number.intText n :=
  String.toList_ofList

/-- The values that are written by a name. -/
def named : List Value := [.null, .bool true, .bool false]

theorem IsDiscrete.cases (h : v.IsDiscrete) :
    v ∈ named ∨ (∃ n, v = .int n) ∨ ∃ s, v = .text s := by
  cases v with
  | null => exact .inl (by decide)
  | bool b => cases b <;> exact .inl (by decide)
  | text s => exact .inr (.inr ⟨s, rfl⟩)
  | object o => exact h.elim
  | number m =>
      cases m with
      | int n => exact .inr (.inl ⟨n, rfl⟩)
      | float x => exact h.elim

/-- A value that is no text is written without commas and quotes. -/
theorem IsDiscrete.word (h : v.IsDiscrete) (ht : ∀ s, v ≠ .text s) :
    ',' ∉ v.inline.toList ∧ '\x22' ∉ v.inline.toList := by
  rcases h.cases with hname | ⟨n, rfl⟩ | ⟨s, rfl⟩
  · have hall : ∀ v ∈ named, ',' ∉ v.inline.toList ∧ '\x22' ∉ v.inline.toList := by decide
    exact hall v hname
  · have hmem {c : Char} (hne : c ≠ '-') (hdigit : c.isDigit = false) :
        c ∉ (Value.int n).inline.toList := by
      rw [inline_int]
      intro hc
      rcases Number.mem_intText hc with hsign | hd
      · exact hne hsign
      · rw [hdigit] at hd
        cases hd
    exact ⟨hmem (by decide) (by decide), hmem (by decide) (by decide)⟩
  · exact absurd rfl (ht s)

theorem inline_ne_int_of_named (h : v ∈ named) (n : Int) : v.inline ≠ (int n).inline := by
  have hletter : ∀ v ∈ named,
      v.inline.toList.all (fun c => c == '-' || c.isDigit) = false := by decide
  have hint : (Number.intText n).all (fun c => c == '-' || c.isDigit) = true := by
    rw [List.all_eq_true]
    intro c hc
    simpa using Number.mem_intText hc
  intro he
  have hall := hletter v h
  rw [he, inline_int, hint] at hall
  cases hall

/-- Values that are no texts are written in different words. -/
theorem IsDiscrete.eq_of_inline (hv : v.IsDiscrete) (hw : w.IsDiscrete) (hvt : ∀ s, v ≠ .text s)
    (hwt : ∀ s, w ≠ .text s) (h : v.inline = w.inline) : v = w := by
  rcases hv.cases with hname | ⟨m, rfl⟩ | ⟨s, rfl⟩
  · rcases hw.cases with hother | ⟨n, rfl⟩ | ⟨t, rfl⟩
    · have hall : ∀ v ∈ named, ∀ w ∈ named, v.inline = w.inline → v = w := by decide
      exact hall v hname w hother h
    · exact (inline_ne_int_of_named hname n h).elim
    · exact absurd rfl (hwt t)
  · rcases hw.cases with hother | ⟨n, rfl⟩ | ⟨t, rfl⟩
    · exact (inline_ne_int_of_named hother m h.symm).elim
    · have htext : Number.intText m = Number.intText n := by rw [← inline_int, h, inline_int]
      rw [Number.intText_injective htext]
    · exact absurd rfl (hwt t)
  · exact absurd rfl (hvt s)

/-- A quoted text starts as no other value does. -/
theorem IsDiscrete.quoted_append_ne (hw : w.IsDiscrete) (hwt : ∀ s, w ≠ .text s)
    (cs rest more : List Char) : Text.quoted cs ++ rest ≠ w.inline.toList ++ more := by
  intro h
  obtain ⟨c, tail, hinline⟩ := List.exists_cons_of_ne_nil (inline_ne_nil hw.object?_eq_none)
  have hquote := (hw.word hwt).2
  rw [hinline] at h hquote
  exact hquote (List.mem_cons.mpr (.inl (List.cons.inj h).1))

/-- A value is told from what starts with it, when a comma or nothing is behind it. -/
theorem IsDiscrete.inline_append_inj (hv : v.IsDiscrete) (hw : w.IsDiscrete)
    {rest more : List Char} (hrest : ∀ c, rest.head? = some c → c = ',')
    (hmore : ∀ c, more.head? = some c → c = ',')
    (h : v.inline.toList ++ rest = w.inline.toList ++ more) : v = w ∧ rest = more := by
  by_cases hvt : ∃ s, v = .text s
  · obtain ⟨s, rfl⟩ := hvt
    rw [inline_text] at h
    by_cases hwt : ∃ t, w = .text t
    · obtain ⟨t, rfl⟩ := hwt
      rw [inline_text] at h
      obtain ⟨hchars, htail⟩ := Text.quoted_append_inj h
      exact ⟨congrArg Value.text (String.toList_inj.mp hchars), htail⟩
    · exact (hw.quoted_append_ne (not_exists.mp hwt) _ _ _ h).elim
  · have hvt := not_exists.mp hvt
    by_cases hwt : ∃ t, w = .text t
    · obtain ⟨t, rfl⟩ := hwt
      rw [inline_text] at h
      exact (hv.quoted_append_ne hvt _ _ _ h.symm).elim
    · have hwt := not_exists.mp hwt
      have hvw : ∀ c ∈ v.inline.toList, c ≠ ',' := fun c hc he => (hv.word hvt).1 (he ▸ hc)
      have hww : ∀ c ∈ w.inline.toList, c ≠ ',' := fun c hc he => (hw.word hwt).1 (he ▸ hc)
      obtain ⟨hchars, htail⟩ := Markup.run_append_inj hvw hww
        (fun c hc => not_not.mpr (hrest c hc)) (fun c hc => not_not.mpr (hmore c hc)) h
      exact ⟨hv.eq_of_inline hw hvt hwt (String.toList_inj.mp hchars), htail⟩

/-- Values behind others: each with a comma and a blank in front. -/
def continued (values : List Value) : List Char :=
  values.flatMap fun v => ',' :: ' ' :: v.inline.toList

/-- The text of a list of values. -/
def listed : List Value → List Char
  | [] => []
  | v :: rest => v.inline.toList ++ continued rest

theorem head?_continued (values : List Value) :
    ∀ c, (continued values).head? = some c → c = ',' := by
  intro c h
  cases values with
  | nil => cases h
  | cons v values => exact (Option.some.inj h).symm

section Lists
variable {values others : List Value}

theorem continued_inj (hv : ∀ v ∈ values, v.IsDiscrete) (ho : ∀ v ∈ others, v.IsDiscrete)
    (h : continued values = continued others) : values = others := by
  induction values generalizing others with
  | nil =>
      cases others with
      | nil => rfl
      | cons w others => cases h
  | cons v values ih =>
      cases others with
      | nil => cases h
      | cons w others =>
          obtain ⟨hvd, hvs⟩ := List.forall_mem_cons.mp hv
          obtain ⟨hwd, hws⟩ := List.forall_mem_cons.mp ho
          have htail : v.inline.toList ++ continued values =
              w.inline.toList ++ continued others :=
            (List.cons.inj (List.cons.inj h).2).2
          obtain ⟨rfl, hrest⟩ := hvd.inline_append_inj hwd (head?_continued values)
            (head?_continued others) htail
          rw [ih hvs hws hrest]

theorem listed_inj (hv : ∀ v ∈ values, v.IsDiscrete) (ho : ∀ v ∈ others, v.IsDiscrete)
    (h : listed values = listed others) : values = others := by
  have hne {v : Value} (hd : v.IsDiscrete) (rest : List Value) :
      v.inline.toList ++ continued rest ≠ [] :=
    List.append_ne_nil_of_left_ne_nil (inline_ne_nil hd.object?_eq_none) _
  cases values with
  | nil =>
      cases others with
      | nil => rfl
      | cons w others => exact (hne (ho w List.mem_cons_self) others h.symm).elim
  | cons v values =>
      cases others with
      | nil => exact (hne (hv v List.mem_cons_self) values h).elim
      | cons w others =>
          obtain ⟨hvd, hvs⟩ := List.forall_mem_cons.mp hv
          obtain ⟨hwd, hws⟩ := List.forall_mem_cons.mp ho
          obtain ⟨rfl, hrest⟩ := hvd.inline_append_inj hwd (head?_continued values)
            (head?_continued others) h
          rw [continued_inj hvs hws hrest]

theorem forall₂_same_iff_eq (hv : ∀ v ∈ values, v.IsDiscrete) (ho : ∀ v ∈ others, v.IsDiscrete) :
    List.Forall₂ (fun v w => v.same w = true) values others ↔ values = others := by
  constructor
  · intro h
    induction h with
    | nil => rfl
    | cons hsame _ ih =>
        obtain ⟨hvd, hvs⟩ := List.forall_mem_cons.mp hv
        obtain ⟨hwd, hws⟩ := List.forall_mem_cons.mp ho
        rw [(hvd.same_iff_eq hwd).mp hsame, ih hvs hws]
  · rintro rfl
    exact List.forall₂_same.mpr fun v hmem => ((hv v hmem).same_iff_eq (hv v hmem)).mpr rfl

end Lists
end Value

namespace Markup

theorem terminal_ofValue {v : Value} (h : v.object? = none) (marked : Bool) :
    (Item.ofValue v marked).flatMap Item.terminal = v.inline.toList.map .shown := by
  cases marked <;> simp [Item.ofValue, Item.terminal, Style.escape, Value.symbols_of_primitive h]

/-- Behind the first value a list is written as values with a comma and a blank in front. -/
theorem terminal_continued {values : List Value} (h : ∀ v ∈ values, v.object? = none)
    (highlights : Highlights) (i : Nat) :
    (interleave highlights i (eventsOfSegments .none (values.map (fun _ => ", ") ++ [""]))
        values).flatMap Item.terminal =
      (Value.continued values).map .shown := by
  induction values generalizing i with
  | nil => rfl
  | cons v values ih =>
      obtain ⟨hv, hvs⟩ := List.forall_mem_cons.mp h
      have hevents : eventsOfSegments .none ((v :: values).map (fun _ => ", ") ++ [""]) =
          [.literal ',', .literal ' '] ::
            eventsOfSegments .none (values.map (fun _ => ", ") ++ [""]) := by
        have hseparator : events .none ", ".toList = [.literal ',', .literal ' '] := by decide
        rw [List.map_cons, List.cons_append, eventsOfSegments, hseparator]
        rfl
      have htext : (Value.continued (v :: values)).map (Symbol.shown (α := Arg)) =
          .shown ',' :: .shown ' ' :: (v.inline.toList ++ Value.continued values).map .shown := rfl
      rw [hevents, interleave, List.flatMap_append, List.flatMap_append, terminal_ofValue hv,
        ih hvs, htext, List.map_append]
      rfl

end Markup

namespace Message

theorem terminal_ofValues {values : List Value} (h : ∀ v ∈ values, v.object? = none)
    (highlights : Highlights) :
    ((ofValues values).items highlights).flatMap Markup.Item.terminal =
      (Value.listed values).map .shown := by
  cases values with
  | nil => rfl
  | cons v values =>
      obtain ⟨hv, hvs⟩ := List.forall_mem_cons.mp h
      have hevents : (ofValues (v :: values)).events =
          [] :: Markup.eventsOfSegments .none (values.map (fun _ => ", ") ++ [""]) := rfl
      rw [items, hevents, ofValues, Markup.interleave, List.flatMap_append, List.flatMap_append,
        Markup.terminal_ofValue hv, Markup.terminal_continued hvs, Value.listed, List.map_append]
      rfl

end Message

theorem Draft.escapePercent_injective : Function.Injective Draft.escapePercent := by
  intro cs ds h
  rw [← spell_map_shown, ← spell_map_shown] at h
  have hread := congrArg readFormat h
  rw [readFormat_spell, readFormat_spell] at hread
  exact List.map_injective_iff.mpr (fun _ _ hc => Symbol.shown.inj hc) (Option.some.inj hread)

namespace Message
variable {values others : List Value}

theorem format?_ofValues (h : ∀ v ∈ values, v.object? = none) (highlights : Highlights) :
    ((ofValues values).typeset highlights none .terminal).format? =
      some (String.ofList (Draft.escapePercent (Value.listed values))) := by
  have hrule : StylingRule.lenient (ofValues values).values = false := rfl
  have hline := typeset_styled hrule highlights none .terminal
  have hbody : Markup.bodySymbols ((ofValues values).items highlights) .terminal =
      (Value.listed values).map .shown := terminal_ofValues h highlights
  have hplace : traceSymbols none .terminal = [] := rfl
  rw [hplace, List.append_nil, hbody] at hline
  rw [Screen.terminal, hline, Line.ofSymbols, Line.format?, map_map_shown, spell_map_shown]

/-- Null, truth values, whole numbers and texts are told by the line of their list: on a terminal,
with any highlights, two lists have the same format exactly when they are as long as each other and
their values are the same one by one. -/
theorem format_ofValues_eq_iff (hv : ∀ v ∈ values, v.IsDiscrete)
    (ho : ∀ v ∈ others, v.IsDiscrete) (highlights marks : Highlights) :
    ∃ format other,
      ((ofValues values).typeset highlights none .terminal).format? = some format ∧
        ((ofValues others).typeset marks none .terminal).format? = some other ∧
        (format = other ↔ List.Forall₂ (fun v w => v.same w = true) values others) := by
  refine ⟨_, _, format?_ofValues (fun v h => (hv v h).object?_eq_none) highlights,
    format?_ofValues (fun v h => (ho v h).object?_eq_none) marks, ?_⟩
  rw [Value.forall₂_same_iff_eq hv ho]
  constructor
  · intro h
    exact Value.listed_inj hv ho (Draft.escapePercent_injective (String.ofList_inj.mp h))
  · intro h
    rw [h]

/-- One text with the line of two in it, and the two: quotes and commas do not deceive. -/
theorem format_ofValues_eq_iff_quotes :
    (∀ v ∈ [Value.text "a\", \"100%", .null, .int (-7)], v.IsDiscrete) ∧
      (∀ v ∈ [Value.text "a", .text "100%", .null, .int (-7)], v.IsDiscrete) ∧
      ((ofValues [.text "a\", \"100%", .null, .int (-7)]).typeset .none none .terminal).format? ≠
        ((ofValues [.text "a", .text "100%", .null, .int (-7)]).typeset .none none
          .terminal).format? := by
  have hv : ∀ v ∈ [Value.text "a\", \"100%", .null, .int (-7)], v.IsDiscrete := by decide
  have ho : ∀ v ∈ [Value.text "a", .text "100%", .null, .int (-7)], v.IsDiscrete := by decide
  refine ⟨hv, ho, ?_⟩
  obtain ⟨format, other, hformat, hother, hiff⟩ := format_ofValues_eq_iff hv ho .none .none
  rw [hformat, hother]
  intro h
  have hsame := hiff.mp (Option.some.inj h)
  cases hsame.length_eq

end Message
end RenderLog
