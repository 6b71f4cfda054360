import RenderLog.Proofs.Pieces

/-!
# The grammar of brace templates

A well-formed template is spelled by pieces, one after another: a character, which
is doubled when it is a brace, or a placeholder. Its reading is these pieces, so the
count and the cut into segments are known from there; the check is followed along
the spelling, byte by byte. What the pieces leave open is a brace that starts no
piece, and there the check fails.
-/
namespace RenderLog.Template

/-- The spelling of a piece in a well-formed template. -/
def Piece.chars : Piece → List Char
  | .literal c => if IsBrace c then [c, c] else [c]
  | .placeholder => ['\x7b', '\x7d']

theorem Piece.length_chars_pos (p : Piece) : 0 < p.chars.length := by
  cases p with
  | placeholder => decide
  | literal c => simp only [Piece.chars]; split <;> simp

/-- The template that the pieces spell. -/
def spell (pieces : List Piece) : List Char := pieces.flatMap Piece.chars

theorem spell_cons (p : Piece) (ps : List Piece) : spell (p :: ps) = p.chars ++ spell ps := rfl

theorem spell_append (ps qs : List Piece) : spell (ps ++ qs) = spell ps ++ spell qs :=
  List.flatMap_append

section Bytes
variable {c : Char} {bs rest : List UInt8}

theorem bracesPair_append (h : ∀ b ∈ bs, b ≠ 0x7b ∧ b ≠ 0x7d) (rest : List UInt8) :
    bracesPair (bs ++ rest) = bracesPair rest := by
  induction bs with
  | nil => rfl
  | cons b bs ih =>
      obtain ⟨hb, hbs⟩ := List.forall_mem_cons.1 h
      rw [List.cons_append, ← ih hbs]
      cases bs ++ rest <;> simp [bracesPair, hb]

/-- A brace that starts no pair fails the check. -/
theorem bracesPair_lone {b : UInt8} (hb : b = 0x7b ∨ b = 0x7d)
    (h : ∀ x ∈ bs.head?, x ≠ 0x7b ∧ x ≠ 0x7d) : bracesPair (b :: bs) = false := by
  cases bs with
  | nil => rcases hb with rfl | rfl <;> rfl
  | cons x bs =>
      have hx := h x rfl
      rcases hb with rfl | rfl <;> simp [bracesPair, hx]

end Bytes

section Pieces
variable {c : Char} {cs : List Char}

theorem isValid_cons (h : ¬ IsBrace c) (cs : List Char) : isValid (c :: cs) = isValid cs :=
  bracesPair_append (ne_of_mem_utf8EncodeChar h) (bytes cs)

theorem isValid_chars_append (p : Piece) (cs : List Char) :
    isValid (p.chars ++ cs) = isValid cs := by
  cases p with
  | placeholder => rfl
  | literal c =>
      by_cases hc : IsBrace c
      · rcases hc with rfl | rfl <;> rfl
      · simpa [Piece.chars, hc] using isValid_cons hc cs

/-- The byte after the brace belongs to a character that is no brace. -/
theorem isValid_lone {d : Char} (hc : IsBrace c) (hd : ¬ IsBrace d) :
    isValid (c :: d :: cs) = false := by
  have hx : ∀ x ∈ (bytes (d :: cs)).head?, x ≠ 0x7b ∧ x ≠ 0x7d := by
    intro x hx
    obtain ⟨e, he, hmem⟩ := exists_of_mem_head?_bytes hx
    obtain rfl := Option.some.inj he
    exact ne_of_mem_utf8EncodeChar hd x hmem
  rcases hc with rfl | rfl
  · exact bracesPair_lone (.inl rfl) hx
  · exact bracesPair_lone (.inr rfl) hx

/-- A brace that the check passes starts a piece. -/
theorem exists_chars_of_isBrace (hc : IsBrace c) (h : isValid (c :: cs) = true) :
    ∃ p rest, c :: cs = Piece.chars p ++ rest := by
  cases cs with
  | nil => rcases hc with rfl | rfl <;> cases h
  | cons d rest =>
      by_cases hd : IsBrace d
      · rcases hc with rfl | rfl <;> rcases hd with rfl | rfl
        · exact ⟨.literal '\x7b', rest, rfl⟩
        · exact ⟨.placeholder, rest, rfl⟩
        · cases h
        · exact ⟨.literal '\x7d', rest, rfl⟩
      · rw [isValid_lone hc hd] at h
        cases h

/-- The check passes only what pieces spell. -/
theorem exists_spell_of_isValid (h : isValid cs = true) : ∃ pieces, cs = spell pieces := by
  -- The recursion is on the length: a piece takes one character or two.
  induction hn : cs.length using Nat.strongRecOn generalizing cs with
  | ind n ih =>
      cases cs with
      | nil => exact ⟨[], rfl⟩
      | cons c cs =>
          have ⟨p, rest, he⟩ : ∃ p rest, c :: cs = Piece.chars p ++ rest := by
            by_cases hc : IsBrace c
            · exact exists_chars_of_isBrace hc h
            · exact ⟨.literal c, cs, by simp [Piece.chars, hc]⟩
          have hlt : rest.length < n := by
            have := p.length_chars_pos
            rw [← hn, he, List.length_append]
            omega
          rw [he, isValid_chars_append] at h
          obtain ⟨ps, hps⟩ := ih rest.length hlt h rfl
          exact ⟨p :: ps, by rw [he, hps, spell_cons]⟩

end Pieces

/-- The pieces of the template with these segments. -/
def pieces : List (List Char) → List Piece
  | [] => []
  | [segment] => segment.map .literal
  | segment :: rest => segment.map .literal ++ .placeholder :: pieces rest

section Cut
variable {ps : List Piece} {texts : List (List Char)}

theorem pieces_nil_cons (h : texts ≠ []) : pieces ([] :: texts) = .placeholder :: pieces texts := by
  cases texts with
  | nil => exact absurd rfl h
  | cons text texts => rfl

theorem pieces_glue (c : Char) (h : texts ≠ []) :
    pieces (glue [c] texts) = .literal c :: pieces texts := by
  cases texts with
  | nil => exact absurd rfl h
  | cons text texts => cases texts <;> rfl

theorem pieces_cut (ps : List Piece) : pieces (cut ps) = ps := by
  induction ps with
  | nil => rfl
  | cons p ps ih =>
      cases p with
      | literal c => rw [cut, pieces_glue c (cut_ne_nil ps), ih]
      | placeholder => rw [cut, pieces_nil_cons (cut_ne_nil ps), ih]

theorem cut_append (text : List Char) (ps : List Piece) :
    cut (text.map .literal ++ ps) = glue text (cut ps) := by
  induction text with
  | nil =>
      obtain ⟨first, rest, he⟩ := List.exists_cons_of_ne_nil (cut_ne_nil ps)
      simp [he, glue]
  | cons c text ih =>
      obtain ⟨first, rest, he⟩ := List.exists_cons_of_ne_nil (cut_ne_nil ps)
      simp [cut, ih, he, glue]

theorem cut_map (text : List Char) : cut (text.map .literal) = [text] := by
  simpa [cut, glue] using cut_append text []

theorem cut_pieces (h : texts ≠ []) : cut (pieces texts) = texts := by
  fun_induction pieces texts with
  | case1 => exact absurd rfl h
  | case2 text => exact cut_map text
  | case3 text texts hne ih => simp [cut_append, cut, ih hne, glue]

theorem spell_map (text : List Char) : spell (text.map .literal) = escape text := by
  simp only [spell, escape, List.flatMap_map]
  rfl

theorem ofSegments_eq_spell (texts : List (List Char)) :
    ofSegments texts = spell (pieces texts) := by
  fun_induction pieces texts with
  | case1 => rfl
  | case2 text => rw [spell_map, ofSegments]
  | case3 text texts hne ih =>
      rw [spell_append, spell_map, spell_cons, ← ih, ofSegments]
      · rfl
      · exact hne

theorem reads_spell (ps : List Piece) : Reads (spell ps) ps := by
  induction ps with
  | nil => exact .done
  | cons p ps ih =>
      cases p with
      | placeholder => exact .placeholder rfl rfl ih
      | literal c =>
          rw [spell_cons, Piece.chars]
          split
          · exact .doubled (by assumption) rfl ih
          · exact .other (by assumption) ih

theorem placeholderCount_spell (ps : List Piece) :
    placeholderCount (spell ps) = ps.count .placeholder := (reads_spell ps).placeholderCount_eq

theorem isValid_spell (ps : List Piece) : isValid (spell ps) = true := by
  induction ps with
  | nil => rfl
  | cons p ps ih => rw [spell_cons, isValid_chars_append, ih]

end Cut

/-- The template with these segments. -/
def write (texts : List String) : String := String.ofList (ofSegments (texts.map String.toList))

/-- With a value for each placeholder the message has the segments that the pieces leave. -/
theorem ofTemplate_spell {ps : List Piece} {values : List Value}
    (h : values.length = ps.count .placeholder) :
    Message.ofTemplate (String.ofList (spell ps)) values =
      ⟨(cut ps).map String.ofList, values⟩ := by
  have hreads : Reads (String.ofList (spell ps)).toList ps := by
    rw [String.toList_ofList]
    exact reads_spell ps
  rw [hreads.ofTemplate_eq, ← h, Nat.min_self, List.take_length,
    rejoin_eq_self (by rw [length_cut, h])]

theorem write_eq (texts : List String) :
    write texts = String.ofList (spell (pieces (texts.map String.toList))) := by
  rw [write, ofSegments_eq_spell]

theorem cut_pieces_map {texts : List String} (h : texts ≠ []) :
    (cut (pieces (texts.map String.toList))).map String.ofList = texts := by
  rw [cut_pieces (by simpa using h), List.map_map]
  simp [Function.comp_def]

theorem write_cut (ps : List Piece) :
    write ((cut ps).map String.ofList) = String.ofList (spell ps) := by
  rw [write_eq, List.map_map]
  simp [Function.comp_def, pieces_cut]

/-- The check, the count and the reading of templates agree on one grammar. A template written
from segments passes the check, has a placeholder between each two of them and is read back as
these segments; nothing else passes the check; and what is read from a template that passes,
with a value for each placeholder, is written back as the same template. -/
theorem ofTemplate_write :
    (∀ (texts : List String) (values : List Value), texts.length = values.length + 1 →
      isValid (write texts).toList = true ∧
      placeholderCount (write texts).toList = values.length ∧
      Message.ofTemplate (write texts) values = ⟨texts, values⟩) ∧
    (∀ template : String, isValid template.toList = true ↔
      ∃ texts : List String, texts ≠ [] ∧ write texts = template) ∧
    (∀ (template : String) (values : List Value), isValid template.toList = true →
      placeholderCount template.toList = values.length →
      (Message.ofTemplate template values).values = values ∧
      write (Message.ofTemplate template values).segments = template) := by
  refine ⟨fun texts values h => ?_, fun template => ⟨fun h => ?_, ?_⟩,
    fun template values h hc => ?_⟩
  · have hne : texts ≠ [] := by
      rintro rfl
      simp at h
    have hn : values.length = (pieces (texts.map String.toList)).count .placeholder := by
      have := length_cut (pieces (texts.map String.toList))
      rw [cut_pieces (by simpa using hne), List.length_map] at this
      omega
    rw [write_eq, String.toList_ofList]
    refine ⟨isValid_spell _, (placeholderCount_spell _).trans hn.symm, ?_⟩
    rw [ofTemplate_spell hn, cut_pieces_map hne]
  · obtain ⟨ps, hps⟩ := exists_spell_of_isValid h
    refine ⟨(cut ps).map String.ofList, by simpa using cut_ne_nil ps, ?_⟩
    rw [write_cut, ← hps, String.ofList_toList]
  · rintro ⟨texts, -, rfl⟩
    rw [write_eq, String.toList_ofList]
    exact isValid_spell _
  · obtain ⟨ps, hps⟩ := exists_spell_of_isValid h
    rw [hps, placeholderCount_spell] at hc
    have ht : template = String.ofList (spell ps) := by rw [← hps, String.ofList_toList]
    rw [ht, ofTemplate_spell hc.symm]
    exact ⟨rfl, write_cut ps⟩

/-- A run of braces around a placeholder, next to characters of two and of four bytes. -/
theorem ofTemplate_write_braces :
    ["é\x7b", "\x7d🎈"].length = [Value.text "v"].length + 1 ∧
      write ["é\x7b", "\x7d🎈"] = "é\x7b\x7b\x7b\x7d\x7d\x7d🎈" ∧
      isValid (write ["é\x7b", "\x7d🎈"]).toList = true ∧
      placeholderCount (write ["é\x7b", "\x7d🎈"]).toList = 1 ∧
      Message.ofTemplate (write ["é\x7b", "\x7d🎈"]) [.text "v"] =
        ⟨["é\x7b", "\x7d🎈"], [.text "v"]⟩ ∧
      write (Message.ofTemplate (write ["é\x7b", "\x7d🎈"]) [.text "v"]).segments =
        write ["é\x7b", "\x7d🎈"] :=
  have ⟨hv, hc, hm⟩ := ofTemplate_write.1 ["é\x7b", "\x7d🎈"] [.text "v"] rfl
  ⟨rfl, by decide, hv, hc, hm, (ofTemplate_write.2.2 _ [.text "v"] hv hc).2⟩

end RenderLog.Template
