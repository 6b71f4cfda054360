import Mathlib.Data.List.Basic
import RenderLog.Message

/-!
# Templates of any form

A template is read as pieces, one after another: a character, which is doubled when it is a
brace, or a placeholder. A brace that starts no piece stands for itself, so every text is a
template and has one reading.

The count of placeholders goes through the bytes of a text and the cut into segments through
its characters; both follow the reading. A message takes a value for each placeholder as
long as there are values. The placeholders that are left over are literal text of its last
segment, and the segments before that one are the same however many values there are.
-/
namespace RenderLog.Template

def IsBrace (c : Char) : Prop := c = '\x7b' ∨ c = '\x7d'

instance (c : Char) : Decidable (IsBrace c) := inferInstanceAs (Decidable (_ ∨ _))

inductive Piece
  | literal (c : Char)
  | placeholder
  deriving DecidableEq, Repr

/-- The pieces of a text of any form. A brace that starts no piece stands for itself. -/
inductive Reads : List Char → List Piece → Prop
  | done : Reads [] []
  | other {c : Char} {rest : List Char} {ps : List Piece} : ¬ IsBrace c → Reads rest ps →
      Reads (c :: rest) (.literal c :: ps)
  | doubled {c d : Char} {rest : List Char} {ps : List Piece} : IsBrace c → d = c →
      Reads rest ps → Reads (c :: d :: rest) (.literal c :: ps)
  | placeholder {c d : Char} {rest : List Char} {ps : List Piece} : c = '\x7b' → d = '\x7d' →
      Reads rest ps → Reads (c :: d :: rest) (.placeholder :: ps)
  | lone {c : Char} {rest : List Char} {ps : List Piece} : IsBrace c → rest.head? ≠ some c →
      (c = '\x7b' → rest.head? ≠ some '\x7d') → Reads rest ps →
      Reads (c :: rest) (.literal c :: ps)

def cut : List Piece → List (List Char)
  | [] => [[]]
  | .literal c :: rest => glue [c] (cut rest)
  | .placeholder :: rest => [] :: cut rest

/-- The placeholder between texts that are not cut. -/
def placeholderText : List Char := ['\x7b', '\x7d']

/-- The texts cut only at the first `n` placeholders. -/
def rejoin (n : Nat) (texts : List (List Char)) : List (List Char) :=
  texts.take n ++ [placeholderText.intercalate (texts.drop n)]

section Reading
variable {cs : List Char} {ps other : List Piece}

theorem template_cases (cs : List Char) :
    cs = [] ∨ (∃ c rest, cs = c :: rest ∧ ¬ IsBrace c) ∨
      (∃ c rest, cs = c :: c :: rest ∧ IsBrace c) ∨ (∃ rest, cs = '\x7b' :: '\x7d' :: rest) ∨
      ∃ c rest, cs = c :: rest ∧ IsBrace c ∧ rest.head? ≠ some c ∧
        (c = '\x7b' → rest.head? ≠ some '\x7d') := by
  cases cs with
  | nil => exact .inl rfl
  | cons c rest =>
      right
      by_cases hc : IsBrace c
      · right
        by_cases hdoubled : rest.head? = some c
        · obtain ⟨tail, rfl⟩ := List.head?_eq_some_iff.mp hdoubled
          exact .inl ⟨c, tail, rfl, hc⟩
        · right
          by_cases hpair : c = '\x7b' ∧ rest.head? = some '\x7d'
          · obtain ⟨rfl, hclose⟩ := hpair
            obtain ⟨tail, rfl⟩ := List.head?_eq_some_iff.mp hclose
            exact .inl ⟨tail, rfl⟩
          · exact .inr ⟨c, rest, rfl, hc, hdoubled, fun ho hclose => hpair ⟨ho, hclose⟩⟩
      · exact .inl ⟨c, rest, rfl, hc⟩

theorem exists_reads (cs : List Char) : ∃ ps, Reads cs ps := by
  induction hn : cs.length using Nat.strongRecOn generalizing cs with
  | ind n ih =>
      subst hn
      rcases template_cases cs with rfl | ⟨c, rest, rfl, hc⟩ | ⟨c, rest, rfl, hc⟩ |
        ⟨rest, rfl⟩ | ⟨c, rest, rfl, hc, hdoubled, hclose⟩
      · exact ⟨_, .done⟩
      · obtain ⟨ps, h⟩ := ih rest.length (by simp) rest rfl
        exact ⟨_, .other hc h⟩
      · obtain ⟨ps, h⟩ := ih rest.length (Nat.lt_succ_of_lt (Nat.lt_succ_self _)) rest rfl
        exact ⟨_, .doubled hc rfl h⟩
      · obtain ⟨ps, h⟩ := ih rest.length (Nat.lt_succ_of_lt (Nat.lt_succ_self _)) rest rfl
        exact ⟨_, .placeholder rfl rfl h⟩
      · obtain ⟨ps, h⟩ := ih rest.length (by simp) rest rfl
        exact ⟨_, .lone hc hdoubled hclose h⟩

theorem Reads.unique (h : Reads cs ps) (h' : Reads cs other) : ps = other := by
  induction h generalizing other with
  | done =>
      cases h'
      rfl
  | other hc _ ih =>
      cases h' with
      | other _ h' => rw [ih h']
      | doubled hb _ _ => exact (hc hb).elim
      | placeholder ho _ _ => exact (hc (.inl ho)).elim
      | lone hb _ _ _ => exact (hc hb).elim
  | doubled hc hd _ ih =>
      cases h' with
      | other hb _ => exact (hb hc).elim
      | doubled _ _ h' => rw [ih h']
      | placeholder ho hclose _ =>
          subst ho hclose
          cases hd
      | lone _ hdoubled _ _ => exact (hdoubled (congrArg some hd)).elim
  | placeholder ho hd _ ih =>
      cases h' with
      | other hb _ => exact (hb (.inl ho)).elim
      | doubled _ he _ =>
          subst ho hd
          cases he
      | placeholder _ _ h' => rw [ih h']
      | lone _ _ hclose _ => exact (hclose ho (congrArg some hd)).elim
  | lone hc hdoubled hclose _ ih =>
      cases h' with
      | other hb _ => exact (hb hc).elim
      | doubled _ he _ => exact (hdoubled (congrArg some he)).elim
      | placeholder ho he _ => exact (hclose ho (congrArg some he)).elim
      | lone _ _ _ h' => rw [ih h']

end Reading

section Count
variable {c : Char} {cs : List Char} {ps : List Piece} {bs : List UInt8}

/-- A character takes one byte, which is its number, or only bytes above 127. -/
theorem utf8EncodeChar_cases (c : Char) :
    String.utf8EncodeChar c = [UInt8.ofNat c.toNat] ∧ c.toNat ≤ 127 ∨
      ∀ b ∈ String.utf8EncodeChar c, 127 < b.toNat := by
  have high (n m k : Nat) (hk : 127 < k) (hm : 0 < m) (h : m + k ≤ 256) :
      127 < (UInt8.ofNat (n % m + k)).toNat := by
    have := Nat.mod_lt n hm
    rw [UInt8.toNat_ofNat', Nat.mod_eq_of_lt (by omega)]
    omega
  by_cases hc : c.val.toNat ≤ 127
  · exact .inl ⟨if_pos hc, hc⟩
  · refine .inr fun b hb => ?_
    simp only [String.utf8EncodeChar, hc, if_false] at hb
    split_ifs at hb <;> simp only [List.mem_cons, List.not_mem_nil, or_false] at hb <;>
      rcases hb with rfl | rfl | rfl | rfl <;> exact high _ _ _ (by decide) (by decide) (by decide)

theorem ne_of_mem_utf8EncodeChar (hc : ¬ IsBrace c) :
    ∀ b ∈ String.utf8EncodeChar c, b ≠ 0x7b ∧ b ≠ 0x7d := by
  intro b hb
  rcases utf8EncodeChar_cases c with ⟨h, hn⟩ | h
  · rw [h, List.mem_singleton] at hb
    have number (n : Nat) (he : b = UInt8.ofNat n) (hm : n < 256) : c.toNat = n := by
      have := congrArg UInt8.toNat (hb.symm.trans he)
      rwa [UInt8.toNat_ofNat', UInt8.toNat_ofNat', Nat.mod_eq_of_lt (by omega),
        Nat.mod_eq_of_lt hm] at this
    refine ⟨fun he => hc (.inl ?_), fun he => hc (.inr ?_)⟩
    · exact Char.toNat_inj.1 (number 0x7b he (by decide))
    · exact Char.toNat_inj.1 (number 0x7d he (by decide))
  · have := h b hb
    exact ⟨fun he => by simp [he] at this, fun he => by simp [he] at this⟩

theorem placeholdersIn_append (h : ∀ b ∈ bs, b ≠ 0x7b ∧ b ≠ 0x7d) (rest : List UInt8) :
    placeholdersIn (bs ++ rest) = placeholdersIn rest := by
  induction bs with
  | nil => rfl
  | cons b bs ih =>
      obtain ⟨hb, hbs⟩ := List.forall_mem_cons.1 h
      rw [List.cons_append, ← ih hbs]
      cases bs ++ rest <;> simp [placeholdersIn, hb]

/-- A byte that starts no pair is passed over. -/
theorem placeholdersIn_lone {b : UInt8}
    (h : ∀ x ∈ bs.head?, ¬ (b = 0x7b ∧ x = 0x7d) ∧ ¬ (b = x ∧ (b = 0x7b ∨ b = 0x7d))) :
    placeholdersIn (b :: bs) = placeholdersIn bs := by
  cases bs with
  | nil => rfl
  | cons x bs =>
      obtain ⟨hpair, hdoubled⟩ := h x rfl
      rw [placeholdersIn, if_neg hpair, if_neg hdoubled]

theorem placeholderCount_cons (h : ¬ IsBrace c) (cs : List Char) :
    placeholderCount (c :: cs) = placeholderCount cs :=
  placeholdersIn_append (ne_of_mem_utf8EncodeChar h) (bytes cs)

theorem eq_of_mem_utf8EncodeChar {b : UInt8} (h : b ∈ String.utf8EncodeChar c) :
    (b = 0x7b → c = '\x7b') ∧ (b = 0x7d → c = '\x7d') := by
  by_cases hc : IsBrace c
  · rcases hc with rfl | rfl
    · obtain rfl : b = 0x7b := List.mem_singleton.mp h
      exact ⟨fun _ => rfl, fun he => absurd he (by decide)⟩
    · obtain rfl : b = 0x7d := List.mem_singleton.mp h
      exact ⟨fun he => absurd he (by decide), fun _ => rfl⟩
  · obtain ⟨hopen, hclose⟩ := ne_of_mem_utf8EncodeChar hc b h
    exact ⟨fun he => (hopen he).elim, fun he => (hclose he).elim⟩

theorem exists_of_mem_head?_bytes {b : UInt8} (h : b ∈ (bytes cs).head?) :
    ∃ c, cs.head? = some c ∧ b ∈ String.utf8EncodeChar c := by
  cases cs with
  | nil => cases h
  | cons c cs =>
      rw [bytes, List.flatMap_cons, List.head?_append_of_ne_nil _ String.utf8EncodeChar_ne_nil] at h
      exact ⟨c, rfl, List.mem_of_mem_head? h⟩

/-- The byte behind a brace that starts no pair is not the one that would make a pair. -/
theorem placeholderCount_lone (hc : IsBrace c) (hdoubled : cs.head? ≠ some c)
    (hclose : c = '\x7b' → cs.head? ≠ some '\x7d') :
    placeholderCount (c :: cs) = placeholderCount cs := by
  have hopens (h : 0x7b ∈ (bytes cs).head?) : cs.head? = some '\x7b' := by
    obtain ⟨d, hd, hmem⟩ := exists_of_mem_head?_bytes h
    rw [hd, (eq_of_mem_utf8EncodeChar hmem).1 rfl]
  have hcloses (h : 0x7d ∈ (bytes cs).head?) : cs.head? = some '\x7d' := by
    obtain ⟨d, hd, hmem⟩ := exists_of_mem_head?_bytes h
    rw [hd, (eq_of_mem_utf8EncodeChar hmem).2 rfl]
  rcases hc with rfl | rfl
  · apply placeholdersIn_lone
    rintro x hx
    refine ⟨?_, ?_⟩
    · rintro ⟨-, rfl⟩
      exact hclose rfl (hcloses hx)
    · rintro ⟨rfl, -⟩
      exact hdoubled (hopens hx)
  · apply placeholdersIn_lone
    rintro x hx
    refine ⟨?_, ?_⟩
    · rintro ⟨he, -⟩
      exact absurd he (by decide)
    · rintro ⟨rfl, -⟩
      exact hdoubled (hcloses hx)

theorem Reads.placeholderCount_eq (h : Reads cs ps) :
    placeholderCount cs = ps.count .placeholder := by
  induction h with
  | done => rfl
  | other hc _ ih =>
      rw [placeholderCount_cons hc, ih, List.count_cons_of_ne (by simp)]
  | doubled hc hd _ ih =>
      subst hd
      rw [List.count_cons_of_ne (by simp), ← ih]
      rcases hc with rfl | rfl <;> rfl
  | placeholder ho hd _ ih =>
      subst ho hd
      rw [List.count_cons_self, ← ih]
      rfl
  | lone hc hdoubled hclose _ ih =>
      rw [placeholderCount_lone hc hdoubled hclose, ih, List.count_cons_of_ne (by simp)]

end Count

section Cut
variable {c : Char} {cs : List Char} {ps : List Piece} {texts : List (List Char)} {n : Nat}

theorem glue_ne_nil (cs : List Char) (texts : List (List Char)) : glue cs texts ≠ [] := by
  cases texts <;> simp [glue]

theorem cut_ne_nil (ps : List Piece) : cut ps ≠ [] := by
  cases ps with
  | nil => simp [cut]
  | cons p ps =>
      cases p with
      | literal c => exact glue_ne_nil _ _
      | placeholder => simp [cut]

theorem length_glue (cs : List Char) (h : texts ≠ []) : (glue cs texts).length = texts.length := by
  cases texts with
  | nil => exact absurd rfl h
  | cons text texts => rfl

theorem length_cut (ps : List Piece) : (cut ps).length = ps.count .placeholder + 1 := by
  induction ps with
  | nil => rfl
  | cons p ps ih =>
      cases p with
      | literal c => rw [cut, length_glue _ (cut_ne_nil ps), ih, List.count_cons_of_ne (by simp)]
      | placeholder => rw [cut, List.length_cons, ih, List.count_cons_self]

theorem segments_cons (h : ¬ IsBrace c) (limit : Nat) (cs : List Char) :
    segments limit (c :: cs) = glue [c] (segments limit cs) := by
  simp only [IsBrace, not_or] at h
  cases cs with
  | nil => rfl
  | cons d rest => simp [segments, h]

theorem segments_lone (hdoubled : cs.head? ≠ some c)
    (hclose : c = '\x7b' → cs.head? ≠ some '\x7d') (limit : Nat) :
    segments limit (c :: cs) = glue [c] (segments limit cs) := by
  cases cs with
  | nil => rfl
  | cons d rest =>
      have hpair : ¬ (c = '\x7b' ∧ d = '\x7d') := fun h => hclose h.1 (congrArg some h.2)
      have hsame : ¬ (c = d ∧ (c = '\x7b' ∨ c = '\x7d')) :=
        fun h => hdoubled (congrArg some h.1.symm)
      rw [segments, if_neg hpair, if_neg hsame]

/-- A text in front of the first one stays there. -/
theorem rejoin_glue (c : Char) (h : texts ≠ []) (n : Nat) :
    rejoin n (glue [c] texts) = glue [c] (rejoin n texts) := by
  obtain ⟨first, rest, rfl⟩ := List.exists_cons_of_ne_nil h
  cases n with
  | zero => cases rest <;> simp [rejoin, glue]
  | succ n => simp [rejoin, glue]

theorem rejoin_zero_nil_cons (h : texts ≠ []) :
    rejoin 0 ([] :: texts) = glue placeholderText (rejoin 0 texts) := by
  obtain ⟨first, rest, rfl⟩ := List.exists_cons_of_ne_nil h
  simp [rejoin, glue]

theorem rejoin_succ_cons (n : Nat) (text : List Char) :
    rejoin (n + 1) (text :: texts) = text :: rejoin n texts := rfl

/-- Nothing is joined when all placeholders are cut at. -/
theorem rejoin_eq_self (h : texts.length = n + 1) : rejoin n texts = texts := by
  have hlast : (texts.drop n).length = 1 := by rw [List.length_drop]; omega
  obtain ⟨last, hl⟩ := List.length_eq_one_iff.mp hlast
  rw [rejoin, hl, List.intercalate_singleton, ← hl, List.take_append_drop]

/-- A template is cut at its placeholders as long as the limit allows. -/
theorem Reads.segments_eq (h : Reads cs ps) (limit : Nat) :
    segments limit cs = rejoin (min (ps.count .placeholder) limit) (cut ps) := by
  induction h generalizing limit with
  | done => rw [segments, List.count_nil, Nat.zero_min]; rfl
  | @other c _ ps hc _ ih =>
      rw [segments_cons hc, ih, cut, rejoin_glue c (cut_ne_nil ps),
        List.count_cons_of_ne (by simp)]
  | @doubled c d rest ps hc hd _ ih =>
      have hglue : segments limit (c :: d :: rest) = glue [c] (segments limit rest) := by
        subst hd
        rcases hc with rfl | rfl <;> rfl
      rw [hglue, ih, cut, rejoin_glue c (cut_ne_nil ps), List.count_cons_of_ne (by simp)]
  | @placeholder c d rest ps ho hd _ ih =>
      subst ho hd
      rw [cut, List.count_cons_self]
      cases limit with
      | zero =>
          have hglue : segments 0 ('\x7b' :: '\x7d' :: rest) =
              glue placeholderText (segments 0 rest) := rfl
          rw [hglue, ih, Nat.min_zero, Nat.min_zero, rejoin_zero_nil_cons (cut_ne_nil ps)]
      | succ limit =>
          have hcons : segments (limit + 1) ('\x7b' :: '\x7d' :: rest) =
              [] :: segments limit rest := rfl
          rw [hcons, ih, Nat.add_min_add_right, rejoin_succ_cons]
  | @lone c _ ps hc hdoubled hclose _ ih =>
      rw [segments_lone hdoubled hclose, ih, cut, rejoin_glue c (cut_ne_nil ps),
        List.count_cons_of_ne (by simp)]

theorem length_rejoin (h : n ≤ texts.length) : (rejoin n texts).length = n + 1 := by
  rw [rejoin, List.length_append, List.length_take_of_le h, List.length_singleton]

theorem take_rejoin {j : Nat} (hj : j ≤ n) (h : n ≤ texts.length) :
    (rejoin n texts).take j = texts.take j := by
  have hlength : j ≤ (texts.take n).length := by rwa [List.length_take_of_le h]
  rw [rejoin, List.take_append_of_le_length hlength, List.take_take, Nat.min_eq_left hj]

/-- The message of a template has the texts between the placeholders that get a value. -/
theorem Reads.ofTemplate_eq {template : String} (h : Reads template.toList ps)
    (values : List Value) :
    Message.ofTemplate template values =
      ⟨(rejoin (min (ps.count .placeholder) values.length) (cut ps)).map String.ofList,
        values.take (min (ps.count .placeholder) values.length)⟩ := by
  have hle : min (ps.count .placeholder) values.length ≤ (cut ps).length := by
    rw [length_cut]
    omega
  rw [Message.ofTemplate, h.segments_eq, length_rejoin hle, Nat.add_sub_cancel]

end Cut

/-- Every text is a template with one reading, and the count of placeholders is that of the reading.
A message takes the first values, one for each placeholder, and has one segment more. The segments
before the last are those of the reading, however many values there are; the last is the rest of
the template, with a pair of braces for each placeholder in it. -/
theorem ofTemplate_takes (template : String) :
    ∃ ps, (∀ other, Reads template.toList other ↔ other = ps) ∧
      placeholderCount template.toList = ps.count .placeholder ∧
      ∀ values : List Value,
        let k := min (placeholderCount template.toList) values.length
        let m := Message.ofTemplate template values
        m.values = values.take k ∧ m.values.length = k ∧ m.segments.length = k + 1 ∧
          m.segments.take k = ((cut ps).take k).map String.ofList ∧
          m.segments.getLast? =
            some (String.ofList (placeholderText.intercalate ((cut ps).drop k))) ∧
          ∀ more, (Message.ofTemplate template (values ++ more)).segments.take k =
            m.segments.take k := by
  obtain ⟨ps, h⟩ := exists_reads template.toList
  have hcount := h.placeholderCount_eq
  refine ⟨ps, fun other => ⟨fun h' => h'.unique h, fun he => he ▸ h⟩, hcount, fun values => ?_⟩
  intro k m
  have hk : k ≤ (cut ps).length := by
    rw [length_cut, ← hcount]
    omega
  have hm : m = ⟨(rejoin k (cut ps)).map String.ofList, values.take k⟩ := by
    have he := h.ofTemplate_eq values
    rwa [← hcount] at he
  have htake : m.segments.take k = ((cut ps).take k).map String.ofList := by
    rw [hm, ← List.map_take, take_rejoin (Nat.le_refl k) hk]
  refine ⟨by rw [hm], ?_, ?_, htake, ?_, fun more => ?_⟩
  · rw [hm, List.length_take_of_le (Nat.min_le_right _ _)]
  · rw [hm, List.length_map, length_rejoin hk]
  · rw [hm, List.getLast?_map, rejoin, List.getLast?_concat, Option.map_some]
  · -- More values cut the template at more placeholders, all of them behind the ones for `values`.
    have hmore : k ≤ min (ps.count .placeholder) (values ++ more).length := by
      rw [List.length_append, ← hcount]
      omega
    have hle : min (ps.count .placeholder) (values ++ more).length ≤ (cut ps).length := by
      rw [length_cut]
      omega
    rw [htake, h.ofTemplate_eq, ← List.map_take, take_rejoin hmore hle]

-- A lone brace, a doubled one, and two placeholders of which the second has no value.
example : Message.ofTemplate "\x7bé \x7b\x7b \x7b\x7d, \x7b\x7d \x7d" [.int 1] =
    ⟨["\x7bé \x7b ", ", \x7b\x7d \x7d"], [.int 1]⟩ := by decide

end RenderLog.Template
