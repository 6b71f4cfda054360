import Mathlib.Data.List.Forall2
import RenderLog.Proofs.MessageLines
import RenderLog.Proofs.Quantities

/-!
# What a comparison of renders tells

A value is compared by its content: a floating-point number by the number, an object by its
identity, and whole numbers apart from the others. So sameness of values is equality of
contents, and nothing changed between two renders when their lists of contents are equal.

An encoding of no finite number is null by the time it is a value. It has a content as every
value has, and is the same as itself.
-/
namespace RenderLog

/-- What a value is compared by. -/
inductive Value.Content where
  | null
  | bool (b : Bool)
  | int (n : Int)
  | float (q : ℚ)
  | text (s : String)
  | object (identity : Nat)

namespace Number

def content : Number → Value.Content
  | .int n => .int n
  | .float x => .float x.toRat

theorem same_iff_content_eq (m n : Number) : m.same n = true ↔ m.content = n.content := by
  cases m with
  | int m => cases n <;> simp [same, content]
  | float x =>
      cases n with
      | int n => simp [same, content]
      | float y =>
          rw [same, Binary.same_iff_toRat_eq, content, content]
          exact ⟨congrArg Value.Content.float, Value.Content.float.inj⟩

end Number

namespace Value

def content : Value → Content
  | .null => .null
  | .bool b => .bool b
  | .number n => n.content
  | .text s => .text s
  | .object o => .object o.identity

theorem same_iff_content_eq (v w : Value) : v.same w = true ↔ v.content = w.content := by
  cases v with
  | number m =>
      cases w with
      | number n => exact m.same_iff_content_eq n
      | _ => cases m <;> simp [same, content, Number.content]
  | _ =>
      cases w with
      | number n => cases n <;> simp [same, content, Number.content]
      | _ => simp [same, content]

theorem same_equivalence : Equivalence fun v w : Value => v.same w = true where
  refl v := (same_iff_content_eq v v).mpr rfl
  symm h := (same_iff_content_eq _ _).mpr ((same_iff_content_eq _ _).mp h).symm
  trans h k := (same_iff_content_eq _ _).mpr
    (((same_iff_content_eq _ _).mp h).trans ((same_iff_content_eq _ _).mp k))

theorem same_comm (v w : Value) : v.same w = w.same v :=
  Bool.eq_iff_iff.mpr ⟨same_equivalence.symm, same_equivalence.symm⟩

end Value

/-- What a unit may hand over to be logged. Floating-point numbers come as their encodings. -/
inductive Loggable where
  | object (o : Object)
  | bool (b : Bool)
  | text (s : String)
  | int (n : Int)
  | wide (bits : Nat)
  | narrow (bits : Nat)
  | absent
  | present (l : Loggable)

namespace Loggable

/-- The value that is logged for it. -/
def value : Loggable → Value
  | .object o => .object o
  | .bool b => .bool b
  | .text s => .text s
  | .int n => .int n
  | .wide bits => .ofBits64 bits
  | .narrow bits => .ofBits32 bits
  | .absent => .ofOption none
  | .present l => .ofOption (some l.value)

/-- What it is to be compared by, with null for an encoding of no finite number. -/
def content : Loggable → Value.Content
  | .object o => .object o.identity
  | .bool b => .bool b
  | .text s => .text s
  | .int n => .int n
  | .wide bits => ((Number.encoded? 11 52 bits).map .float).getD .null
  | .narrow bits => ((Number.encoded? 8 23 bits).map .float).getD .null
  | .absent => .null
  | .present l => l.content

theorem content_value (l : Loggable) : l.value.content = l.content := by
  induction l with
  | wide bits =>
      rw [value, Value.ofBits64, content, ← Number.map_toRat_ofBits?]
      cases Number.Binary.ofBits? 11 52 bits <;> rfl
  | narrow bits =>
      rw [value, Value.ofBits32, content, ← Number.map_toRat_ofBits?]
      cases Number.Binary.ofBits? 8 23 bits with
      | none => rfl
      | some x => exact congrArg Value.Content.float (Number.toRat_widen x)
  | present l ih => exact ih
  | _ => rfl

end Loggable

namespace Highlights
variable {before now : List Value}

/-- Two lists have the same contents when they are as long and the same position by position. -/
theorem forall₂_same_iff :
    List.Forall₂ (fun v w => v.same w = true) before now ↔
      before.map Value.content = now.map Value.content := by
  rw [← List.forall₂_eq_eq_eq, List.forall₂_map_left_iff, List.forall₂_map_right_iff]
  exact ⟨List.Forall₂.imp fun v w => (Value.same_iff_content_eq v w).mp,
    List.Forall₂.imp fun v w => (Value.same_iff_content_eq v w).mpr⟩

theorem not_changes_iff :
    ¬ Changes before now ↔ List.Forall₂ (fun v w => v.same w = true) before now := by
  rw [List.forall₂_iff_get, Changes, not_or, not_ne_iff, not_exists]
  refine and_congr_right fun hlen => ⟨fun h i hb hn => ?_, ?_⟩
  · by_contra hne
    exact h i ⟨_, _, List.getElem?_eq_getElem hb, List.getElem?_eq_getElem hn,
      Bool.eq_false_iff.mpr hne⟩
  · rintro h i ⟨v, w, hv, hw, hne⟩
    obtain ⟨hb, rfl⟩ := List.getElem?_eq_some_iff.mp hv
    obtain ⟨hn, rfl⟩ := List.getElem?_eq_some_iff.mp hw
    exact Bool.false_ne_true (hne.symm.trans (h i hb hn))

theorem between_eq_none_iff :
    between (some before) now = Option.none ↔
      List.Forall₂ (fun v w => v.same w = true) before now := by
  rw [← not_changes_iff, ← isSome_between_some, Bool.not_eq_true, Option.isSome_eq_false_iff,
    Option.isNone_iff_eq_none]

theorem unchanged_equivalence :
    Equivalence fun before now : List Value => between (some before) now = Option.none := by
  have hkernel : (fun before now : List Value => between (some before) now = Option.none) =
      fun before now => before.map Value.content = now.map Value.content := by
    funext before now
    exact propext (between_eq_none_iff.trans forall₂_same_iff)
  rw [hkernel]
  exact eq_equivalence.comap (List.map Value.content)

theorem differs_comm (before now : List Value) : differs before now = differs now before := by
  funext i
  rw [differs, differs, List.zipWith_comm]
  simp only [Value.same_comm]

/-- Between lists of one length the changes are the same in both directions. -/
theorem between_comm (h : before.length = now.length) :
    between (some before) now = between (some now) before := by
  rw [between_of_length_eq h, between_of_length_eq h.symm, differs_comm, h]

/-- Sameness of values is equality of their contents, which are those of what was handed over.
A comparison of two renders tells whether their values are the same all through. If not, it
tells every position when their number differs and otherwise where the values are not the
same. -/
theorem between_exact :
    (∀ v w : Value, v.same w = true ↔ v.content = w.content) ∧
    (∀ l : Loggable, l.value.content = l.content) ∧
    Equivalence (fun v w : Value => v.same w = true) ∧
    Equivalence (fun before now : List Value => between (some before) now = Option.none) ∧
    ∀ before now : List Value,
      (between (some before) now = Option.none ↔
        List.Forall₂ (fun v w => v.same w = true) before now) ∧
      (before.length ≠ now.length → ∃ highlights, between (some before) now = some highlights ∧
        ∀ i, highlights.marks i = true ↔ i < now.length) ∧
      (before.length = now.length →
        between (some before) now = between (some now) before ∧
        ∀ highlights ∈ between (some before) now,
          ∀ i, highlights.marks i = true ↔ DiffersAt before now i) := by
  refine ⟨Value.same_iff_content_eq, Loggable.content_value, Value.same_equivalence,
    unchanged_equivalence, fun before now => ⟨between_eq_none_iff, fun hlen => ?_, fun hlen => ?_⟩⟩
  · refine ⟨_, between_of_length_ne hlen, fun i => ?_⟩
    rw [marks_below, Bool.and_true, decide_eq_true_iff]
  · refine ⟨between_comm hlen, fun highlights h i => ?_⟩
    rw [marks_of_between_some h, ChangedAt]
    exact ⟨fun hi => hi.2.resolve_left (not_not_intro hlen), fun hi => ⟨hi.lt, .inr hi⟩⟩

/-- Nothing has changed where not-a-number stands for null, a zero has another sign and format and
an object another debug text. Fewer values are a change without a position, and a whole number
that has become a floating-point one is a change in either direction. -/
theorem between_exact_shrunk :
    between (some [.ofBits64 0x7FF8000000000000, .ofBits32 0x80000000, .object ⟨0, "a"⟩])
        [.null, .ofBits64 0, .object ⟨0, "b"⟩] = Option.none ∧
      (∃ highlights, between (some [.null]) [] = some highlights ∧
        ∀ i, highlights.marks i = true ↔ i < 0) ∧
      (between (some [.int 1]) [.ofBits64 0x3FF0000000000000] =
          between (some [.ofBits64 0x3FF0000000000000]) [.int 1] ∧
        ∀ highlights ∈ between (some [.int 1]) [.ofBits64 0x3FF0000000000000],
          highlights.marks 0 = true) := by
  obtain ⟨-, -, -, -, h⟩ := between_exact
  have hsame : List.Forall₂ (fun v w : Value => v.same w = true)
      [.ofBits64 0x7FF8000000000000, .ofBits32 0x80000000, .object ⟨0, "a"⟩]
      [.null, .ofBits64 0, .object ⟨0, "b"⟩] :=
    .cons (by decide) (.cons (by decide) (.cons (by decide) .nil))
  obtain ⟨hsymm, hmarks⟩ := (h [.int 1] [.ofBits64 0x3FF0000000000000]).2.2 rfl
  exact ⟨(h _ _).1.mpr hsame, (h [.null] []).2.1 (by decide), hsymm,
    fun highlights hh => (hmarks highlights hh 0).mpr (by decide)⟩

end Highlights
end RenderLog
