import RenderLog.Value

/-!
# Highlights

The positions of the values that changed since the render before. They are kept
in ascending order without repetition, so that two sets are equal when they mark
the same positions.
-/
namespace RenderLog

structure Highlights where
  positions : List Nat
  ascending : positions.Pairwise (· < ·)
  deriving DecidableEq

/-- Inserts a position into an ascending list unless it is there. -/
def insertPosition (i : Nat) : List Nat → List Nat
  | [] => [i]
  | j :: rest =>
    if i < j then i :: j :: rest
    else if i = j then j :: rest
    else j :: insertPosition i rest

theorem mem_insertPosition {i j : Nat} {l : List Nat} :
    j ∈ insertPosition i l ↔ j = i ∨ j ∈ l := by
  induction l with
  | nil => simp [insertPosition]
  | cons k rest ih =>
    simp only [insertPosition]
    split
    · simp
    · split
      · rename_i h; subst h; simp
      · simp [ih, or_left_comm]

theorem insertPosition_ascending {i : Nat} {l : List Nat} (h : l.Pairwise (· < ·)) :
    (insertPosition i l).Pairwise (· < ·) := by
  induction l with
  | nil => simp [insertPosition]
  | cons k rest ih =>
    have hk := List.pairwise_cons.mp h
    simp only [insertPosition]
    split
    · rename_i hlt
      refine List.pairwise_cons.mpr ⟨fun j hj => ?_, h⟩
      rcases List.mem_cons.mp hj with rfl | hj
      · exact hlt
      · exact Nat.lt_trans hlt (hk.1 j hj)
    · split
      · exact h
      · refine List.pairwise_cons.mpr ⟨fun j hj => ?_, ih hk.2⟩
        rcases mem_insertPosition.mp hj with rfl | hj
        · omega
        · exact hk.1 j hj

namespace Highlights

def none : Highlights := ⟨[], .nil⟩

def insert (h : Highlights) (i : Nat) : Highlights :=
  ⟨insertPosition i h.positions, insertPosition_ascending h.ascending⟩

def ofList (positions : List Nat) : Highlights := positions.foldl insert none

def marks (h : Highlights) (i : Nat) : Bool := h.positions.contains i

def isEmpty (h : Highlights) : Bool := h.positions.isEmpty

/-- The positions below `n` that satisfy `p`. -/
def below (n : Nat) (p : Nat → Bool) : Highlights :=
  ⟨(List.range n).filter p, List.Pairwise.filter p List.pairwise_lt_range⟩

@[simp] theorem marks_none (i : Nat) : none.marks i = false := rfl

@[simp] theorem marks_insert (h : Highlights) (i j : Nat) :
    (h.insert i).marks j = (decide (j = i) || h.marks j) := by
  simp [marks, insert, mem_insertPosition]

@[simp] theorem marks_below (n : Nat) (p : Nat → Bool) (i : Nat) :
    (below n p).marks i = (decide (i < n) && p i) := by
  cases hp : p i <;> simp [marks, below, hp]

/-- What changed between two renders: nothing to compare with on the first one, every
position when the number of values differs, otherwise the positions whose values are
not the same. None when nothing changed. -/
def between (before : Option (List Value)) (now : List Value) : Option Highlights :=
  match before with
  | .none => some none
  | some before =>
    if before.length ≠ now.length then some (below now.length fun _ => true)
    else
      let differs := List.zipWith (fun v w => !v.same w) before now
      let changed := below now.length fun i => differs.getD i false
      if changed.isEmpty then .none else some changed

end Highlights
end RenderLog
