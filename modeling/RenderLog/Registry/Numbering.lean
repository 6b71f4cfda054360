/-!
# Dense numberings

Live keys are numbered from zero without gaps. A new key takes the next number;
when a key is released the key with the last number takes over the one that
became free, so that all other numbers stay.
-/
namespace RenderLog

/-- The key at position `i` has the number `i`. -/
structure Numbering (κ : Type) where
  keys : List κ
  deriving DecidableEq, Repr

namespace Numbering
variable {κ : Type} [DecidableEq κ]

def empty : Numbering κ := ⟨[]⟩

def count (n : Numbering κ) : Nat := n.keys.length

def index? (n : Numbering κ) (k : κ) : Option Nat := n.keys.idxOf? k

/-- The number of a key, which becomes live if it is not. -/
def resolve (n : Numbering κ) (k : κ) : Nat × Numbering κ :=
  match n.index? k with
  | some i => (i, n)
  | none => (n.count, ⟨n.keys ++ [k]⟩)

/-- Removes the key numbered `i`; the last key moves to its place. -/
def vacate (n : Numbering κ) (i : Nat) : Numbering κ :=
  match n.keys.getLast? with
  | none => n
  | some last => ⟨(n.keys.set i last).dropLast⟩

/-- The key is live no more; nothing happens if it was not. -/
def release (n : Numbering κ) (k : κ) : Numbering κ :=
  match n.index? k with
  | some i => n.vacate i
  | none => n

end Numbering
end RenderLog
