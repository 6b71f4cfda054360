/-!
# Tables

Total maps that change at one key at a time. Reading after a change gives the
new value at the changed key and the old one elsewhere.
-/
namespace RenderLog

structure Table (α β : Type) where
  get : α → β

namespace Table
variable {α β : Type}

def const (b : β) : Table α β := ⟨fun _ => b⟩

@[simp] theorem get_const (a : α) (b : β) : (const b : Table α β).get a = b := rfl

variable [DecidableEq α]

def set (t : Table α β) (a : α) (b : β) : Table α β :=
  ⟨fun x => if x = a then b else t.get x⟩

@[simp] theorem get_set_self (t : Table α β) (a : α) (b : β) : (t.set a b).get a = b := by
  simp [set]

theorem get_set_of_ne (t : Table α β) {a x : α} (b : β) (h : x ≠ a) :
    (t.set a b).get x = t.get x := by
  simp [set, h]

theorem set_set (t : Table α β) (a : α) (b c : β) : (t.set a b).set a c = t.set a c := by
  simp only [set]
  congr 1
  funext x
  split <;> rfl

theorem set_get_self (t : Table α β) (a : α) : t.set a (t.get a) = t := by
  obtain ⟨get⟩ := t
  simp only [set]
  congr 1
  funext x
  split
  · rename_i hx
    rw [hx]
  · rfl

end Table
end RenderLog
