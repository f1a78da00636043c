/-!
Shelves: values that stay where they were put, and names that can move on to later ones. Main statement: what
was found at a place is found there whatever is put on the shelf later.
-/
namespace Steenrod

structure Shelf (α : Type) where
  entries : Array α
  names : List (String × Nat)

namespace Shelf

variable {α : Type}

def empty : Shelf α := ⟨#[], []⟩

/-- The place that a name stands for. -/
def find? (s : Shelf α) (name : String) : Option Nat := s.names.lookup name

def get? (s : Shelf α) (place : Nat) : Option α := s.entries[place]?

/-- Put a value at a new place, under a name that leaves its old one. -/
def put (s : Shelf α) (name : String) (x : α) : Shelf α :=
  ⟨s.entries.push x, (name, s.entries.size) :: s.names⟩

/-- Replace the value at a place. -/
def set (s : Shelf α) (place : Nat) (x : α) : Shelf α :=
  { s with entries := s.entries.setIfInBounds place x }

@[simp] theorem find?_put_self (s : Shelf α) (name : String) (x : α) :
    (s.put name x).find? name = some s.entries.size := by
  simp [find?, put]

theorem get?_put_of_lt (s : Shelf α) (name : String) (x : α) {place : Nat} (h : place < s.entries.size) :
    (s.put name x).get? place = s.get? place := by
  have hne : place ≠ s.entries.size := by omega
  simp [get?, put, Array.getElem?_push, hne]

end Shelf
end Steenrod
