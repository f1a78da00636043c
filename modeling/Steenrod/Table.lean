/-!
Tables of the first values of a function. What is tabulated is only a matter of speed: `lookup` answers with
the value of the function everywhere. How far a table reaches can be asked.
-/
namespace Steenrod

structure Table {α : Type} (f : Nat → α) where
  rows : Array α
  rows_eq : ∀ (n : Nat) (h : n < rows.size), rows[n] = f n

namespace Table

variable {α : Type} {f : Nat → α}

def empty : Table f := ⟨#[], by simp⟩

def size (t : Table f) : Nat := t.rows.size

def lookup (t : Table f) (n : Nat) : α := if h : n < t.rows.size then t.rows[n] else f n

/-- The value at `n`, if the table reaches it. -/
def get? (t : Table f) (n : Nat) : Option α := t.rows[n]?

def push (t : Table f) (x : α) (hx : x = f t.size) : Table f where
  rows := t.rows.push x
  rows_eq n h := by
    rw [Array.getElem_push]
    split
    · exact t.rows_eq n _
    · have : n = t.size := by
        simp only [Array.size_push] at h
        unfold size
        omega
      rw [this]
      exact hx

/-- The table with `count` more values, each found from the table before it. -/
def extend (next : (t : Table f) → { x : α // x = f t.size }) : (count : Nat) → Table f → Table f
  | 0, t => t
  | count + 1, t => extend next count (t.push (next t).1 (next t).2)

/-- The table through `n`. -/
def extendTo (next : (t : Table f) → { x : α // x = f t.size }) (n : Nat) (t : Table f) : Table f :=
  extend next (n + 1 - t.size) t

@[simp] theorem lookup_eq (t : Table f) (n : Nat) : t.lookup n = f n := by
  unfold lookup
  split
  · exact t.rows_eq n _
  · rfl

@[simp] theorem size_push (t : Table f) (x : α) (hx : x = f t.size) : (t.push x hx).size = t.size + 1 := by
  simp [push, size]

theorem get?_eq (t : Table f) (n : Nat) : t.get? n = if n < t.size then some (f n) else none := by
  unfold get? size
  split
  · next h => rw [Array.getElem?_eq_getElem h, t.rows_eq n h]
  · next h => simpa using h

@[simp] theorem size_extend (next : (t : Table f) → { x : α // x = f t.size }) (count : Nat)
    (t : Table f) : (extend next count t).size = t.size + count := by
  induction count generalizing t with
  | zero => rfl
  | succ count ih =>
    rw [extend, ih, size_push]
    omega

theorem size_extendTo (next : (t : Table f) → { x : α // x = f t.size }) (n : Nat) (t : Table f) :
    (extendTo next n t).size = max t.size (n + 1) := by
  rw [extendTo, size_extend]
  omega

end Table
end Steenrod
