/-! Sums of natural numbers. -/
namespace Steenrod

def total (l : List Nat) : Nat := l.foldr (· + ·) 0

@[simp] theorem total_nil : total [] = 0 := rfl

@[simp] theorem total_cons (n : Nat) (l : List Nat) : total (n :: l) = n + total l := rfl

theorem total_append (l m : List Nat) : total (l ++ m) = total l + total m := by
  induction l with
  | nil => simp
  | cons n l ih => simp [ih, Nat.add_assoc]

theorem total_map_le {f : Nat → Nat} (h : ∀ n, f n ≤ n) (l : List Nat) : total (l.map f) ≤ total l := by
  induction l with
  | nil => simp
  | cons n l ih =>
    have := h n
    simp only [List.map_cons, total_cons]
    omega

end Steenrod
