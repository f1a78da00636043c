import Steenrod.Proofs.Linear.Combination
/-! The first coordinates of a vector and those after them, and how to put two parts together again. -/
namespace Steenrod

variable {p : Prime} {n : ℕ}

/-- The first `n` coordinates. -/
def cut (p : Prime) (n : ℕ) : (ℕ → p.Field) →ₗ[p.Field] (ℕ → p.Field) where
  toFun f i := if i < n then f i else 0
  map_add' f g := by
    funext i
    by_cases h : i < n <;> simp [h]
  map_smul' c f := by
    funext i
    by_cases h : i < n <;> simp [h]

/-- The coordinates from `n` on. -/
def rest (p : Prime) (n : ℕ) : (ℕ → p.Field) →ₗ[p.Field] (ℕ → p.Field) where
  toFun f i := f (n + i)
  map_add' _ _ := rfl
  map_smul' _ _ := rfl

/-- The first `n` coordinates of `f`, and then `g`. -/
def glue (n : ℕ) (f g : ℕ → p.Field) : ℕ → p.Field := fun i => if i < n then f i else g (i - n)

theorem cut_apply (n : ℕ) (f : ℕ → p.Field) (i : ℕ) : cut p n f i = if i < n then f i else 0 := rfl

@[simp] theorem rest_apply (n : ℕ) (f : ℕ → p.Field) (i : ℕ) : rest p n f i = f (n + i) := rfl

theorem cut_eq_self {f : ℕ → p.Field} (h : f ∈ p.space n) : cut p n f = f := by
  funext i
  rw [cut_apply]
  split
  · rfl
  · next hi => exact (h i (by omega)).symm

theorem cut_mem (n : ℕ) (f : ℕ → p.Field) : cut p n f ∈ p.space n := by
  intro i hi
  rw [cut_apply, if_neg (by omega)]

theorem rest_mem {m : ℕ} {f : ℕ → p.Field} (h : f ∈ p.space (n + m)) : rest p n f ∈ p.space m :=
  fun i hi => h (n + i) (by omega)

@[simp] theorem rest_glue (f g : ℕ → p.Field) : rest p n (glue n f g) = g := by
  funext i
  simp [glue]

theorem cut_glue {f : ℕ → p.Field} (h : f ∈ p.space n) (g : ℕ → p.Field) : cut p n (glue n f g) = f := by
  rw [← cut_eq_self h]
  funext i
  simp only [cut_apply, glue]
  split <;> rfl

theorem glue_of_lt {i : ℕ} (h : i < n) (f g : ℕ → p.Field) : glue n f g i = f i := if_pos h

theorem glue_of_le {i : ℕ} (h : n ≤ i) (f g : ℕ → p.Field) : glue n f g i = g (i - n) := if_neg (by omega)

theorem glue_cut_rest (f : ℕ → p.Field) : glue n (cut p n f) (rest p n f) = f := by
  funext i
  by_cases h : i < n
  · rw [glue_of_lt h, cut_apply, if_pos h]
  · rw [glue_of_le (by omega), rest_apply]
    congr 1
    omega

theorem glue_mem {m : ℕ} {f g : ℕ → p.Field} (hg : g ∈ p.space m) : glue n f g ∈ p.space (n + m) := by
  intro i hi
  rw [glue_of_le (by omega)]
  exact hg _ (by omega)

theorem glue_add (f g f' g' : ℕ → p.Field) : glue n (f + f') (g + g') = glue n f g + glue n f' g' := by
  funext i
  simp only [glue, Pi.add_apply]
  split <;> rfl

theorem glue_smul (c : p.Field) (f g : ℕ → p.Field) : glue n (c • f) (c • g) = c • glue n f g := by
  funext i
  simp only [glue, Pi.smul_apply]
  split <;> rfl

theorem cut_single_of_lt {i : ℕ} (h : i < n) (c : p.Field) : cut p n (Pi.single i c) = Pi.single i c := by
  funext j
  rw [cut_apply]
  by_cases hj : j = i
  · simp [hj, h]
  · simp [Pi.single_eq_of_ne hj]

theorem rest_single_of_lt {i : ℕ} (h : i < n) (c : p.Field) : rest p n (Pi.single i c) = 0 := by
  funext j
  rw [rest_apply, Pi.single_eq_of_ne (by omega)]
  rfl

theorem cut_single_of_le {i : ℕ} (h : n ≤ i) (c : p.Field) : cut p n (Pi.single i c) = 0 := by
  funext j
  rw [cut_apply]
  split
  · rw [Pi.single_eq_of_ne (by omega)]
    rfl
  · rfl

theorem rest_single_of_le {i : ℕ} (h : n ≤ i) (c : p.Field) :
    rest p n (Pi.single i c) = Pi.single (i - n) c := by
  funext j
  rw [rest_apply]
  by_cases hj : j = i - n
  · subst hj
    rw [(by omega : n + (i - n) = i), Pi.single_eq_same, Pi.single_eq_same]
  · rw [Pi.single_eq_of_ne (by omega), Pi.single_eq_of_ne hj]

end Steenrod
