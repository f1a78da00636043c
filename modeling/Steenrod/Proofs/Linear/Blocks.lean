import Steenrod.Proofs.Linear.Parts
/-!
Vectors that are divided into consecutive blocks. Main statements: what is put into a block is found there and nowhere
else, and a vector is the sum of its blocks.
-/
namespace Steenrod

/-- Where block `j` starts, if the blocks have the widths `D`. -/
def blockStart (D : ℕ → ℕ) (j : ℕ) : ℕ := ∑ i ∈ Finset.range j, D i

/-- The coordinates of a block, moved to the front. -/
def takeBlock (p : Prime) (start width : ℕ) : (ℕ → p.Field) →ₗ[p.Field] (ℕ → p.Field) := cut p width ∘ₗ rest p start

/-- The first coordinates, moved to a block. -/
def putBlock (p : Prime) (start width : ℕ) : (ℕ → p.Field) →ₗ[p.Field] (ℕ → p.Field) where
  toFun f i := if start ≤ i ∧ i < start + width then f (i - start) else 0
  map_add' f g := by
    funext i
    by_cases h : start ≤ i ∧ i < start + width <;> simp [h]
  map_smul' c f := by
    funext i
    by_cases h : start ≤ i ∧ i < start + width <;> simp [h]

variable {p : Prime} {start width n i j k : ℕ} {D : ℕ → ℕ} {f : ℕ → p.Field}

@[simp] theorem blockStart_zero (D : ℕ → ℕ) : blockStart D 0 = 0 := rfl

theorem blockStart_succ (D : ℕ → ℕ) (j : ℕ) : blockStart D (j + 1) = blockStart D j + D j := Finset.sum_range_succ D j

theorem blockStart_succ' (D : ℕ → ℕ) (j : ℕ) : blockStart D (j + 1) = D 0 + blockStart (fun i => D (i + 1)) j := by
  rw [blockStart, Finset.sum_range_succ', Nat.add_comm]
  rfl

theorem blockStart_mono (D : ℕ → ℕ) : Monotone (blockStart D) :=
  monotone_nat_of_le_succ fun j => by rw [blockStart_succ]; exact Nat.le_add_right _ _

theorem blockStart_add_le (h : i < j) : blockStart D i + D i ≤ blockStart D j :=
  blockStart_succ D i ▸ blockStart_mono D (Nat.succ_le_of_lt h)

theorem exists_block (h : i < blockStart D n) : ∃ j < n, ∃ k < D j, i = blockStart D j + k := by
  induction n with
  | zero => exact absurd h (Nat.not_lt_zero i)
  | succ n ih =>
    by_cases hi : i < blockStart D n
    · obtain ⟨j, hj, k, hk⟩ := ih hi
      exact ⟨j, hj.trans (Nat.lt_succ_self n), k, hk⟩
    · rw [blockStart_succ] at h
      exact ⟨n, Nat.lt_succ_self n, i - blockStart D n, by omega, by omega⟩

/-- Places of different blocks differ. -/
theorem block_inj {k k' : ℕ} (hk : k < D i) (hk' : k' < D j) (h : blockStart D i + k = blockStart D j + k') : i = j ∧ k = k' := by
  rcases lt_trichotomy i j with hlt | rfl | hlt
  · have := blockStart_add_le (D := D) hlt
    omega
  · exact ⟨rfl, Nat.add_left_cancel h⟩
  · have := blockStart_add_le (D := D) hlt
    omega

theorem takeBlock_apply (start width : ℕ) (f : ℕ → p.Field) (i : ℕ) :
    takeBlock p start width f i = if i < width then f (start + i) else 0 := rfl

theorem putBlock_apply (start width : ℕ) (f : ℕ → p.Field) (i : ℕ) :
    putBlock p start width f i = if start ≤ i ∧ i < start + width then f (i - start) else 0 := rfl

theorem takeBlock_mem (start width : ℕ) (f : ℕ → p.Field) : takeBlock p start width f ∈ p.space width := cut_mem _ _

theorem putBlock_mem (h : start + width ≤ n) (f : ℕ → p.Field) : putBlock p start width f ∈ p.space n := by
  intro i hi
  rw [putBlock_apply, if_neg (by omega)]

theorem takeBlock_putBlock (hf : f ∈ p.space width) : takeBlock p start width (putBlock p start width f) = f := by
  funext i
  rw [takeBlock_apply, putBlock_apply]
  by_cases hi : i < width
  · rw [if_pos hi, if_pos (by omega), Nat.add_sub_cancel_left]
  · rw [if_neg hi, hf i (by omega)]

theorem takeBlock_putBlock_of_disjoint {start' width' : ℕ} (h : start + width ≤ start' ∨ start' + width' ≤ start)
    (f : ℕ → p.Field) : takeBlock p start width (putBlock p start' width' f) = 0 := by
  funext i
  rw [takeBlock_apply, putBlock_apply]
  by_cases hi : i < width
  · rw [if_pos hi, if_neg (by omega)]
    rfl
  · exact if_neg hi

theorem putBlock_single (hk : k < width) :
    putBlock p start width (Pi.single k 1) = (Pi.single (start + k) 1 : ℕ → p.Field) := by
  funext i
  rw [putBlock_apply]
  by_cases hi : i = start + k
  · rw [hi, Pi.single_eq_same, if_pos (by omega), Nat.add_sub_cancel_left, Pi.single_eq_same]
  · rw [Pi.single_eq_of_ne hi]
    split
    · rw [Pi.single_eq_of_ne (by omega)]
    · rfl

theorem putBlock_zero_width (start : ℕ) (f : ℕ → p.Field) : putBlock p start 0 f = 0 := by
  funext i
  exact if_neg (by omega)

/-- A vector is the sum of its blocks, as far as they go. -/
theorem sum_putBlock_takeBlock (D : ℕ → ℕ) (n : ℕ) (f : ℕ → p.Field) :
    ∑ j ∈ Finset.range n, putBlock p (blockStart D j) (D j) (takeBlock p (blockStart D j) (D j) f) =
      cut p (blockStart D n) f := by
  induction n with
  | zero =>
    funext i
    rw [cut_apply, blockStart_zero, if_neg (Nat.not_lt_zero i)]
    rfl
  | succ n ih =>
    rw [Finset.sum_range_succ, ih]
    funext i
    rw [Pi.add_apply, cut_apply, cut_apply, putBlock_apply, takeBlock_apply, blockStart_succ]
    by_cases hlow : i < blockStart D n
    · rw [if_pos hlow, if_neg (by omega), if_pos (by omega), add_zero]
    · by_cases hhigh : i < blockStart D n + D n
      · rw [if_neg hlow, if_pos ⟨by omega, hhigh⟩, if_pos hhigh, if_pos (by omega), zero_add,
          Nat.add_sub_cancel' (not_lt.mp hlow)]
      · rw [if_neg hlow, if_neg (by omega), if_neg hhigh, add_zero]

end Steenrod
