import Mathlib.RingTheory.TensorProduct.Maps
import Steenrod.Proofs.Milnor.Bialgebra
import Steenrod.Proofs.Milnor.Extension
import Steenrod.Proofs.Module.Accepted
import Steenrod.Proofs.Module.Measured
/-!
Elements of a product of finite modules as sums of tensors. Main statements: the operations on two modules that are closed, with the
sign of the left factor, give operators on tensors that multiply as the elements `Q_k` and `P(R)` do; and coordinates of an element of
the product, block by block and row by row, stand for a sum of tensors that determines them.
-/
namespace Steenrod

open Vec Milnor TensorProduct TensorTable

namespace Tensor

variable {p : Prime}

/-- Families of vectors, one for each degree. -/
abbrev Families (p : Prime) : Type := ℤ → ℕ → p.Field

/-- Sums of tensors of families. -/
abbrev Space (p : Prime) : Type := Families p ⊗[p.Field] Families p

/-- A vector in one degree. -/
def inDegree (p : Prime) (d : ℤ) : (ℕ → p.Field) →ₗ[p.Field] Families p := LinearMap.single p.Field (fun _ => ℕ → p.Field) d

theorem inDegree_same (d : ℤ) (x : ℕ → p.Field) : inDegree p d x d = x :=
  Pi.single_eq_same (M := fun _ : ℤ => ℕ → p.Field) d x

theorem inDegree_of_ne {d e : ℤ} (h : e ≠ d) (x : ℕ → p.Field) : inDegree p d x e = 0 :=
  Pi.single_eq_of_ne (M := fun _ : ℤ => ℕ → p.Field) h x

section Operators

/-- The sign of the degree. -/
noncomputable def grade (p : Prime) : Module.End p.Field (Families p) :=
  LinearMap.pi fun d => (p.sign d : p.Field) • LinearMap.proj d

theorem grade_apply (u : Families p) (d : ℤ) : grade p u d = (p.sign d : p.Field) • u d := rfl

theorem grade_inDegree (d : ℤ) (x : ℕ → p.Field) : grade p (inDegree p d x) = (p.sign d : p.Field) • inDegree p d x := by
  funext e
  rw [grade_apply, Pi.smul_apply]
  by_cases he : e = d
  · rw [he]
  · rw [inDegree_of_ne he, smul_zero, smul_zero]

theorem grade_mul_grade : grade p * grade p = 1 := by
  refine LinearMap.ext fun u => funext fun d => ?_
  rw [Module.End.mul_apply, grade_apply, grade_apply, smul_smul, Prime.cast_sign_mul_self, one_smul]
  rfl

theorem grade_of_even (heven : p.isOdd = false) : grade p = 1 := by
  refine LinearMap.ext fun u => funext fun d => ?_
  rw [grade_apply, Prime.cast_sign, Operators.neg_one_eq_one heven, ite_self, one_smul]
  rfl

/-- An operation shifts the sign by that of its own degree. -/
theorem grade_mul_onFamilies (X : Representation p) (a : Operation) :
    grade p * X.onFamilies a = (p.sign a.degree : p.Field) • (X.onFamilies a * grade p) := by
  rw [Representation.onFamilies]
  split
  · next hzero => rw [mul_one, one_mul, hzero, Prime.cast_sign, if_pos (by decide), one_smul]
  · refine LinearMap.ext fun u => funext fun d => ?_
    rw [Module.End.mul_apply, grade_apply, LinearMap.smul_apply, Module.End.mul_apply, Pi.smul_apply]
    change _ • X.act a (d - a.degree) (u (d - a.degree)) = _ • X.act a (d - a.degree) (grade p u (d - a.degree))
    rw [grade_apply, map_smul, smul_smul, ← Prime.cast_sign_add, add_sub_cancel]

variable {L R : FiniteModule} {a b : Operation}

/-- The operators on left factors. -/
noncomputable def left (hp : p.val < 1073741824) (hL : L.Closed p) : Operators p trackedBelow (Module.End p.Field (Space p)) :=
  (Operators.ofChecked (hL.checked hp) hp).map (Module.End.rTensorAlgHom p.Field (Families p) (Families p)).toRingHom
    fun c f => map_smul (Module.End.rTensorAlgHom p.Field (Families p) (Families p)) c f

/-- The operators on right factors. -/
noncomputable def right (hp : p.val < 1073741824) (hR : R.Closed p) : Operators p trackedBelow (Module.End p.Field (Space p)) :=
  (Operators.ofChecked (hR.checked hp) hp).map (Module.End.lTensorAlgHom p.Field (Families p) (Families p)).toRingHom
    fun c f => map_smul (Module.End.lTensorAlgHom p.Field (Families p) (Families p)) c f

/-- The sign of the left factor. -/
noncomputable def sign (p : Prime) : Module.End p.Field (Space p) := LinearMap.rTensor (Families p) (grade p)

theorem commute_factors (f g : Module.End p.Field (Families p)) :
    Commute (LinearMap.rTensor (Families p) f) (LinearMap.lTensor (Families p) g) :=
  (LinearMap.rTensor_comp_lTensor _ f g).trans (LinearMap.lTensor_comp_rTensor _ f g).symm

variable (hp : p.val < 1073741824) (hL : L.Closed p) (hR : R.Closed p)

theorem exists_of_mem_letters_left {x : Module.End p.Field (Space p)} (h : x ∈ (left hp hL).letters) :
    ∃ f : Module.End p.Field (Families p), x = LinearMap.rTensor (Families p) f :=
  h.elim (fun ⟨_, hR⟩ => ⟨_, hR.symm⟩) fun ⟨_, hk⟩ => ⟨_, hk.symm⟩

theorem exists_of_mem_letters_right {x : Module.End p.Field (Space p)} (h : x ∈ (right hp hR).letters) :
    ∃ f : Module.End p.Field (Families p), x = LinearMap.lTensor (Families p) f :=
  h.elim (fun ⟨_, hR⟩ => ⟨_, hR.symm⟩) fun ⟨_, hk⟩ => ⟨_, hk.symm⟩

theorem sign_mul_rTensor (X : Representation p) (a : Operation) : sign p * LinearMap.rTensor (Families p) (X.onFamilies a) =
    (p.sign a.degree : p.Field) • (LinearMap.rTensor (Families p) (X.onFamilies a) * sign p) := by
  rw [sign, ← LinearMap.rTensor_mul, ← LinearMap.rTensor_mul, grade_mul_onFamilies, LinearMap.rTensor_smul]

theorem side : (left hp hL).Side (right hp hR) (sign p) where
  commute x hx y hy := by
    obtain ⟨f, rfl⟩ := exists_of_mem_letters_left hp hL hx
    obtain ⟨g, rfl⟩ := exists_of_mem_letters_right hp hR hy
    exact commute_factors f g
  sign_right y hy := by
    obtain ⟨g, rfl⟩ := exists_of_mem_letters_right hp hR hy
    exact commute_factors (grade p) g
  sign_power S := by
    have heven : (p.sign (powerOf p S).degree : p.Field) = 1 := by
      rw [degree_powerOf, Prime.cast_sign_natCast, pow_mul, Operators.neg_one_pow_step, one_pow]
    refine (sign_mul_rTensor (L.rep p) (powerOf p S)).trans ?_
    rw [heven, one_smul]
    rfl
  sign_exterior _ k := by
    have hodd : (p.sign (exteriorAt p k).degree : p.Field) = -1 := by
      rw [degree_exteriorAt, Prime.cast_sign_natCast, Operators.neg_one_pow_tauDegree]
    refine (sign_mul_rTensor (L.rep p) (exteriorAt p k)).trans ?_
    rw [hodd]
    exact neg_one_smul p.Field ((left hp hL).exterior k * sign p)
  sign_mul_sign := by
    rw [sign, ← LinearMap.rTensor_mul, grade_mul_grade]
    exact LinearMap.rTensor_id _ _
  sign_eq_one heven := by
    rw [sign, grade_of_even heven]
    exact LinearMap.rTensor_id _ _

/-- An operation on families moves a vector to another degree. -/
theorem onFamilies_inDegree {M : FiniteModule} (ha : a.IsBasis p) {d : ℤ} {x : ℕ → p.Field}
    (hx : x ∈ p.space (M.dimension d)) :
    (M.rep p).onFamilies a (inDegree p d x) = inDegree p (d + a.degree) ((M.rep p).act a d x) := by
  funext e
  have hmem : inDegree p d x (e - a.degree) ∈ p.space (M.dimension (e - a.degree)) := by
    by_cases he : e - a.degree = d
    · rw [he, inDegree_same]
      exact hx
    · rw [inDegree_of_ne he]
      exact Submodule.zero_mem _
  rw [FiniteModule.onFamilies_apply ha hmem]
  by_cases he : e = d + a.degree
  · rw [he, add_sub_cancel_right, inDegree_same, inDegree_same]
  · rw [inDegree_of_ne he, inDegree_of_ne (by omega), map_zero]

/-- What `a ⊗ b` makes of a tensor, where moving `b` past the left factor costs a sign. -/
theorem tensor_tmul (ha : a.IsBasis p) (hb : b.IsBasis p) (hta : a.degree < trackedBelow) (htb : b.degree < trackedBelow)
    {l r : ℤ} {x y : ℕ → p.Field} (hx : x ∈ p.space (L.dimension l)) (hy : y ∈ p.space (R.dimension r)) :
    (side hp hL hR).tensor a b (inDegree p l x ⊗ₜ inDegree p r y) =
      (p.sign (b.degree * l) : p.Field) •
        (inDegree p (l + a.degree) ((L.rep p).act a l x) ⊗ₜ inDegree p (r + b.degree) ((R.rep p).act b r y)) := by
  have hsign : ∀ (n : ℕ) (z : Families p), (sign p ^ n) (inDegree p l x ⊗ₜ[p.Field] z) =
      (p.sign (n * l) : p.Field) • (inDegree p l x ⊗ₜ[p.Field] z) := by
    intro n z
    rw [Prime.cast_sign_natCast_mul]
    induction n with
    | zero => rw [pow_zero, pow_zero, one_smul, Module.End.one_apply]
    | succ n ih =>
      rw [pow_succ', Module.End.mul_apply, ih, map_smul, sign, LinearMap.rTensor_tmul, grade_inDegree, ← smul_tmul', smul_smul,
        pow_succ]
  have hleft : ∀ z : Families p, (left hp hL).operator a (inDegree p l x ⊗ₜ[p.Field] z) =
      inDegree p (l + a.degree) ((L.rep p).act a l x) ⊗ₜ[p.Field] z := by
    intro z
    rw [left, Operators.operator_map, Operators.operator_ofChecked _ hp ha hta]
    refine (LinearMap.rTensor_tmul _ _ _ _).trans ?_
    rw [onFamilies_inDegree ha hx]
  have hright : ∀ z : Families p, (right hp hR).operator b (z ⊗ₜ[p.Field] inDegree p r y) =
      z ⊗ₜ[p.Field] inDegree p (r + b.degree) ((R.rep p).act b r y) := by
    intro z
    rw [right, Operators.operator_map, Operators.operator_ofChecked _ hp hb htb]
    refine (LinearMap.lTensor_tmul _ _ _ _).trans ?_
    rw [onFamilies_inDegree hb hy]
  rw [Operators.Side.tensor, Module.End.mul_apply, Module.End.mul_apply, hright, hsign, map_smul, hleft, Int.toNat_of_nonneg hb.nonneg]

/-- The operators on tensors. -/
noncomputable def operators : Operators p trackedBelow (Module.End p.Field (Space p)) := (side hp hL hR).operators (by omega)

end Operators

section Coordinates

variable {L R : FiniteModule} {t : ℤ} {k i : ℕ}

/-- The coordinates of the right factor that a basis element of the left factor comes with. -/
noncomputable def slice (p : Prime) (l : ℤ) (i : ℕ) (r : ℤ) : Space p →ₗ[p.Field] (ℕ → p.Field) :=
  TensorProduct.lift (LinearMap.lsmul p.Field (ℕ → p.Field)) ∘ₗ TensorProduct.map
    (LinearMap.proj (φ := fun _ : ℕ => p.Field) i ∘ₗ LinearMap.proj (φ := fun _ : ℤ => ℕ → p.Field) l)
    (LinearMap.proj (φ := fun _ : ℤ => ℕ → p.Field) r)

theorem slice_tmul (l : ℤ) (i : ℕ) (r : ℤ) (u v : Families p) : slice p l i r (u ⊗ₜ v) = u l i • v r := rfl

/-- The row of a basis element of the left factor. -/
def row (p : Prime) (L R : FiniteModule) (t : ℤ) (k i : ℕ) : (ℕ → p.Field) →ₗ[p.Field] (ℕ → p.Field) :=
  takeBlock p (rowStart L R t k i) (rowLength L R t k)

theorem row_mem (v : ℕ → p.Field) : row p L R t k i v ∈ p.space (rowLength L R t k) := takeBlock_mem _ _ _

/-- A block as a sum of tensors, row by row. -/
noncomputable def spreadBlock (p : Prime) (L R : FiniteModule) (t : ℤ) (k : ℕ) : (ℕ → p.Field) →ₗ[p.Field] Space p :=
  ∑ i ∈ Finset.range (L.dimension (leftDegree L k)),
    TensorProduct.mk p.Field (Families p) (Families p) (inDegree p (leftDegree L k) (Pi.single i 1)) ∘ₗ
      inDegree p (t - leftDegree L k) ∘ₗ row p L R t k i

/-- An element of the product as a sum of tensors, block by block. -/
noncomputable def spread (p : Prime) (L R : FiniteModule) (t : ℤ) : (ℕ → p.Field) →ₗ[p.Field] Space p :=
  ∑ k ∈ Finset.range (span L), spreadBlock p L R t k

theorem spreadBlock_apply (v : ℕ → p.Field) : spreadBlock p L R t k v = ∑ i ∈ Finset.range (L.dimension (leftDegree L k)),
    inDegree p (leftDegree L k) (Pi.single i 1) ⊗ₜ inDegree p (t - leftDegree L k) (row p L R t k i v) := by
  simp only [spreadBlock, LinearMap.sum_apply, LinearMap.comp_apply, TensorProduct.mk_apply]

theorem spread_apply (v : ℕ → p.Field) :
    spread p L R t v = ∑ k ∈ Finset.range (span L), spreadBlock p L R t k v := by
  simp only [spread, LinearMap.sum_apply]

/-- Blocks that leave no right degree hold nothing. -/
theorem spread_eq_sum_reach (v : ℕ → p.Field) :
    spread p L R t v = ∑ k ∈ Finset.range (reach L R t), spreadBlock p L R t k v := by
  rw [spread_apply]
  refine (Finset.sum_subset (Finset.range_mono reach_le_span) fun k hk hreach => ?_).symm
  have hlength := rowLength_eq_zero (not_lt.mp (Finset.mem_range.not.mp hreach)) (Finset.mem_range.mp hk)
  rw [spreadBlock_apply]
  refine Finset.sum_eq_zero fun i _ => ?_
  have hrow : row p L R t k i v = 0 := by
    have hmem : row p L R t k i v ∈ p.space (rowLength L R t k) := row_mem v
    rwa [hlength, space_zero, Submodule.mem_bot] at hmem
  rw [hrow, map_zero, TensorProduct.tmul_zero]

/-- The rows can be read off the sum of tensors. -/
theorem slice_spread (hk : k < span L) (hi : i < L.dimension (leftDegree L k)) (v : ℕ → p.Field) :
    slice p (leftDegree L k) i (t - leftDegree L k) (spread p L R t v) = row p L R t k i v := by
  rw [spread_apply, map_sum, Finset.sum_eq_single_of_mem k (Finset.mem_range.mpr hk), spreadBlock_apply, map_sum,
    Finset.sum_eq_single_of_mem i (Finset.mem_range.mpr hi), slice_tmul, inDegree_same, inDegree_same, Pi.single_eq_same, one_smul]
  · intro j _ hj
    rw [slice_tmul, inDegree_same, Pi.single_eq_of_ne (Ne.symm hj), zero_smul]
  · intro j _ hj
    have hdegree : leftDegree L k ≠ leftDegree L j := by
      unfold leftDegree
      omega
    rw [spreadBlock_apply, map_sum]
    refine Finset.sum_eq_zero fun i _ => ?_
    rw [slice_tmul, inDegree_of_ne hdegree, Pi.zero_apply, zero_smul]

/-- The sum of tensors determines the element. -/
theorem spread_injective {v w : ℕ → p.Field} (hv : v ∈ p.space (TensorTable.total L R t)) (hw : w ∈ p.space (TensorTable.total L R t))
    (h : spread p L R t v = spread p L R t w) : v = w := by
  funext n
  by_cases hn : n < TensorTable.total L R t
  · obtain ⟨k, hk, i, hi, j, hj, rfl⟩ := exists_row hn
    have hrow := congrFun ((slice_spread hk hi v).symm.trans ((congrArg _ h).trans (slice_spread hk hi w))) j
    rwa [row, takeBlock_apply, takeBlock_apply, if_pos hj, if_pos hj] at hrow
  · rw [hv n (not_lt.mp hn), hw n (not_lt.mp hn)]

theorem row_putBlock (hi : i < L.dimension (leftDegree L k)) {k' i' : ℕ} (hi' : i' < L.dimension (leftDegree L k'))
    {y : ℕ → p.Field} (hy : y ∈ p.space (rowLength L R t k)) :
    row p L R t k' i' (putBlock p (rowStart L R t k i) (rowLength L R t k) y) = if k' = k ∧ i' = i then y else 0 := by
  by_cases hsame : k' = k ∧ i' = i
  · obtain ⟨rfl, rfl⟩ := hsame
    rw [if_pos ⟨rfl, rfl⟩, row, takeBlock_putBlock hy]
  · rw [if_neg hsame]
    refine takeBlock_putBlock_of_disjoint ?_ y
    have hbound := rowStart_add_le (R := R) (t := t) hi
    have hbound' := rowStart_add_le (R := R) (t := t) hi'
    have hmono := blockStart_mono (width L R t)
    rcases lt_trichotomy k' k with hlt | rfl | hlt
    · have hle := hmono (Nat.succ_le_of_lt hlt)
      exact .inl (hbound'.trans (hle.trans (Nat.le_add_right _ _)))
    · have hrow : ∀ {m n : ℕ}, m < n → rowStart L R t k' m + rowLength L R t k' ≤ rowStart L R t k' n := by
        intro m n hmn
        have hle := Nat.mul_le_mul_right (rowLength L R t k') (Nat.succ_le_of_lt hmn)
        rw [Nat.succ_mul] at hle
        rw [rowStart, rowStart, Nat.add_assoc]
        exact Nat.add_le_add_left hle _
      rcases Nat.lt_or_gt_of_ne fun h => hsame ⟨rfl, h⟩ with hlt | hlt
      · exact .inl (hrow hlt)
      · exact .inr (hrow hlt)
    · have hle := hmono (Nat.succ_le_of_lt hlt)
      exact .inr (hbound.trans (hle.trans (Nat.le_add_right _ _)))

/-- A row alone is a tensor. -/
theorem spread_putBlock (hk : k < span L) (hi : i < L.dimension (leftDegree L k)) {y : ℕ → p.Field}
    (hy : y ∈ p.space (rowLength L R t k)) :
    spread p L R t (putBlock p (rowStart L R t k i) (rowLength L R t k) y) =
      inDegree p (leftDegree L k) (Pi.single i 1) ⊗ₜ inDegree p (t - leftDegree L k) y := by
  rw [spread_apply, Finset.sum_eq_single_of_mem k (Finset.mem_range.mpr hk), spreadBlock_apply,
    Finset.sum_eq_single_of_mem i (Finset.mem_range.mpr hi), row_putBlock hi hi hy, if_pos ⟨rfl, rfl⟩]
  · intro j hj hne
    rw [row_putBlock hi (Finset.mem_range.mp hj) hy, if_neg fun h => hne h.2, map_zero, TensorProduct.tmul_zero]
  · intro j _ hne
    rw [spreadBlock_apply]
    refine Finset.sum_eq_zero fun m hm => ?_
    rw [row_putBlock hi (Finset.mem_range.mp hm) hy, if_neg fun h => hne h.1, map_zero, TensorProduct.tmul_zero]

end Coordinates

end Tensor
end Steenrod
