import Steenrod.Proofs.Module.Tensor
/-!
Tensor products seen through views of their factors. Main statements: where the views have the dimensions of finite modules, the table is
extended by the same rows, every degree has the same blocks, and the place of a pair of basis elements is found in its block and has the
joined name.
-/
namespace Steenrod

/-- The view `N` ends where the finite module `M` does; a module without degrees may end anywhere below its least one. -/
def GradedModule.EndsWith (N : GradedModule) (M : FiniteModule) : Prop :=
  ∃ m, N.maxDegree = some m ∧ M.maxDegree = max m (M.minDegree - 1)

/-- The view `N` has the degrees of the finite module `M`, and its dimensions as far as degree `top`. -/
structure GradedModule.Measures (N : GradedModule) (M : FiniteModule) (top : ℤ) : Prop where
  minDegree_eq : N.minDegree = M.minDegree
  endsWith : N.EndsWith M
  dimension_eq : ∀ d, M.minDegree ≤ d → d ≤ top → N.dimension d = .ok (M.dimension d)

theorem FiniteModule.measures (M : FiniteModule) (A : Algebra) (top : ℤ) : (M.toGraded A).Measures M top where
  minDegree_eq := rfl
  endsWith := ⟨M.maxDegree, rfl, by
    have hmin : M.minDegree = M.dims.minDegree := rfl
    have hmax : M.maxDegree = M.dims.minDegree + M.dims.entries.size - 1 := rfl
    omega⟩
  dimension_eq _ _ _ := rfl

namespace TensorTable

variable {L R : FiniteModule} {L' R' : GradedModule} {T : TensorTable} {s t l : ℤ} {i : ℕ}

/-- A degree that has basis elements has them from factors that do. -/
theorem exists_of_lt_total (h : i < total L R t) : ∃ l, 0 < L.dimension l ∧ 0 < R.dimension (t - l) := by
  obtain ⟨k, _, j, hj, n, hn, _⟩ := exists_row h
  exact ⟨leftDegree L k, Nat.zero_lt_of_lt hj, Nat.zero_lt_of_lt hn⟩

theorem of_mem_leftDegrees {A : Algebra} (hl : l ∈ leftDegrees (L.toGraded A) (R.toGraded A) s) :
    L.minDegree ≤ l ∧ l ≤ s - R.minDegree := by
  obtain ⟨hlow, hhigh⟩ := GradedModule.mem_degreesBetween.mp hl
  exact ⟨hlow, hhigh.trans (min_le_right _ _)⟩

section Through

variable (hL : L'.Measures L (t - R.minDegree)) (hR : R'.Measures R (t - L.minDegree)) (A : Algebra)

include hL hR

theorem leftDegrees_of_measures (s : ℤ) : leftDegrees L' R' s = leftDegrees (L.toGraded A) (R.toGraded A) s := by
  obtain ⟨m, hm, hmax⟩ := hL.endsWith
  have hmaxL : (L.toGraded A).maxDegree = some L.maxDegree := rfl
  have hminL : (L.toGraded A).minDegree = L.minDegree := rfl
  have hminR : (R.toGraded A).minDegree = R.minDegree := rfl
  unfold leftDegrees GradedModule.degreesBetween
  simp only [hm, hmaxL, hminL, hminR, hL.minDegree_eq, hR.minDegree_eq]
  rw [(by omega : (min m (s - R.minDegree) + 1 - L.minDegree).toNat = (min L.maxDegree (s - R.minDegree) + 1 - L.minDegree).toNat)]

theorem row_of_measures (hs : s ≤ t) : row L' R' s = row (L.toGraded A) (R.toGraded A) s := by
  have hmin : (L.toGraded A).minDegree = L.minDegree := rfl
  unfold row
  simp only
  rw [leftDegrees_of_measures hL hR A, hL.minDegree_eq, hmin, Algebra.foldlM_congr fun l hl x => ?_]
  obtain ⟨hlow, hhigh⟩ := of_mem_leftDegrees hl
  rw [hL.dimension_eq l hlow (by omega), hR.dimension_eq (s - l) (by omega) (by omega)]
  rfl

/-- The table is extended by the same rows. -/
theorem extend_of_measures (hs : s ≤ t) : T.extend L' R' s = T.extend (L.toGraded A) (R.toGraded A) s := by
  unfold extend
  rw [Result.mapM_congr fun d hd => ?_]
  exact row_of_measures hL hR A ((GradedModule.mem_degreesBetween.mp hd).2.trans hs)

end Through

end TensorTable

namespace Tensor

open TensorTable

variable {L R : FiniteModule} {L' R' : GradedModule} {T : TensorTable} {s t : ℤ} {k i j : ℕ}
variable (hL : L'.Measures L (t - R.minDegree)) (hR : R'.Measures R (t - L.minDegree)) (hT : Records L R T) (ht : t < T.offsets.nextDegree)

include hL hR hT ht

theorem dimension_of_measures (hs : s ≤ t) : dimension L' R' T s = .ok (TensorTable.total L R s) := by
  obtain ⟨m, hm, hmaxL⟩ := hL.endsWith
  obtain ⟨n, hn, hmaxR⟩ := hR.endsWith
  have hmax : maxDegree? L' R' = some (m + n) := by rw [maxDegree?, hm, hn]; rfl
  rw [dimension, hL.minDegree_eq, hR.minDegree_eq, hmax]
  by_cases hlow : s < L.minDegree + R.minDegree
  · rw [if_pos hlow, total_eq_zero (.inl hlow)]
  · rw [if_neg hlow]
    by_cases hhigh : m + n < s
    · have hzero : TensorTable.total L R s = 0 := by
        by_contra hne
        obtain ⟨l, hl, hr⟩ := exists_of_lt_total (Nat.pos_of_ne_zero hne)
        have hleft := FiniteModule.degrees_of_lt_dimension hl
        have hright := FiniteModule.degrees_of_lt_dimension hr
        omega
      rw [if_pos (by simpa using hhigh), hzero]
    · rw [if_neg (by simpa using hhigh), hT.get?_eq (not_lt.mp hlow) (by omega)]
      exact congrArg Except.ok (last_starts L R s)

/-- The block of a pair of basis elements is found from their place. -/
theorem leftDegreeOf_of_measures (hs : s ≤ t) (hi : i < L.dimension (leftDegree L k)) (hj : j < rowLength L R s k) :
    leftDegreeOf L' R' T s (rowStart L R s k i + j) = .ok (leftDegree L k) := by
  have hk := lt_span hi
  have hplace := rowStart_add_lt_total hk hi hj
  rw [leftDegreeOf, hT.get?_eq (le_of_lt_total hplace) (by omega), Result.ofOption_some, Result.ok_bind,
    dimension_of_measures hL hR hT ht hs, Result.ok_bind, decide_eq_true hplace, require_true, Result.ok_bind, rowStart, Nat.add_assoc,
    find_starts hk (row_add_lt_width hi hj)]
  rfl

/-- The name of a basis element joins those of its factors. -/
theorem nameOf_of_measures (hs : s ≤ t) (hi : i < L.dimension (leftDegree L k)) (hj : j < rowLength L R s k) :
    nameOf L' R' T s (rowStart L R s k i + j) = (do
      let x ← L'.nameOf (leftDegree L k) i
      let y ← R'.nameOf (s - leftDegree L k) j
      .ok s!"{x}.{y}") := by
  have hk := lt_span hi
  have hlow := le_of_lt_total (rowStart_add_lt_total hk hi hj)
  have hpos : 0 < rowLength L R s k := Nat.zero_lt_of_lt hj
  have hright := FiniteModule.degrees_of_lt_dimension hj
  have hleft := FiniteModule.degrees_of_lt_dimension hi
  have hdim : R'.dimension (s - leftDegree L k) = .ok (rowLength L R s k) := hR.dimension_eq _ hright.1 (by omega)
  obtain ⟨hdiv, hmod⟩ := div_mod_row (i := i) hj
  rw [nameOf, leftDegreeOf_of_measures hL hR hT ht hs hi hj, Result.ok_bind, hT.offset_eq hlow (by omega) (lt_reach hk hj).le,
    Result.ok_bind, hdim, Result.ok_bind, rowStart, Nat.add_assoc, decide_eq_true ⟨Nat.le_add_right _ _, hpos⟩, require_true,
    Result.ok_bind, Nat.add_sub_cancel_left, hdiv, hmod]

end Tensor

namespace TensorTable

section Reading

variable {L R : FiniteModule} {A : Algebra} {T : TensorTable} {t : ℤ} {k i j : ℕ} (hT : Records L R T)

include hT

theorem Records.dimension_eq (A : Algebra) (ht : t < T.offsets.nextDegree) :
    Tensor.dimension (L.toGraded A) (R.toGraded A) T t = .ok (total L R t) :=
  Tensor.dimension_of_measures (L.measures A _) (R.measures A _) hT ht le_rfl

/-- Where a dimension is answered, it is the right one, and the table reaches every degree that has basis elements. -/
theorem Records.of_dimension {n : ℕ} (h : Tensor.dimension (L.toGraded A) (R.toGraded A) T t = .ok n) :
    n = total L R t ∧ (0 < n → L.minDegree + R.minDegree ≤ t ∧ t < T.offsets.nextDegree) := by
  have hknown : t < T.offsets.nextDegree → n = total L R t := fun ht => Except.ok.inj (h.symm.trans (hT.dimension_eq A ht))
  have hmin : (L.toGraded A).minDegree + (R.toGraded A).minDegree = L.minDegree + R.minDegree := rfl
  have hmax : Tensor.maxDegree? (L.toGraded A) (R.toGraded A) = some (L.maxDegree + R.maxDegree) := rfl
  rw [Tensor.dimension, hmin, hmax] at h
  split at h
  · next hlow =>
    obtain rfl := Except.ok.inj h
    exact ⟨(total_eq_zero (.inl hlow)).symm, fun hn => absurd hn (Nat.lt_irrefl 0)⟩
  · next hlow =>
    split at h
    · next hhigh =>
      obtain rfl := Except.ok.inj h
      exact ⟨(total_eq_zero (.inr (by simpa using hhigh))).symm, fun hn => absurd hn (Nat.lt_irrefl 0)⟩
    · obtain ⟨offsets, hoffsets, _⟩ := Result.bind_eq_ok.mp h
      have hlt := ((Graded.get?_isSome_iff T.offsets t).mp (Option.isSome_iff_exists.mpr ⟨_, Result.ofOption_eq_ok.mp hoffsets⟩)).2
      exact ⟨hknown hlt, fun _ => ⟨not_lt.mp hlow, hlt⟩⟩

theorem Records.nameOf_eq (A : Algebra) (ht : t < T.offsets.nextDegree) (hi : i < L.dimension (leftDegree L k))
    (hj : j < rowLength L R t k) {x y : String} (hx : L.nameOf (leftDegree L k) i = .ok x)
    (hy : R.nameOf (t - leftDegree L k) j = .ok y) :
    Tensor.nameOf (L.toGraded A) (R.toGraded A) T t (rowStart L R t k i + j) = .ok s!"{x}.{y}" := by
  have hx : (L.toGraded A).nameOf (leftDegree L k) i = .ok x := hx
  have hy : (R.toGraded A).nameOf (t - leftDegree L k) j = .ok y := hy
  rw [Tensor.nameOf_of_measures (L.measures A _) (R.measures A _) hT ht le_rfl hi hj, hx, Result.ok_bind, hy]
  rfl

end Reading

end TensorTable
end Steenrod
