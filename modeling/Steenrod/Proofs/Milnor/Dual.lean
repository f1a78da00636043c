import Steenrod.Proofs.Milnor.Matrices
/-!
The operations `P(R)` on polynomials in `ξ_1, ξ_2, …`, the coefficients of the total power operation
`ξ_n ↦ Σ_{i+j=n} ξ_i^{p^j} η_j`. Main statements: the total operation is coassociative; the operations multiply by
Milnor's product formula.
-/
namespace Steenrod
namespace Milnor

open MvPolynomial
open Finset.HasAntidiagonal (antidiagonal mem_antidiagonal)

/-- The variables `ξ_1, ξ_2, …` of a polynomial ring, with `ξ_0 = 1`. -/
noncomputable def xi {K : Type} [CommSemiring K] : ℕ → MvPolynomial ℕ K
  | 0 => 1
  | n + 1 => X n

/-- Polynomials in `ξ_1, ξ_2, …`. -/
abbrev Dual (p : Prime) : Type := MvPolynomial ℕ p.Field

instance smulCommDual (p : Prime) : SMulCommClass p.Field p.Field (Dual p) := inferInstance

theorem sum_antidiagonal_assoc {M : Type} [AddCommMonoid M] (f : ℕ → ℕ → ℕ → M) (n : ℕ) :
    ∑ x ∈ antidiagonal n, ∑ y ∈ antidiagonal x.1, f y.1 y.2 x.2 =
      ∑ x ∈ antidiagonal n, ∑ y ∈ antidiagonal x.2, f x.1 y.1 y.2 := by
  rw [Finset.sum_sigma', Finset.sum_sigma']
  refine Finset.sum_nbij' (fun z => ⟨(z.2.1, z.2.2 + z.1.2), (z.2.2, z.1.2)⟩)
    (fun z => ⟨(z.1.1 + z.2.1, z.2.2), (z.1.1, z.2.1)⟩) ?_ ?_ ?_ ?_ ?_
  · rintro ⟨⟨a, b⟩, c, d⟩ h
    simp only [Finset.mem_sigma, mem_antidiagonal] at h ⊢
    obtain ⟨h, rfl⟩ := h
    rw [← h]
    simp [add_assoc]
  · rintro ⟨⟨a, b⟩, c, d⟩ h
    simp only [Finset.mem_sigma, mem_antidiagonal] at h ⊢
    obtain ⟨h, rfl⟩ := h
    rw [← h]
    simp [add_assoc]
  · rintro ⟨⟨a, b⟩, c, d⟩ h
    simp only [Finset.mem_sigma, mem_antidiagonal] at h
    obtain ⟨_, rfl⟩ := h
    rfl
  · rintro ⟨⟨a, b⟩, c, d⟩ h
    simp only [Finset.mem_sigma, mem_antidiagonal] at h
    obtain ⟨_, rfl⟩ := h
    rfl
  · rintro ⟨⟨a, b⟩, c, d⟩ _
    rfl

variable {p : Prime}

/-- The polynomials `Σ_{i+j=n} ξ_i^{p^j} η_j`. -/
noncomputable def composite (p : Prime) {K : Type} [CommSemiring K] (n : ℕ) : MvPolynomial ℕ (MvPolynomial ℕ K) :=
  ∑ x ∈ antidiagonal n, C (xi x.1 ^ p.val ^ x.2) * xi x.2

/-- The total power operation, `ξ_n ↦ Σ_{i+j=n} ξ_i^{p^j} η_j`. -/
noncomputable def totalPower (p : Prime) : Dual p →ₐ[p.Field] MvPolynomial ℕ (Dual p) :=
  aeval fun n => composite p (n + 1)

theorem composite_zero {K : Type} [CommSemiring K] : composite p 0 = (1 : MvPolynomial ℕ (MvPolynomial ℕ K)) := by
  simp [composite, xi]

theorem totalPower_xi (n : ℕ) : totalPower p (xi n) = composite p n := by
  cases n with
  | zero => rw [xi, map_one, composite_zero]
  | succ n => rw [xi, totalPower, aeval_X]

theorem composite_pow {K : Type} [CommSemiring K] [CharP K p.val] (n k : ℕ) :
    composite p (K := K) n ^ p.val ^ k =
      ∑ x ∈ antidiagonal n, C (xi x.1 ^ p.val ^ (x.2 + k)) * xi x.2 ^ p.val ^ k := by
  have : Fact (Nat.Prime p.val) := ⟨p.prime⟩
  rw [composite, sum_pow_char_pow]
  refine Finset.sum_congr rfl fun x _ => ?_
  rw [mul_pow, ← C_pow, ← pow_mul, ← pow_add]

theorem map_xi {K L : Type} [CommSemiring K] [CommSemiring L] (f : K →+* L) (n : ℕ) :
    MvPolynomial.map f (xi n) = xi n := by
  cases n with
  | zero => exact map_one _
  | succ n => exact map_X f n

/-- Substituting the composites for the variables, in the coefficients and outside. -/
noncomputable def substitute (p : Prime) : MvPolynomial ℕ (Dual p) →+* MvPolynomial ℕ (MvPolynomial ℕ (Dual p)) :=
  eval₂Hom (C.comp C) fun n => composite p (n + 1)

theorem substitute_C (f : Dual p) : substitute p (C f) = C (C f) := eval₂_C _ _ _

theorem substitute_xi (n : ℕ) : substitute p (xi n) = composite p n := by
  cases n with
  | zero => rw [xi, map_one, composite_zero]
  | succ n => exact eval₂_X _ _ n

/-- The total operation is coassociative: applying it to the coefficients of what it gives is substituting. -/
theorem map_totalPower (f : Dual p) :
    MvPolynomial.map (totalPower p : Dual p →+* MvPolynomial ℕ (Dual p)) (totalPower p f) =
      substitute p (totalPower p f) := by
  have hhom : (MvPolynomial.map (totalPower p : Dual p →+* MvPolynomial ℕ (Dual p))).comp
      (totalPower p : Dual p →+* MvPolynomial ℕ (Dual p)) =
      (substitute p).comp (totalPower p : Dual p →+* MvPolynomial ℕ (Dual p)) := by
    refine ringHom_ext (fun c => ?_) fun n => ?_
    · have hc : totalPower p (C c) = C (C c) := AlgHom.commutes _ c
      simp only [RingHom.comp_apply, AlgHom.coe_toRingHom, hc, map_C, substitute_C]
    · have hX : totalPower p (X n) = composite p (n + 1) := totalPower_xi (n + 1)
      simp only [RingHom.comp_apply, AlgHom.coe_toRingHom, hX]
      rw [composite, map_sum, map_sum]
      have hleft : ∀ x : ℕ × ℕ, MvPolynomial.map (totalPower p : Dual p →+* MvPolynomial ℕ (Dual p))
          (C (xi x.1 ^ p.val ^ x.2) * xi x.2) = ∑ y ∈ antidiagonal x.1,
            C (C (xi y.1 ^ p.val ^ (y.2 + x.2)) * xi y.2 ^ p.val ^ x.2) * xi x.2 := by
        intro x
        rw [map_mul, map_C, map_xi, AlgHom.coe_toRingHom, map_pow, totalPower_xi, composite_pow, map_sum,
          Finset.sum_mul]
      have hright : ∀ x : ℕ × ℕ, substitute p (C (xi x.1 ^ p.val ^ x.2) * xi x.2) =
          ∑ y ∈ antidiagonal x.2, C (C (xi x.1 ^ p.val ^ (y.1 + y.2)) * xi y.1 ^ p.val ^ y.2) * xi y.2 := by
        intro x
        rw [map_mul, substitute_C, substitute_xi, composite, Finset.mul_sum]
        refine Finset.sum_congr rfl fun y hy => ?_
        rw [mem_antidiagonal.mp hy, map_mul, mul_assoc]
      rw [Finset.sum_congr rfl fun x _ => hleft x, Finset.sum_congr rfl fun x _ => hright x]
      exact sum_antidiagonal_assoc
        (fun a b c => C (C (xi a ^ p.val ^ (b + c)) * xi b ^ p.val ^ c) * xi c) (n + 1)
  exact congrArg (fun h => h f) hhom

/-- The operation `P(R)`. -/
noncomputable def powerOn (p : Prime) (R : ℕ →₀ ℕ) : Module.End p.Field (Dual p) where
  toFun f := coeff R (totalPower p f)
  map_add' f g := by rw [map_add, coeff_add]
  map_smul' c f := by rw [map_smul, coeff_smul, RingHom.id_apply]

theorem powerOn_apply (R : ℕ →₀ ℕ) (f : Dual p) : powerOn p R f = coeff R (totalPower p f) := rfl


/-- The product of the powers `T` of the composites. -/
noncomputable def composites (p : Prime) {K : Type} [CommSemiring K] (T : ℕ →₀ ℕ) : MvPolynomial ℕ (MvPolynomial ℕ K) :=
  T.prod fun l k => composite p (l + 1) ^ k

theorem substitute_eq (g : MvPolynomial ℕ (Dual p)) :
    substitute p g = ∑ T ∈ g.support, C (C (coeff T g)) * composites p T := eval₂_eq _ _ g

/-- The term of a place of a matrix in the composites. -/
noncomputable def slotTerm (p : Prime) {K : Type} [CommSemiring K] : Slot → MvPolynomial ℕ (MvPolynomial ℕ K)
  | .inl l => X l
  | .inr (i, j) => C (X i ^ p.val ^ j) * xi j

/-- Putting the terms of the places for the variables. -/
noncomputable def spread (p : Prime) {K : Type} [CommSemiring K] : MvPolynomial Slot ℕ →+* MvPolynomial ℕ (MvPolynomial ℕ K) :=
  eval₂Hom (Nat.castRingHom _) (slotTerm p)

theorem spread_X {K : Type} [CommSemiring K] (x : Slot) : spread p (K := K) (X x) = slotTerm p x := eval₂_X _ _ x

theorem spread_fiber {K : Type} [CommSemiring K] (l : ℕ) :
    spread p (K := K) (∑ x ∈ Slot.fiber l, X x) = composite p (l + 1) := by
  rw [map_sum, Slot.fiber, Finset.sum_disjSum, composite, Finset.Nat.sum_antidiagonal_succ]
  simp [spread_X, slotTerm, xi]

theorem spread_fiberPower {K : Type} [CommSemiring K] (T : ℕ →₀ ℕ) :
    spread p (K := K) (fiberPower Slot.fiber T) = composites p T := by
  rw [fiberPower, composites, map_finsuppProd]
  simp only [map_pow, spread_fiber]

theorem slotTerm_pow {K : Type} [CommSemiring K] (x : Slot) (k : ℕ) : slotTerm p (K := K) x ^ k =
    monomial (columnSum (Finsupp.single x k)) (monomial (rowSum p.val (Finsupp.single x k)) 1) := by
  have hcoef : ∀ i j : ℕ, (C (X i ^ p.val ^ j) ^ k : MvPolynomial ℕ (MvPolynomial ℕ K)) =
      C (monomial (Finsupp.single i (p.val ^ j * k)) 1) := by
    intro i j
    rw [← C_pow, ← pow_mul, X_pow_eq_monomial]
  rcases x with l | ⟨i, _ | j⟩
  · rw [slotTerm, columnSum_single_inl, rowSum_single_inl, X_pow_eq_monomial, monomial_zero', C_1]
  · rw [slotTerm, mul_pow, hcoef, columnSum_single_zero, rowSum_single_inr, xi, one_pow, mul_one, monomial_zero']
  · rw [slotTerm, mul_pow, hcoef, columnSum_single_succ, rowSum_single_inr, xi, C_mul_X_pow_eq_monomial]

theorem spread_monomial {K : Type} [CommSemiring K] (Z : Slot →₀ ℕ) (c : ℕ) :
    spread p (K := K) (monomial Z c) = monomial (columnSum Z) (monomial (rowSum p.val Z) (c : K)) := by
  induction Z using Finsupp.induction_linear generalizing c with
  | zero =>
    have hrow : rowSum p.val 0 = 0 := rfl
    have hcolumn : columnSum 0 = 0 := rfl
    rw [hrow, hcolumn, monomial_zero', monomial_zero', monomial_zero']
    simp [spread]
  | add Y Z hY hZ =>
    have h : (monomial (Y + Z) c : MvPolynomial Slot ℕ) = monomial Y c * monomial Z 1 := by
      rw [monomial_mul, Nat.mul_one]
    rw [h, map_mul, hY, hZ, monomial_mul, monomial_mul, ← columnSum_add, ← rowSum_add, Nat.cast_one, mul_one]
  | single x k =>
    have hC : spread p (K := K) (C c) = C (C (c : K)) := by simp [spread]
    rw [← C_mul_X_pow_eq_monomial, map_mul, map_pow, spread_X, slotTerm_pow, hC, C_mul_monomial, C_mul_monomial, mul_one]

theorem spread_eq_sum {K : Type} [CommSemiring K] (P : MvPolynomial Slot ℕ) : spread p (K := K) P =
    ∑ Z ∈ P.support, monomial (columnSum Z) (monomial (rowSum p.val Z) ((coeff Z P : ℕ) : K)) := by
  conv_lhs => rw [P.as_sum]
  rw [map_sum]
  exact Finset.sum_congr rfl fun Z _ => spread_monomial Z _

/-- The coefficients of the composites are sums over the matrices with these row and column sums. -/
theorem coeff_composites {K : Type} [CommSemiring K] (T : ℕ →₀ ℕ) (R S : List ℕ) :
    coeff (index R) (coeff (index S) (composites p (K := K) T)) =
      ((matrices p.val R S).map fun m =>
        if (cells m.1 m.2).mapDomain Slot.place = T then (multinomials (consEach m.1 (diagonals m.2)) : K) else 0).sum := by
  classical
  have hsum : ∀ P : MvPolynomial Slot ℕ, coeff (index R) (coeff (index S) (spread p (K := K) P)) =
      ((matrices p.val R S).map fun m => ((coeff (cells m.1 m.2) P : ℕ) : K)).sum := by
    intro P
    rw [← List.sum_toFinset _ (matrices_nodup p.pos R S), spread_eq_sum, coeff_sum, coeff_sum]
    have hinj : Set.InjOn (fun m : List ℕ × List (List ℕ) => cells m.1 m.2) (matrices p.val R S).toFinset := by
      intro m hm m' hm' h
      exact cells_injective p.pos (by simpa using hm) (by simpa using hm') h
    rw [← Finset.sum_image (f := fun Z => ((coeff Z P : ℕ) : K)) hinj]
    have hmem : ∀ Z : Slot →₀ ℕ, Z ∈ (matrices p.val R S).toFinset.image (fun m => cells m.1 m.2) ↔
        columnSum Z = index S ∧ rowSum p.val Z = index R := by
      intro Z
      simp only [Finset.mem_image, List.mem_toFinset]
      constructor
      · rintro ⟨m, hm, rfl⟩
        exact ⟨columnSum_of_mem p.pos hm, rowSum_of_mem p.pos hm⟩
      · rintro ⟨hcolumn, hrow⟩
        exact exists_mem_matrices p.pos hrow hcolumn
    have hterm : ∀ Z : Slot →₀ ℕ, coeff (index R) (coeff (index S)
        (monomial (columnSum Z) (monomial (rowSum p.val Z) ((coeff Z P : ℕ) : K)))) =
        if Z ∈ (matrices p.val R S).toFinset.image (fun m => cells m.1 m.2) then ((coeff Z P : ℕ) : K) else 0 := by
      intro Z
      rw [coeff_monomial]
      by_cases hS : columnSum Z = index S <;> simp [hS, hmem, coeff_monomial]
    rw [Finset.sum_congr rfl fun Z _ => hterm Z, Finset.sum_ite_mem]
    refine Finset.sum_subset Finset.inter_subset_right fun Z hZ hnot => ?_
    have hzero : coeff Z P = 0 := by
      by_contra hne
      exact hnot (Finset.mem_inter.mpr ⟨mem_support_iff.mpr hne, hZ⟩)
    rw [hzero, Nat.cast_zero]
  rw [← spread_fiberPower, hsum]
  congr 1
  refine List.map_congr_left fun m _ => ?_
  rw [coeff_cells, Nat.cast_ite, Nat.cast_zero]

theorem coeff_composites_eq_cast {K : Type} [CommSemiring K] (T : ℕ →₀ ℕ) (R S : List ℕ) :
    coeff (index R) (coeff (index S) (composites p (K := K) T)) =
      (coeff (index R) (coeff (index S) (composites p (K := ℕ) T)) : ℕ) := by
  rw [coeff_composites, coeff_composites, Nat.cast_list_sum, List.map_map]
  congr 1
  refine List.map_congr_left fun m _ => ?_
  simp

/-- The combination of sequences that terms stand for. -/
noncomputable def powerSum (p : Prime) (terms : List (ℕ × List ℕ)) : (ℕ →₀ ℕ) →₀ p.Field :=
  (terms.map fun t => Finsupp.single (index t.2) (t.1 : p.Field)).sum

theorem powerSum_cons (t : ℕ × List ℕ) (terms : List (ℕ × List ℕ)) :
    powerSum p (t :: terms) = Finsupp.single (index t.2) (t.1 : p.Field) + powerSum p terms := by
  rw [powerSum, List.map_cons, List.sum_cons, powerSum]

/-- The terms of a product of powers, one for each matrix. -/
theorem powerSum_powerProduct (hp : p.val ≤ 2147483648) (R S : List ℕ) : powerSum p (powerProduct p R S) =
    ((matrices p.val R S).map fun m => Finsupp.single ((cells m.1 m.2).mapDomain Slot.place)
      (multinomials (consEach m.1 (diagonals m.2)) : p.Field)).sum := by
  unfold powerProduct
  induction matrices p.val R S with
  | nil => rfl
  | cons m ms ih =>
    obtain ⟨top, below⟩ := m
    have hds : (diagonals ((0 :: top) :: below)).drop 1 = consEach top (diagonals below) := rfl
    rw [List.map_cons, List.sum_cons, ← ih, List.filterMap_cons]
    simp only [hds]
    have hcast := cast_diagonalCoefficient hp (consEach top (diagonals below))
    by_cases hc : diagonalCoefficient p (consEach top (diagonals below)) = 0
    · rw [hc, Nat.cast_zero] at hcast
      rw [if_pos hc, ← hcast, Finsupp.single_zero, zero_add]
    · rw [if_neg hc]
      simp only [powerSum_cons, index_trim, index_diagonals_cells, hcast]

/-- The terms of a product of powers have the coefficients of the composites. -/
theorem powerSum_apply (hp : p.val ≤ 2147483648) (R S : List ℕ) (T : ℕ →₀ ℕ) :
    powerSum p (powerProduct p R S) T = coeff (index R) (coeff (index S) (composites p T)) := by
  rw [powerSum_powerProduct hp, coeff_composites]
  induction matrices p.val R S with
  | nil => rfl
  | cons m ms ih => rw [List.map_cons, List.sum_cons, Finsupp.add_apply, ih, List.map_cons, List.sum_cons, Finsupp.single_apply]

/-- Milnor's product formula for the powers. -/
theorem powerOn_mul (hp : p.val ≤ 2147483648) (R S : List ℕ) : powerOn p (index R) * powerOn p (index S) =
    (powerSum p (powerProduct p R S)).sum fun T c => c • powerOn p T := by
  classical
  refine LinearMap.ext fun f => ?_
  let n : (ℕ →₀ ℕ) → ℕ := fun T => coeff (index R) (coeff (index S) (composites p (K := ℕ) T))
  have hn : ∀ T, powerSum p (powerProduct p R S) T = (n T : p.Field) := fun T => by
    rw [powerSum_apply hp, coeff_composites_eq_cast]
  have hleft : powerOn p (index R) (powerOn p (index S) f) =
      ∑ T ∈ (totalPower p f).support, (n T : p.Field) • powerOn p T f := by
    have h := congrArg (fun g => coeff (index R) (coeff (index S) g)) (map_totalPower f)
    simp only [coeff_map] at h
    rw [powerOn_apply, powerOn_apply]
    refine h.trans ?_
    rw [substitute_eq, coeff_sum, coeff_sum]
    refine Finset.sum_congr rfl fun T _ => ?_
    rw [coeff_C_mul, coeff_C_mul, coeff_composites_eq_cast, mul_comm, Nat.cast_smul_eq_nsmul, nsmul_eq_mul, powerOn_apply]
  have hright : ((powerSum p (powerProduct p R S)).sum fun T c => c • powerOn p T) f =
      ∑ T ∈ (powerSum p (powerProduct p R S)).support, (n T : p.Field) • powerOn p T f := by
    rw [Finsupp.sum, LinearMap.sum_apply]
    exact Finset.sum_congr rfl fun T _ => by rw [hn, LinearMap.smul_apply]
  rw [Module.End.mul_apply, hleft, hright]
  -- Both are the sum over all sequences that occur on either side.
  let both := (totalPower p f).support ∪ (powerSum p (powerProduct p R S)).support
  have hl : ∑ T ∈ (totalPower p f).support, (n T : p.Field) • powerOn p T f =
      ∑ T ∈ both, (n T : p.Field) • powerOn p T f :=
    Finset.sum_subset Finset.subset_union_left fun T _ hT => by
      rw [powerOn_apply, notMem_support_iff.mp hT, smul_zero]
  have hr : ∑ T ∈ (powerSum p (powerProduct p R S)).support, (n T : p.Field) • powerOn p T f =
      ∑ T ∈ both, (n T : p.Field) • powerOn p T f :=
    Finset.sum_subset Finset.subset_union_right fun T _ hT => by
      rw [← hn, Finsupp.notMem_support_iff.mp hT, zero_smul]
  rw [hl, hr]

end Milnor
end Steenrod
