import Steenrod.Proofs.Milnor.Operators
/-!
Operators on polynomials in `ξ_1, ξ_2, …` with coefficients in an exterior algebra, where `P(R)` is a coefficient of the
total power operation and `Q_k` multiplies by `Σ_m ξ_m^{p^k} e_{k+m}`. Main statements: they multiply as the elements
`Q_k` and `P(R)` do, in all degrees; and the operators of the elements `Q(E) P(R)` are told apart by coordinates.
-/
namespace Steenrod
namespace Milnor

open MvPolynomial TensorProduct
open Finset.HasAntidiagonal (antidiagonal mem_antidiagonal)

variable {p : Prime}

theorem constantCoeff_totalPower (f : Dual p) : constantCoeff (totalPower p f) = f := by
  have hhom : (constantCoeff).comp (totalPower p : Dual p →+* MvPolynomial ℕ (Dual p)) = RingHom.id (Dual p) := by
    refine ringHom_ext (fun c => ?_) fun n => ?_
    · have hc : totalPower p (C c) = C (C c) := AlgHom.commutes _ c
      simp [hc]
    · have hX : totalPower p (X n) = composite p (n + 1) := totalPower_xi (n + 1)
      simp only [RingHom.comp_apply, AlgHom.coe_toRingHom, hX, RingHom.id_apply, composite,
        Finset.Nat.sum_antidiagonal_succ', map_add, map_sum]
      simp [xi]
  exact congrArg (fun h => h f) hhom

theorem powerOn_zero : powerOn p 0 = 1 := by
  refine LinearMap.ext fun f => ?_
  rw [powerOn_apply, Module.End.one_apply]
  exact constantCoeff_totalPower f

theorem sum_antidiagonal_eq {M : Type} [AddCommMonoid M] (f : ℕ → ℕ → M) (n : ℕ) :
    ∑ x ∈ antidiagonal n, f x.1 x.2 = f n 0 + ∑ i ∈ Finset.range n, f (n - (i + 1)) (i + 1) := by
  rw [← Finset.Nat.sum_antidiagonal_swap, Finset.Nat.sum_antidiagonal_eq_sum_range_succ_mk, Finset.sum_range_succ', add_comm]
  rfl

/-- The operations on `ξ_n^{p^k} f`. -/
theorem powerOn_xi_pow_mul (R : ℕ →₀ ℕ) (n k : ℕ) (f : Dual p) : powerOn p R (xi n ^ p.val ^ k * f) =
    xi n ^ p.val ^ k * powerOn p R f + ∑ i ∈ Finset.range n, if p.val ^ k ≤ R i then
      xi (n - (i + 1)) ^ p.val ^ (k + i + 1) * powerOn p (R - Finsupp.single i (p.val ^ k)) f else 0 := by
  rw [powerOn_apply, map_mul, map_pow, totalPower_xi, composite_pow, Finset.sum_mul, coeff_sum,
    sum_antidiagonal_eq fun a b => coeff R (C (xi a ^ p.val ^ (b + k)) * xi b ^ p.val ^ k * totalPower p f)]
  congr 1
  · rw [xi, one_pow, mul_one, coeff_C_mul, Nat.zero_add, powerOn_apply]
  · refine Finset.sum_congr rfl fun i _ => ?_
    rw [xi, mul_assoc, coeff_C_mul, X_pow_eq_monomial, coeff_monomial_mul', one_mul, mul_ite, mul_zero,
      (by omega : i + 1 + k = k + i + 1)]
    simp only [Finsupp.single_le_iff, powerOn_apply]

/-- The exterior algebra on `e_0, e_1, …`. -/
abbrev Exterior (p : Prime) : Type := ExteriorAlgebra p.Field (ℕ →₀ p.Field)

noncomputable def Exterior.unit (p : Prime) (n : ℕ) : Exterior p := ExteriorAlgebra.ι p.Field (Finsupp.single n 1)

theorem Exterior.unit_mul (m n : ℕ) : Exterior.unit p m * Exterior.unit p n = -(Exterior.unit p n * Exterior.unit p m) :=
  eq_neg_of_add_eq_zero_left (ExteriorAlgebra.ι_add_mul_swap _ _)

/-- Operators on polynomials with coefficients in the exterior algebra. -/
def Faithful (p : Prime) : Type := Module.End p.Field (Dual p) ⊗[p.Field] Exterior p

namespace Faithful

noncomputable instance : Ring (Faithful p) := inferInstanceAs (Ring (Module.End p.Field (Dual p) ⊗[p.Field] Exterior p))

noncomputable instance : Module p.Field (Faithful p) :=
  inferInstanceAs (Module p.Field (Module.End p.Field (Dual p) ⊗[p.Field] Exterior p))

instance : IsScalarTower p.Field (Faithful p) (Faithful p) :=
  inferInstanceAs (IsScalarTower p.Field (Module.End p.Field (Dual p) ⊗[p.Field] Exterior p)
    (Module.End p.Field (Dual p) ⊗[p.Field] Exterior p))

instance : SMulCommClass p.Field (Faithful p) (Faithful p) :=
  inferInstanceAs (SMulCommClass p.Field (Module.End p.Field (Dual p) ⊗[p.Field] Exterior p)
    (Module.End p.Field (Dual p) ⊗[p.Field] Exterior p))

/-- An operator together with an exterior element. -/
noncomputable def pair : Module.End p.Field (Dual p) →ₗ[p.Field] Exterior p →ₗ[p.Field] Faithful p :=
  TensorProduct.mk p.Field (Module.End p.Field (Dual p)) (Exterior p)

theorem pair_mul (f g : Module.End p.Field (Dual p)) (v w : Exterior p) :
    pair f v * pair g w = pair (f * g) (v * w) := Algebra.TensorProduct.tmul_mul_tmul f g v w

theorem pair_one : pair (1 : Module.End p.Field (Dual p)) 1 = 1 := rfl

/-- `Q_k`, with `ξ_m^{p^k} e_{k+m}` for every `m`. -/
noncomputable def exterior (p : Prime) (k : ℕ) : Faithful p :=
  ∑ m ∈ Finset.range (32 - k), pair (LinearMap.mulLeft p.Field (xi m ^ p.val ^ k)) (Exterior.unit p (k + m))

/-- `P(R)`. -/
noncomputable def power (p : Prime) (R : ℕ →₀ ℕ) : Faithful p := pair (powerOn p R) 1

theorem exterior_mul (j k : ℕ) : exterior p j * exterior p k = -(exterior p k * exterior p j) := by
  have hcomm : ∀ f g : Dual p, LinearMap.mulLeft p.Field f * LinearMap.mulLeft p.Field g =
      LinearMap.mulLeft p.Field g * LinearMap.mulLeft p.Field f := fun f g => by
    refine LinearMap.ext fun h => ?_
    simp [mul_left_comm]
  rw [exterior, exterior, Finset.sum_mul_sum, Finset.sum_mul_sum, Finset.sum_comm, ← Finset.sum_neg_distrib]
  refine Finset.sum_congr rfl fun m _ => ?_
  rw [← Finset.sum_neg_distrib]
  refine Finset.sum_congr rfl fun n _ => ?_
  rw [pair_mul, pair_mul, hcomm, Exterior.unit_mul, map_neg]

/-- What `P(R)` leaves behind as it passes `Q_k`. -/
theorem power_mul_exterior (R : ℕ →₀ ℕ) (k : ℕ) : power p R * exterior p k =
    exterior p k * power p R + ∑ i ∈ R.support,
      if p.val ^ k ≤ R i then exterior p (k + i + 1) * power p (R - Finsupp.single i (p.val ^ k)) else 0 := by
  let mul : Dual p → Module.End p.Field (Dual p) := LinearMap.mulLeft p.Field
  let left : ℕ → Module.End p.Field (Dual p) := fun i => powerOn p (R - Finsupp.single i (p.val ^ k))
  let G : ℕ → ℕ → Faithful p := fun i m =>
    if p.val ^ k ≤ R i then pair (mul (xi m ^ p.val ^ (k + i + 1)) * left i) (Exterior.unit p (k + i + 1 + m)) else 0
  have hpass : ∀ m, power p R * pair (mul (xi m ^ p.val ^ k)) (Exterior.unit p (k + m)) =
      pair (mul (xi m ^ p.val ^ k)) (Exterior.unit p (k + m)) * power p R + ∑ i ∈ Finset.range m, G i (m - (i + 1)) := by
    intro m
    have hend : powerOn p R * mul (xi m ^ p.val ^ k) = mul (xi m ^ p.val ^ k) * powerOn p R +
        ∑ i ∈ Finset.range m, if p.val ^ k ≤ R i then mul (xi (m - (i + 1)) ^ p.val ^ (k + i + 1)) * left i else 0 := by
      refine LinearMap.ext fun f => ?_
      have h := powerOn_xi_pow_mul R m k f
      simp only [Module.End.mul_apply, LinearMap.add_apply, LinearMap.sum_apply, mul, LinearMap.mulLeft_apply, h]
      congr 1
      refine Finset.sum_congr rfl fun i _ => ?_
      split <;> simp [left]
    rw [power, pair_mul, pair_mul, hend, one_mul, mul_one, map_add, map_sum, LinearMap.add_apply, LinearMap.sum_apply]
    congr 1
    refine Finset.sum_congr rfl fun i hi => ?_
    have hm : k + i + 1 + (m - (i + 1)) = k + m := by
      have := Finset.mem_range.mp hi
      omega
    simp only [G, hm]
    split <;> simp
  have hterm : ∀ i, (if p.val ^ k ≤ R i then exterior p (k + i + 1) * power p (R - Finsupp.single i (p.val ^ k)) else 0) =
      ∑ m ∈ Finset.range (31 - k - i), G i m := by
    intro i
    simp only [G]
    split
    · rw [exterior, Finset.sum_mul, (by omega : 32 - (k + i + 1) = 31 - k - i)]
      refine Finset.sum_congr rfl fun m _ => ?_
      rw [power, pair_mul, mul_one]
    · rw [Finset.sum_const_zero]
  have hsupport : ∑ i ∈ R.support, ∑ m ∈ Finset.range (31 - k - i), G i m =
      ∑ i ∈ Finset.range (31 - k), ∑ m ∈ Finset.range (31 - k - i), G i m := by
    -- Outside the support nothing is left behind, and beyond the range there is no place for it.
    have hl := Finset.sum_subset (f := fun i => ∑ m ∈ Finset.range (31 - k - i), G i m)
      (Finset.subset_union_left : R.support ⊆ R.support ∪ Finset.range (31 - k)) fun i _ hi => by
        have hpos : 0 < p.val ^ k := Nat.pow_pos p.pos
        have hzero : ¬p.val ^ k ≤ R i := by
          rw [Finsupp.notMem_support_iff.mp hi]
          omega
        simp [G, hzero]
    have hr := Finset.sum_subset (f := fun i => ∑ m ∈ Finset.range (31 - k - i), G i m)
      (Finset.subset_union_right : Finset.range (31 - k) ⊆ R.support ∪ Finset.range (31 - k)) fun i _ hi => by
        have hzero : 31 - k - i = 0 := by
          have := Finset.mem_range.not.mp hi
          omega
        simp [hzero]
    rw [hl, hr]
  have hshift : ∑ m ∈ Finset.range (32 - k), ∑ i ∈ Finset.range m, G i (m - (i + 1)) =
      ∑ m ∈ Finset.range (31 - k), ∑ i ∈ Finset.range (m + 1), G i (m - i) := by
    by_cases hk : k < 32
    · rw [(by omega : 32 - k = 31 - k + 1), Finset.sum_range_succ', Finset.range_zero, Finset.sum_empty, add_zero]
      refine Finset.sum_congr rfl fun m _ => Finset.sum_congr rfl fun i _ => ?_
      rw [Nat.add_sub_add_right]
    · rw [(by omega : 32 - k = 0), (by omega : 31 - k = 0)]
      simp
  rw [Finset.sum_congr rfl fun i _ => hterm i, hsupport, ← Finset.sum_range_diag_flip, ← hshift, exterior, Finset.mul_sum,
    Finset.sum_mul, ← Finset.sum_add_distrib]
  exact Finset.sum_congr rfl fun m _ => hpass m

theorem power_mul (hp : p.val ≤ 2147483648) (R S : List ℕ) : power p (index R) * power p (index S) =
    (powerSum p (powerProduct p R S)).sum fun T c => c • power p T := by
  rw [power, power, pair_mul, powerOn_mul hp, mul_one, Finsupp.sum, map_sum, LinearMap.sum_apply]
  refine Finset.sum_congr rfl fun T _ => ?_
  rw [map_smul, LinearMap.smul_apply]
  rfl

/-- These operators multiply as the elements `Q_k` and `P(R)` do, in all degrees. -/
noncomputable def operators (hp : p.val ≤ 2147483648) (bound : ℕ) : Operators p bound (Faithful p) where
  exterior := exterior p
  power := power p
  power_zero := by rw [power, powerOn_zero, pair_one]
  power_mul R S _ := power_mul hp R S
  exterior_mul _ j k _ := exterior_mul j k
  power_mul_exterior _ R k _ := power_mul_exterior R k

/-- The constant coefficients of what an operator makes of a monomial. -/
noncomputable def constantAt (p : Prime) (S : ℕ →₀ ℕ) : Module.End p.Field (Dual p) →ₗ[p.Field] p.Field where
  toFun f := constantCoeff (f (monomial S 1))
  map_add' f g := by rw [LinearMap.add_apply, map_add]
  map_smul' c f := by rw [LinearMap.smul_apply, smul_eq_C_mul, map_mul, constantCoeff_C, RingHom.id_apply, smul_eq_mul]

theorem constantAt_apply (S : ℕ →₀ ℕ) (f : Module.End p.Field (Dual p)) :
    constantAt p S f = constantCoeff (f (monomial S 1)) := rfl

/-- The exterior elements that belong to the constant coefficients at a monomial. -/
noncomputable def readAt (p : Prime) (S : ℕ →₀ ℕ) : Faithful p →ₗ[p.Field] Exterior p :=
  (TensorProduct.lid p.Field (Exterior p)).toLinearMap ∘ₗ LinearMap.rTensor (Exterior p) (constantAt p S)

theorem readAt_pair (S : ℕ →₀ ℕ) (f : Module.End p.Field (Dual p)) (w : Exterior p) :
    readAt p S (pair f w) = constantAt p S f • w := by
  have h : LinearMap.rTensor (Exterior p) (constantAt p S) (f ⊗ₜ w) = constantAt p S f ⊗ₜ w := LinearMap.rTensor_tmul _ _ _ _
  exact (congrArg (TensorProduct.lid p.Field (Exterior p)) h).trans (TensorProduct.lid_tmul _ _)

theorem constantCoeff_xi_pow {n k : ℕ} : constantCoeff (xi n ^ p.val ^ k : Dual p) = if n = 0 then 1 else 0 := by
  cases n with
  | zero => simp [xi]
  | succ n => simp [xi]

theorem induction_pair {P : Faithful p → Prop} (hzero : P 0) (hpair : ∀ f w, P (pair f w)) (hadd : ∀ x y, P x → P y → P (x + y))
    (x : Faithful p) : P x :=
  TensorProduct.induction_on x hzero hpair hadd

theorem readAt_exterior_mul {k : ℕ} (hk : k < 32) (S : ℕ →₀ ℕ) (x : Faithful p) :
    readAt p S (exterior p k * x) = Exterior.unit p k * readAt p S x := by
  induction x using induction_pair with
  | hzero => simp
  | hadd x y hx hy => rw [mul_add, map_add, hx, hy, map_add, mul_add]
  | hpair f w =>
    have hterm : ∀ m, readAt p S (pair (LinearMap.mulLeft p.Field (xi m ^ p.val ^ k)) (Exterior.unit p (k + m)) * pair f w) =
        if m = 0 then Exterior.unit p k * (constantAt p S f • w) else 0 := by
      intro m
      rw [pair_mul, readAt_pair, constantAt_apply, Module.End.mul_apply, LinearMap.mulLeft_apply, map_mul,
        constantCoeff_xi_pow]
      split
      · next h => rw [h, one_mul, mul_smul_comm, constantAt_apply, Nat.add_zero]
      · rw [zero_mul, zero_smul]
    rw [exterior, Finset.sum_mul, map_sum, Finset.sum_congr rfl fun m _ => hterm m, Finset.sum_ite_eq',
      if_pos (Finset.mem_range.mpr (by omega)), readAt_pair]

theorem constantCoeff_powerOn (R : ℕ →₀ ℕ) (f : Dual p) : constantCoeff (powerOn p R f) = coeff R f := by
  have hhom : (MvPolynomial.map (constantCoeff : Dual p →+* p.Field)).comp
      (totalPower p : Dual p →+* MvPolynomial ℕ (Dual p)) = RingHom.id (Dual p) := by
    refine ringHom_ext (fun c => ?_) fun n => ?_
    · have hc : totalPower p (C c) = C (C c) := AlgHom.commutes _ c
      simp [hc]
    · have hX : totalPower p (X n) = composite p (n + 1) := totalPower_xi (n + 1)
      have hterm : ∀ i j : ℕ, MvPolynomial.map (constantCoeff : Dual p →+* p.Field) (C (xi i ^ p.val ^ j) * xi j) =
          if i = 0 then xi j else 0 := by
        intro i j
        rw [map_mul, map_C, constantCoeff_xi_pow, map_xi]
        split <;> simp
      simp only [RingHom.comp_apply, AlgHom.coe_toRingHom, hX, RingHom.id_apply, composite, map_sum, hterm]
      rw [Finset.Nat.sum_antidiagonal_succ]
      simp [xi]
  have h := congrArg (fun h => coeff R (h f)) hhom
  simp only [RingHom.comp_apply, AlgHom.coe_toRingHom, coeff_map, RingHom.id_apply] at h
  exact h

theorem readAt_element (hp : p.val ≤ 2147483648) (bound : ℕ) (S : ℕ →₀ ℕ) (x : MilnorElement) :
    readAt p S ((operators hp bound).element x) =
      if index x.exponents = S then ((members x.exterior).map (Exterior.unit p)).prod else 0 := by
  have hpower : readAt p S (power p (index x.exponents)) = if index x.exponents = S then 1 else 0 := by
    rw [power, readAt_pair, constantAt_apply, constantCoeff_powerOn, coeff_monomial]
    simp only [eq_comm, ite_smul, one_smul, zero_smul]
  have hlist : ∀ ks : List ℕ, (∀ k ∈ ks, k < 32) → readAt p S ((ks.map (exterior p)).prod * power p (index x.exponents)) =
      (ks.map (Exterior.unit p)).prod * if index x.exponents = S then 1 else 0 := by
    intro ks hks
    induction ks with
    | nil => simp [hpower]
    | cons k ks ih =>
      rw [List.map_cons, List.prod_cons, List.map_cons, List.prod_cons, mul_assoc, readAt_exterior_mul (hks k (by simp)),
        ih fun l hl => hks l (by simp [hl]), mul_assoc]
  have h := hlist (members x.exterior) fun k hk => (mem_members.mp hk).1
  rw [mul_ite, mul_one, mul_zero] at h
  exact h

/-- The basis of the exterior algebra. -/
noncomputable def exteriorBasis (p : Prime) : Module.Basis (Finset ℕ) p.Field (Exterior p) :=
  (Finsupp.basisSingleOne (R := p.Field) (ι := ℕ)).ExteriorAlgebra

theorem exteriorBasis_singleton (k : ℕ) : exteriorBasis p {k} = Exterior.unit p k := by
  let s : Set.powersetCard ℕ 1 := Set.powersetCard.ofCard (Finset.card_singleton k)
  have hs : Set.powersetCard.ofFinEmbEquiv.symm s 0 = k := by
    have hmem := (Set.powersetCard.mem_range_ofFinEmbEquiv_symm_iff_mem s (Set.powersetCard.ofFinEmbEquiv.symm s 0)).mp
      ⟨0, rfl⟩
    exact Finset.mem_singleton.mp hmem
  have hfamily : exteriorBasis p {k} = ExteriorAlgebra.ιMulti_family p.Field 1 Finsupp.basisSingleOne s :=
    ExteriorAlgebra.basis_apply_ofCard _ (Finset.card_singleton k)
  rw [hfamily, ExteriorAlgebra.ιMulti_family, ExteriorAlgebra.ιMulti_succ_apply, ExteriorAlgebra.ιMulti_zero_apply, mul_one,
    Function.comp_apply, hs, Exterior.unit, Finsupp.coe_basisSingleOne]

theorem exists_prod_units_eq {ks : List ℕ} (h : ks.Nodup) :
    ∃ u : p.Field, u ≠ 0 ∧ (ks.map (Exterior.unit p)).prod = u • exteriorBasis p ks.toFinset := by
  induction ks with
  | nil =>
    refine ⟨1, one_ne_zero, ?_⟩
    have hfamily : exteriorBasis p ∅ = ExteriorAlgebra.ιMulti_family p.Field 0 Finsupp.basisSingleOne _ :=
      ExteriorAlgebra.basis_apply_ofCard _ Finset.card_empty
    rw [one_smul, List.toFinset_nil, hfamily, ExteriorAlgebra.ιMulti_family, ExteriorAlgebra.ιMulti_zero_apply]
    rfl
  | cons k ks ih =>
    obtain ⟨hk, hks⟩ := List.nodup_cons.mp h
    obtain ⟨u, hu, hprod⟩ := ih hks
    let s : Set.powersetCard ℕ 1 := Set.powersetCard.ofCard (Finset.card_singleton k)
    let t : Set.powersetCard ℕ ks.toFinset.card := Set.powersetCard.ofCard rfl
    have hdisj : Disjoint s.val t.val := Finset.disjoint_singleton_left.mpr (List.mem_toFinset.not.mpr hk)
    have hmul := ExteriorAlgebra.basis_mul_of_disjoint (Finsupp.basisSingleOne (R := p.Field)) s t hdisj
    have hunion : (Set.powersetCard.disjUnion hdisj : Finset ℕ) = (k :: ks).toFinset := by
      rw [Set.powersetCard.coe_disjUnion, Finset.disjUnion_eq_union, List.toFinset_cons, Finset.insert_eq]
      rfl
    rw [hunion] at hmul
    have hcons : ((k :: ks).map (Exterior.unit p)).prod = u • (exteriorBasis p {k} * exteriorBasis p ks.toFinset) := by
      rw [List.map_cons, List.prod_cons, hprod, ← exteriorBasis_singleton, mul_smul_comm]
    rcases Int.units_eq_one_or (Set.powersetCard.permOfDisjoint hdisj).sign with hsign | hsign
    · rw [hsign, one_smul] at hmul
      exact ⟨u, hu, hcons.trans (congrArg (u • ·) hmul)⟩
    · rw [hsign, Units.neg_smul, one_smul] at hmul
      refine ⟨-u, neg_ne_zero.mpr hu, ?_⟩
      rw [neg_smul, ← smul_neg]
      exact hcons.trans (congrArg (u • ·) hmul)

/-- A coordinate that tells a basis element from all others. -/
theorem exists_coordinate (hp : p.val ≤ 2147483648) (bound : ℕ) (x : MilnorElement) :
    ∃ φ : Faithful p →ₗ[p.Field] p.Field, φ ((operators hp bound).element x) = 1 ∧
      ∀ y : MilnorElement, ¬(index y.exponents = index x.exponents ∧ members y.exterior = members x.exterior) →
        φ ((operators hp bound).element y) = 0 := by
  have hnodup : ∀ mask, (members mask).Nodup := fun mask => List.nodup_range.filter _
  obtain ⟨u, hu, hx⟩ := exists_prod_units_eq (p := p) (hnodup x.exterior)
  refine ⟨u⁻¹ • ((exteriorBasis p).coord (members x.exterior).toFinset ∘ₗ readAt p (index x.exponents)), ?_, fun y hy => ?_⟩
  · rw [LinearMap.smul_apply, LinearMap.comp_apply, readAt_element, if_pos rfl, hx]
    simp [hu]
  · rw [LinearMap.smul_apply, LinearMap.comp_apply, readAt_element]
    by_cases hindex : index y.exponents = index x.exponents
    · obtain ⟨v, _, hv⟩ := exists_prod_units_eq (p := p) (hnodup y.exterior)
      have hne : (members y.exterior).toFinset ≠ (members x.exterior).toFinset := by
        intro heq
        refine hy ⟨hindex, ?_⟩
        have hsorted : ∀ mask, (members mask).Pairwise (· < ·) := fun mask => List.pairwise_lt_range.filter _
        exact List.Perm.eq_of_pairwise (fun a b _ _ hab hba => absurd (lt_trans hab hba) (lt_irrefl a)) (hsorted _) (hsorted _)
          ((List.perm_ext_iff_of_nodup (hnodup _) (hnodup _)).mpr fun k => by
            rw [← List.mem_toFinset, heq, List.mem_toFinset])
      rw [if_pos hindex, hv, map_smul, Module.Basis.coord_apply, Module.Basis.repr_self, Finsupp.single_eq_of_ne hne.symm,
        smul_zero, smul_zero]
    · rw [if_neg hindex, map_zero, smul_zero]

end Faithful
end Milnor
end Steenrod
