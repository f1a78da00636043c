import Steenrod.Proofs.Milnor.Coproduct
/-!
The coproduct of all basis elements, in the tensor square of the algebra. Main statement: it is multiplicative, with the sign that
moving a right factor past a left one costs.
-/
namespace Steenrod

open Vec

/-- A sum of multiples of tensors `a ⊗ b` of basis elements. -/
abbrev Tensors : Type := List (ℕ × Operation × Operation)

namespace Tensors

variable {p : Prime}

/-- The coefficient of every tensor of basis elements. -/
noncomputable def coefficients (p : Prime) (x : Tensors) : Operation × Operation →₀ p.Field :=
  (x.map fun t => Finsupp.single t.2 (t.1 : p.Field)).sum

def LiesIn (p : Prime) (d : ℤ) (x : Tensors) : Prop :=
  ∀ t ∈ x, t.2.1.IsBasis p ∧ t.2.2.IsBasis p ∧ t.2.1.degree + t.2.2.degree = d

theorem coefficients_cons (t : ℕ × Operation × Operation) (x : Tensors) :
    coefficients p (t :: x) = Finsupp.single t.2 (t.1 : p.Field) + coefficients p x := by
  rw [coefficients, List.map_cons, List.sum_cons, coefficients]

theorem coefficients_eq_zero {x : Tensors} {s : Operation × Operation} (h : ∀ t ∈ x, t.2 ≠ s) : coefficients p x s = 0 := by
  induction x with
  | nil => rfl
  | cons t x ih =>
    rw [coefficients_cons, Finsupp.add_apply, ih fun u hu => h u (by simp [hu]), Finsupp.single_eq_of_ne (h t (by simp)).symm,
      add_zero]

end Tensors

namespace Milnor

open TensorProduct

variable {p : Prime}

section Map

variable {bound : ℕ} {K L : Type} [Ring K] [Module p.Field K] [Ring L] [Module p.Field L]

/-- The images of operators in another ring. -/
noncomputable def Operators.map (O : Operators p bound K) (φ : K →+* L) (hφ : ∀ (c : p.Field) x, φ (c • x) = c • φ x) :
    Operators p bound L where
  exterior k := φ (O.exterior k)
  power R := φ (O.power R)
  power_zero := by rw [O.power_zero, map_one]
  power_mul R S h := by
    rw [← map_mul, O.power_mul R S h, Finsupp.sum, map_sum]
    exact Finset.sum_congr rfl fun T _ => hφ _ _
  exterior_mul hodd j k h := by rw [← map_mul, O.exterior_mul hodd j k h, map_neg, map_mul]
  power_mul_exterior hodd R k h := by
    rw [← map_mul, O.power_mul_exterior hodd R k h, map_add, map_sum, map_mul]
    refine congrArg _ (Finset.sum_congr rfl fun i _ => ?_)
    split
    · exact map_mul φ _ _
    · exact map_zero φ

theorem Operators.operator_map (O : Operators p bound K) (φ : K →+* L) (hφ : ∀ (c : p.Field) x, φ (c • x) = c • φ x)
    (a : Operation) : (O.map φ hφ).operator a = φ (O.operator a) := by
  unfold Operators.operator
  split
  · rw [Operators.element, Operators.element, map_mul, Operators.exteriors, Operators.exteriors, map_list_prod, List.map_map]
    rfl
  · exact (map_zero φ).symm

end Map

namespace Operators

variable {bound : ℕ} {K : Type} [Ring K] [Module p.Field K]

theorem commute_operator (O : Operators p bound K) {z : K} (hz : ∀ y ∈ O.letters, Commute y z) (a : Operation) :
    Commute (O.operator a) z := by
  unfold operator
  split
  · refine Commute.mul_left (Commute.list_prod_left _ z fun y hy => ?_) (hz _ (O.power_mem_letters _))
    obtain ⟨k, _, rfl⟩ := List.mem_map.mp hy
    exact hz _ (O.exterior_mem_letters k)
  · exact Commute.zero_left z

theorem neg_one_eq_one (heven : p.isOdd = false) : (-1 : p.Field) = 1 := by
  have htwo : p.val = 2 := by simpa [Prime.isOdd] using heven
  have hzero : ((2 : ℕ) : p.Field) = 0 := by
    rw [← htwo]
    exact ZMod.natCast_self p.val
  exact neg_eq_of_add_eq_zero_left (by rw [one_add_one_eq_two]; exact_mod_cast hzero)

theorem neg_one_pow_step : (-1 : p.Field) ^ step p = 1 := by
  cases hodd : p.isOdd with
  | true => rw [(by rw [step_of_isOdd hodd]; omega : step p = 2 * (p.val - 1)), pow_mul, neg_one_sq, one_pow]
  | false => rw [neg_one_eq_one hodd, one_pow]

theorem neg_one_pow_tauDegree (k : ℕ) : (-1 : p.Field) ^ tauDegree p k = -1 := by
  have hpos := Nat.pow_pos p.pos (n := k)
  obtain ⟨m, hm⟩ : ∃ m, tauDegree p k = 2 * m + 1 := ⟨p.val ^ k - 1, by unfold tauDegree; omega⟩
  rw [hm, pow_succ, pow_mul, neg_one_sq, one_pow, one_mul]

/-- The parity of the degree is that of the number of exterior factors. -/
theorem sign_degree (x : MilnorElement) :
    (p.sign (x.degree p : ℕ) : p.Field) = (-1) ^ (members x.exterior).length := by
  have htau : ∀ ks : List ℕ, (-1 : p.Field) ^ (ks.map (tauDegree p)).sum = (-1) ^ ks.length := by
    intro ks
    induction ks with
    | nil => rfl
    | cons k ks ih => rw [List.map_cons, List.sum_cons, pow_add, ih, neg_one_pow_tauDegree, List.length_cons, pow_succ']
  rw [Prime.cast_sign_natCast, MilnorElement.degree, degreeOf, pow_add, htau, pow_mul, neg_one_pow_step, one_pow, mul_one]

namespace Side

variable {O P : Operators p bound K} {sign : K} (h : Side O P sign)

include h

theorem commute_operators (a b : Operation) : Commute (O.operator a) (P.operator b) :=
  O.commute_operator (fun y hy => (P.commute_operator (fun z hz => (h.commute y hy z hz).symm) b).symm) a

theorem commute_sign (b : Operation) : Commute sign (P.operator b) :=
  (P.commute_operator (fun y hy => (h.sign_right y hy).symm) b).symm

variable [SMulCommClass p.Field K K]

theorem sign_mul_exteriors (hodd : p.isOdd) (ks : List ℕ) :
    sign * O.exteriors ks = (-1 : p.Field) ^ ks.length • (O.exteriors ks * sign) := by
  induction ks with
  | nil => simp
  | cons k ks ih =>
    rw [exteriors_cons, ← mul_assoc, h.sign_exterior hodd, neg_mul, mul_assoc, ih, mul_smul_comm, List.length_cons, pow_succ,
      mul_neg_one, neg_smul, mul_assoc]

variable [IsScalarTower p.Field K K]

theorem sign_mul_operator (hp : p.val < 1073741824) {a : Operation} (ha : a.IsBasis p) (ht : a.degree < trackedBelow) :
    sign * O.operator a = (p.sign a.degree : p.Field) • (O.operator a * sign) := by
  obtain ⟨x, hx, _⟩ := element?_eq_some ha
  obtain ⟨hproper, hdegree⟩ := proper_of_element? hp hx ht
  rw [O.operator_of_element? hx, element, ← hdegree, sign_degree, mul_assoc, ← (h.sign_power _).eq, ← mul_assoc]
  cases hodd : p.isOdd with
  | true => rw [h.sign_mul_exteriors hodd, smul_mul_assoc, mul_assoc]
  | false =>
    rw [h.sign_eq_one hodd, hproper.exterior_eq_zero hodd, show members 0 = [] by decide]
    simp

theorem sign_pow_mul_operator (hp : p.val < 1073741824) {a : Operation} (ha : a.IsBasis p) (ht : a.degree < trackedBelow) (n : ℕ) :
    sign ^ n * O.operator a = (p.sign (n * a.degree) : p.Field) • (O.operator a * sign ^ n) := by
  have hpow : (p.sign (n * a.degree) : p.Field) = (p.sign a.degree : p.Field) ^ n := by
    lift a.degree to ℕ using ha.nonneg with d
    rw [← Nat.cast_mul, Prime.cast_sign_natCast, Prime.cast_sign_natCast, Nat.mul_comm, pow_mul]
  rw [hpow]
  clear hpow
  induction n with
  | zero => simp
  | succ n ih =>
    rw [pow_succ, mul_assoc, h.sign_mul_operator hp ha ht, mul_smul_comm, ← mul_assoc, ih, smul_mul_assoc, mul_assoc, ← pow_succ,
      smul_smul, ← pow_succ']

/-- Products of tensors, with the sign of moving `b` past `c`. -/
theorem tensor_mul (hp : p.val < 1073741824) {a b c d : Operation} (hb : 0 ≤ b.degree) (hd : 0 ≤ d.degree) (hc : c.IsBasis p)
    (ht : c.degree < trackedBelow) : h.tensor a b * h.tensor c d =
      (p.sign (b.degree * c.degree) : p.Field) •
        (O.operator a * O.operator c * sign ^ (b.degree + d.degree).toNat * (P.operator b * P.operator d)) := by
  have hmove : P.operator b * (O.operator c * sign ^ d.degree.toNat) = O.operator c * sign ^ d.degree.toNat * P.operator b := by
    rw [← mul_assoc, ← (h.commute_operators c b).eq, mul_assoc, ← ((h.commute_sign b).pow_left _).eq, mul_assoc]
  have hswap := h.sign_pow_mul_operator hp hc ht b.degree.toNat
  rw [Int.toNat_of_nonneg hb] at hswap
  calc h.tensor a b * h.tensor c d
      = O.operator a * sign ^ b.degree.toNat * (P.operator b * (O.operator c * sign ^ d.degree.toNat)) * P.operator d := by
        simp only [tensor, mul_assoc]
    _ = O.operator a * (sign ^ b.degree.toNat * O.operator c) * sign ^ d.degree.toNat * (P.operator b * P.operator d) := by
        rw [hmove]
        simp only [mul_assoc]
    _ = (p.sign (b.degree * c.degree) : p.Field) •
        (O.operator a * O.operator c * (sign ^ b.degree.toNat * sign ^ d.degree.toNat) * (P.operator b * P.operator d)) := by
        rw [hswap]
        simp only [mul_smul_comm, smul_mul_assoc, mul_assoc]
    _ = _ := by rw [← pow_add, Int.toNat_add hb hd]

end Side
end Operators

namespace Faithful

/-- The tensor square. -/
abbrev Square (p : Prime) : Type := Faithful p ⊗[p.Field] Faithful p

/-- Multiplication of left factors. -/
noncomputable def onLeft (p : Prime) : Faithful p →+* Module.End p.Field (Square p) where
  toFun x := TensorProduct.map (LinearMap.mulLeft p.Field x) 1
  map_one' := by rw [LinearMap.mulLeft_one]; exact TensorProduct.map_one
  map_zero' := by rw [LinearMap.mulLeft_zero_eq_zero, TensorProduct.map_zero_left]
  map_mul' x y := by rw [LinearMap.mulLeft_mul, ← TensorProduct.map_mul, mul_one]; rfl
  map_add' x y := by
    rw [← TensorProduct.map_add_left]
    congr 1
    exact LinearMap.ext fun z => add_mul x y z

/-- Multiplication of right factors. -/
noncomputable def onRight (p : Prime) : Faithful p →+* Module.End p.Field (Square p) where
  toFun x := TensorProduct.map 1 (LinearMap.mulLeft p.Field x)
  map_one' := by rw [LinearMap.mulLeft_one]; exact TensorProduct.map_one
  map_zero' := by rw [LinearMap.mulLeft_zero_eq_zero, TensorProduct.map_zero_right]
  map_mul' x y := by rw [LinearMap.mulLeft_mul, ← TensorProduct.map_mul, mul_one]; rfl
  map_add' x y := by
    rw [← TensorProduct.map_add_right]
    congr 1
    exact LinearMap.ext fun z => add_mul x y z

theorem onLeft_smul (c : p.Field) (x : Faithful p) : onLeft p (c • x) = c • onLeft p x := by
  have hsmul : LinearMap.mulLeft p.Field (c • x) = c • LinearMap.mulLeft p.Field x :=
    LinearMap.ext fun z => smul_mul_assoc c x z
  exact (congrArg (TensorProduct.map · 1) hsmul).trans (TensorProduct.map_smul_left _ _ _)

theorem onRight_smul (c : p.Field) (x : Faithful p) : onRight p (c • x) = c • onRight p x := by
  have hsmul : LinearMap.mulLeft p.Field (c • x) = c • LinearMap.mulLeft p.Field x :=
    LinearMap.ext fun z => smul_mul_assoc c x z
  exact (congrArg (TensorProduct.map 1 ·) hsmul).trans (TensorProduct.map_smul_right _ _ _)

/-- The sign of an exterior element. -/
noncomputable def involution (p : Prime) : Exterior p →ₐ[p.Field] Exterior p := CliffordAlgebra.involute

theorem involution_unit (n : ℕ) : involution p (Exterior.unit p n) = -Exterior.unit p n := CliffordAlgebra.involute_ι _

theorem involution_involution (w : Exterior p) : involution p (involution p w) = w := CliffordAlgebra.involute_involute w

theorem involution_of_even (heven : p.isOdd = false) : involution p = AlgHom.id p.Field (Exterior p) := by
  refine ExteriorAlgebra.hom_ext (LinearMap.ext fun v => ?_)
  have hneg : involution p (ExteriorAlgebra.ι p.Field v) = -ExteriorAlgebra.ι p.Field v := CliffordAlgebra.involute_ι v
  refine hneg.trans ?_
  rw [← neg_one_smul p.Field, Operators.neg_one_eq_one heven, one_smul]
  rfl

/-- The sign of an operator with an exterior element. -/
noncomputable def grade (p : Prime) : Faithful p →ₗ[p.Field] Faithful p :=
  (Algebra.TensorProduct.map (AlgHom.id p.Field (Module.End p.Field (Dual p))) (involution p)).toLinearMap

theorem grade_pair (f : Module.End p.Field (Dual p)) (w : Exterior p) : grade p (pair f w) = pair f (involution p w) :=
  Algebra.TensorProduct.map_tmul _ _ f w

theorem grade_mul (x y : Faithful p) : grade p (x * y) = grade p x * grade p y :=
  map_mul (Algebra.TensorProduct.map (AlgHom.id p.Field (Module.End p.Field (Dual p))) (involution p)) x y

theorem grade_grade (x : Faithful p) : grade p (grade p x) = x := by
  induction x using induction_pair with
  | hzero => rw [map_zero, map_zero]
  | hpair f w => rw [grade_pair, grade_pair, involution_involution]
  | hadd x y hx hy => rw [map_add, map_add, hx, hy]

theorem grade_power (R : ℕ →₀ ℕ) : grade p (power p R) = power p R := by rw [power, grade_pair, map_one]

theorem grade_one : grade p 1 = 1 := by rw [← pair_one, grade_pair, map_one (involution p)]

theorem grade_exterior (k : ℕ) : grade p (exterior p k) = -exterior p k := by
  rw [exterior, map_sum, ← Finset.sum_neg_distrib]
  refine Finset.sum_congr rfl fun m _ => ?_
  rw [grade_pair, involution_unit, map_neg]

theorem grade_of_even (heven : p.isOdd = false) (x : Faithful p) : grade p x = x := by
  induction x using induction_pair with
  | hzero => rw [map_zero]
  | hpair f w => rw [grade_pair, involution_of_even heven, AlgHom.id_apply]
  | hadd x y hx hy => rw [map_add, hx, hy]

/-- The sign of the left factor. -/
noncomputable def sign (p : Prime) : Module.End p.Field (Square p) := TensorProduct.map (grade p) 1

theorem sign_mul_onLeft (x : Faithful p) : sign p * onLeft p x = onLeft p (grade p x) * sign p := by
  refine (TensorProduct.map_mul _ _ _ _).symm.trans (Eq.trans ?_ (TensorProduct.map_mul _ _ _ _))
  exact congrArg (TensorProduct.map · (1 * 1)) (LinearMap.ext fun y => grade_mul x y)

theorem commute_onRight (f : Module.End p.Field (Faithful p)) (y : Faithful p) :
    Commute (TensorProduct.map f 1) (onRight p y) := by
  refine (TensorProduct.map_mul _ _ _ _).symm.trans (Eq.trans ?_ (TensorProduct.map_mul _ _ _ _))
  rw [mul_one, one_mul, mul_one, one_mul]

section Side

variable (hp : p.val ≤ 2147483648) (bound : ℕ)

/-- The operators that multiply left factors. -/
noncomputable def left : Operators p bound (Module.End p.Field (Square p)) := (operators hp bound).map (onLeft p) onLeft_smul

/-- The operators that multiply right factors. -/
noncomputable def right : Operators p bound (Module.End p.Field (Square p)) := (operators hp bound).map (onRight p) onRight_smul

theorem side : (left hp bound).Side (right hp bound) (sign p) where
  commute x hx y hy := by
    obtain ⟨x', rfl⟩ : ∃ x', x = onLeft p x' := hx.elim (fun ⟨R, hR⟩ => ⟨_, hR.symm⟩) fun ⟨k, hk⟩ => ⟨_, hk.symm⟩
    obtain ⟨y', rfl⟩ : ∃ y', y = onRight p y' := hy.elim (fun ⟨R, hR⟩ => ⟨_, hR.symm⟩) fun ⟨k, hk⟩ => ⟨_, hk.symm⟩
    exact commute_onRight _ y'
  sign_right y hy := by
    obtain ⟨y', rfl⟩ : ∃ y', y = onRight p y' := hy.elim (fun ⟨R, hR⟩ => ⟨_, hR.symm⟩) fun ⟨k, hk⟩ => ⟨_, hk.symm⟩
    exact commute_onRight _ y'
  sign_power R := by
    refine (sign_mul_onLeft (power p R)).trans ?_
    rw [grade_power]
    rfl
  sign_exterior _ k := by
    refine (sign_mul_onLeft (exterior p k)).trans ?_
    rw [grade_exterior, map_neg]
    exact LinearMap.neg_comp _ _
  sign_mul_sign := by
    refine (TensorProduct.map_mul _ _ _ _).symm.trans ?_
    rw [mul_one, (LinearMap.ext grade_grade : grade p * grade p = 1), TensorProduct.map_one]
  sign_eq_one heven := by
    rw [sign, (LinearMap.ext (grade_of_even heven) : grade p = 1), TensorProduct.map_one]

/-- What a tensor makes of `1 ⊗ 1`. -/
theorem tensor_apply (a b : Operation) : (side hp bound).tensor a b (1 ⊗ₜ 1) =
    (operators hp bound).operator a ⊗ₜ (operators hp bound).operator b := by
  have hsign : ∀ (n : ℕ) (y : Faithful p), (sign p ^ n) (1 ⊗ₜ[p.Field] y) = 1 ⊗ₜ[p.Field] y := by
    intro n y
    induction n with
    | zero => rfl
    | succ n ih =>
      rw [pow_succ', Module.End.mul_apply, ih, sign, TensorProduct.map_tmul, grade_one]
      rfl
  rw [Operators.Side.tensor, left, right, Operators.operator_map, Operators.operator_map, Module.End.mul_apply, Module.End.mul_apply]
  have hright : ∀ y : Faithful p, onRight p y (1 ⊗ₜ[p.Field] 1) = 1 ⊗ₜ[p.Field] y := fun y => by
    refine (TensorProduct.map_tmul _ _ _ _).trans ?_
    rw [LinearMap.mulLeft_apply, mul_one]
    rfl
  have hleft : ∀ x y : Faithful p, onLeft p x (1 ⊗ₜ[p.Field] y) = x ⊗ₜ[p.Field] y := fun x y => by
    refine (TensorProduct.map_tmul _ _ _ _).trans ?_
    rw [LinearMap.mulLeft_apply, mul_one]
    rfl
  rw [hright, hsign, hleft]

end Side

/-- A coordinate that tells a basis element from all others. -/
theorem exists_coordinate_operator (bound : ℕ) (hp : p.val < 1073741824) {a : Operation} (ha : a.IsBasis p) (ht : a.degree < trackedBelow) :
    ∃ φ : Faithful p →ₗ[p.Field] p.Field, ∀ b : Operation, b.IsBasis p → b.degree < trackedBelow →
      φ ((operators (Prime.le_signedWords hp) bound).operator b) = if b = a then 1 else 0 := by
  obtain ⟨x, hx, _⟩ := element?_eq_some ha
  obtain ⟨hproper, hdegree⟩ := proper_of_element? hp hx ht
  obtain ⟨φ, hone, hzero⟩ := exists_coordinate (p := p) (by omega) bound x
  refine ⟨φ, fun b hb htb => ?_⟩
  obtain ⟨y, hy, _⟩ := element?_eq_some hb
  obtain ⟨hproper', hdegree'⟩ := proper_of_element? hp hy htb
  rw [Operators.operator_of_element? _ hy]
  split
  · next h =>
    subst h
    rw [Option.some.inj (hy.symm.trans hx)]
    exact hone
  · next hne =>
    refine hzero y fun hsame => hne ?_
    obtain rfl := proper_eq hproper' hproper hsame.1 hsame.2
    rw [← operationAt_of_element? hp hx ht, ← operationAt_of_element? hp hy htb, ← hdegree, ← hdegree']

end Faithful

/-- A sum of tensors on a product. -/
noncomputable def Operators.Side.value {bound : ℕ} {K : Type} [Ring K] [Module p.Field K] {O P : Operators p bound K} {sign : K}
    (h : Side O P sign) (x : Tensors) : K := (x.map fun t => (t.1 : p.Field) • h.tensor t.2.1 t.2.2).sum

/-- Sums of tensors with the same value have the same coefficients. -/
theorem Faithful.coefficients_eq (hp : p.val < 1073741824) {bound : ℕ} {x y : Tensors} {d e : ℤ} (hx : x.LiesIn p d)
    (hy : y.LiesIn p e) (hd : d < trackedBelow) (he : e < trackedBelow)
    (h : (side (by omega) bound).value x = (side (p := p) (by omega) bound).value y) : x.coefficients p = y.coefficients p := by
  have hbounds : ∀ {z : Tensors} {f : ℤ}, z.LiesIn p f → f < trackedBelow → ∀ t ∈ z, t.2.1.IsBasis p ∧ t.2.2.IsBasis p ∧
      t.2.1.degree < trackedBelow ∧ t.2.2.degree < trackedBelow := by
    intro z f hz hf t ht
    obtain ⟨h₁, h₂, hsum⟩ := hz t ht
    have := h₁.nonneg
    have := h₂.nonneg
    exact ⟨h₁, h₂, by omega, by omega⟩
  ext ⟨a, b⟩
  by_cases hbasis : a.IsBasis p ∧ b.IsBasis p ∧ a.degree < trackedBelow ∧ b.degree < trackedBelow
  · obtain ⟨ha, hb, hta, htb⟩ := hbasis
    obtain ⟨φ, hφ⟩ := exists_coordinate_operator bound hp ha hta
    obtain ⟨ψ, hψ⟩ := exists_coordinate_operator bound hp hb htb
    -- The coordinate of `a ⊗ b` in what a sum makes of `1 ⊗ 1`.
    let χ : Module.End p.Field (Square p) → p.Field := fun f =>
      TensorProduct.lid p.Field p.Field (TensorProduct.map φ ψ (f (1 ⊗ₜ 1)))
    have hvalue : ∀ z : Tensors, (∀ t ∈ z, t.2.1.IsBasis p ∧ t.2.2.IsBasis p ∧ t.2.1.degree < trackedBelow ∧
        t.2.2.degree < trackedBelow) → χ ((side (by omega) bound).value z) = z.coefficients p (a, b) := by
      intro z hz
      induction z with
      | nil => simp [Operators.Side.value, χ, Tensors.coefficients]
      | cons t z ih =>
        obtain ⟨h₁, h₂, ht₁, ht₂⟩ := hz t (by simp)
        have hterm : χ ((t.1 : p.Field) • (side (by omega) bound).tensor t.2.1 t.2.2) = Finsupp.single t.2 (t.1 : p.Field) (a, b) := by
          simp only [χ, LinearMap.smul_apply, map_smul, tensor_apply, TensorProduct.map_tmul, TensorProduct.lid_tmul,
            hφ _ h₁ ht₁, hψ _ h₂ ht₂, smul_eq_mul, Finsupp.single_apply, Prod.ext_iff]
          by_cases h₁ : t.2.1 = a <;> by_cases h₂ : t.2.2 = b <;> simp [h₁, h₂]
        have hadd : ∀ f g, χ (f + g) = χ f + χ g := fun f g => by simp only [χ, LinearMap.add_apply, map_add]
        rw [Operators.Side.value, List.map_cons, List.sum_cons, hadd, hterm, Tensors.coefficients_cons, Finsupp.add_apply]
        exact congrArg _ (ih fun u hu => hz u (by simp [hu]))
    rw [← hvalue x (hbounds hx hd), ← hvalue y (hbounds hy he), h]
  · have hnone : ∀ {z : Tensors} {f : ℤ}, z.LiesIn p f → f < trackedBelow → z.coefficients p (a, b) = 0 := by
      intro z f hz hf
      refine Tensors.coefficients_eq_zero fun t ht heq => hbasis ?_
      have hmem := hbounds hz hf t ht
      rw [heq] at hmem
      exact hmem
    rw [hnone hx hd, hnone hy he]

end Milnor
end Steenrod
