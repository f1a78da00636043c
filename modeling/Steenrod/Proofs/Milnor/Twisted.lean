import Steenrod.Proofs.Milnor.Operators
/-!
Operators on products. Main statement: where operators on the left and on the right factor commute, and `σ` is the sign of
the left factor, the elements `Q_k ⊗ 1 + σ ⊗ Q_k` and `Σ_{R' + R'' = R} P(R') ⊗ P(R'')` multiply as `Q_k` and `P(R)` do.
-/
namespace Steenrod
namespace Milnor

open MvPolynomial TensorProduct
open Finset.HasAntidiagonal (antidiagonal mem_antidiagonal)

variable {p : Prime}

section Products

theorem exists_index (R : ℕ →₀ ℕ) : ∃ l : List ℕ, index l = R := by
  obtain ⟨l, _, hl⟩ := exists_index_eq (n := R.support.sup id + 1) (T := R) fun i hi => by
    by_contra hne
    have hle := Finset.le_sup (f := id) (Finsupp.mem_support_iff.mpr hne)
    exact absurd hi (not_le.mpr (Nat.lt_succ_of_le hle))
  exact ⟨l, hl⟩

/-- The coefficients of the product `P(R) P(S)`. -/
noncomputable def products (p : Prime) (R S : ℕ →₀ ℕ) : (ℕ →₀ ℕ) →₀ p.Field :=
  powerSum p (powerProduct p (exists_index R).choose (exists_index S).choose)

theorem products_apply (hp : p.val ≤ 2147483648) (R S T : ℕ →₀ ℕ) :
    products p R S T = coeff R (coeff S (composites p T)) := by
  rw [products, powerSum_apply hp, (exists_index R).choose_spec, (exists_index S).choose_spec]

theorem powerSum_eq_products (hp : p.val ≤ 2147483648) (R S : List ℕ) :
    powerSum p (powerProduct p R S) = products p (index R) (index S) := by
  ext T
  rw [powerSum_apply hp, products_apply hp]

theorem composites_add (T U : ℕ →₀ ℕ) :
    composites p (K := p.Field) (T + U) = composites p T * composites p U :=
  Finsupp.prod_add_index' (fun _ => pow_zero _) fun _ _ _ => pow_add _ _ _

/-- The coproduct of powers is compatible with their products. -/
theorem products_add (hp : p.val ≤ 2147483648) (R S T U : ℕ →₀ ℕ) : products p R S (T + U) =
    ∑ x ∈ antidiagonal R, ∑ y ∈ antidiagonal S, products p x.1 y.1 T * products p x.2 y.2 U := by
  simp only [products_apply hp]
  rw [composites_add, coeff_mul, coeff_sum, Finset.sum_comm]
  exact Finset.sum_congr rfl fun y _ => coeff_mul _ _ _

/-- The summands of all pairs `T' + T'' = T`. -/
noncomputable def split (p : Prime) : ((ℕ →₀ ℕ) →₀ p.Field) →ₗ[p.Field] ((ℕ →₀ ℕ) × (ℕ →₀ ℕ) →₀ p.Field) :=
  Finsupp.linearCombination p.Field fun T => ∑ x ∈ antidiagonal T, Finsupp.single x 1

theorem split_apply (f : (ℕ →₀ ℕ) →₀ p.Field) (T U : ℕ →₀ ℕ) : split p f (T, U) = f (T + U) := by
  induction f using Finsupp.induction_linear with
  | zero => rw [map_zero, Finsupp.zero_apply, Finsupp.zero_apply]
  | add f g hf hg => rw [map_add, Finsupp.add_apply, Finsupp.add_apply, hf, hg]
  | single V c =>
    have hsum : (∑ x ∈ antidiagonal V, Finsupp.single x (1 : p.Field)) (T, U) = if T + U = V then 1 else 0 := by
      simp only [Finsupp.finsetSum_apply, Finsupp.single_apply, Finset.sum_ite_eq', mem_antidiagonal]
    rw [split, Finsupp.linearCombination_single, Finsupp.smul_apply, hsum, Finsupp.single_apply, smul_ite, smul_zero,
      smul_eq_mul, mul_one]
    exact if_congr eq_comm rfl rfl

end Products

section Antidiagonals

variable {V : Type} [AddCommMonoid V]

/-- Pairs whose first component has `n` at place `i`, without that. -/
theorem sum_antidiagonal_left (R : ℕ →₀ ℕ) (i n : ℕ) (g : (ℕ →₀ ℕ) × (ℕ →₀ ℕ) → V) :
    (∑ x ∈ antidiagonal R, if n ≤ x.1 i then g (x.1 - Finsupp.single i n, x.2) else 0) =
      if n ≤ R i then ∑ y ∈ antidiagonal (R - Finsupp.single i n), g y else 0 := by
  have hback : ∀ T : ℕ →₀ ℕ, n ≤ T i → T - Finsupp.single i n + Finsupp.single i n = T := fun T hT =>
    tsub_add_cancel_of_le (Finsupp.single_le_iff.mpr hT)
  rw [← Finset.sum_filter]
  split
  · next hle =>
    refine Finset.sum_nbij' (fun x => (x.1 - Finsupp.single i n, x.2)) (fun y => (y.1 + Finsupp.single i n, y.2))
      (fun x hx => ?_) (fun y hy => ?_) (fun x hx => ?_) (fun y hy => ?_) fun x hx => rfl
    · obtain ⟨hx, hn⟩ := Finset.mem_filter.mp hx
      rw [mem_antidiagonal] at hx ⊢
      rw [← hx, ← hback x.1 hn, add_right_comm, add_tsub_cancel_right, add_tsub_cancel_right]
    · rw [mem_antidiagonal] at hy
      rw [Finset.mem_filter, mem_antidiagonal, add_right_comm, hy]
      exact ⟨hback R hle, by simp⟩
    · exact Prod.ext (hback x.1 (Finset.mem_filter.mp hx).2) rfl
    · exact Prod.ext (add_tsub_cancel_right _ _) rfl
  · next hnot =>
    refine Finset.sum_eq_zero fun x hx => absurd ?_ hnot
    obtain ⟨hx, hn⟩ := Finset.mem_filter.mp hx
    rw [← mem_antidiagonal.mp hx, Finsupp.add_apply]
    exact hn.trans (Nat.le_add_right _ _)

theorem sum_antidiagonal_swap (R : ℕ →₀ ℕ) (g : (ℕ →₀ ℕ) × (ℕ →₀ ℕ) → V) :
    ∑ x ∈ antidiagonal R, g x = ∑ x ∈ antidiagonal R, g x.swap := by
  refine Finset.sum_nbij' Prod.swap Prod.swap (fun x hx => ?_) (fun x hx => ?_) (fun x _ => x.swap_swap)
    (fun x _ => x.swap_swap) fun x _ => by rw [Prod.swap_swap]
  all_goals
    rw [mem_antidiagonal] at hx ⊢
    rw [← hx]
    exact add_comm _ _

theorem sum_antidiagonal_right (R : ℕ →₀ ℕ) (i n : ℕ) (g : (ℕ →₀ ℕ) × (ℕ →₀ ℕ) → V) :
    (∑ x ∈ antidiagonal R, if n ≤ x.2 i then g (x.1, x.2 - Finsupp.single i n) else 0) =
      if n ≤ R i then ∑ y ∈ antidiagonal (R - Finsupp.single i n), g y else 0 := by
  rw [sum_antidiagonal_swap, sum_antidiagonal_swap (R - Finsupp.single i n)]
  exact sum_antidiagonal_left R i n fun y => g y.swap

/-- Outside the support there is nothing to take away. -/
theorem sum_support_of_le {R T : ℕ →₀ ℕ} (h : T ≤ R) {n : ℕ} (hn : 0 < n) (g : ℕ → V) :
    (∑ i ∈ T.support, if n ≤ T i then g i else 0) = ∑ i ∈ R.support, if n ≤ T i then g i else 0 := by
  refine Finset.sum_subset (Finsupp.support_mono h) fun i _ hi => if_neg ?_
  rw [Finsupp.notMem_support_iff.mp hi]
  omega

end Antidiagonals

namespace Operators

variable {bound : ℕ} {K : Type} [Ring K] [Module p.Field K]

theorem power_mul_eq (O : Operators p bound K) (R S : ℕ →₀ ℕ) (h : step p * (weight p R + weight p S) < bound) :
    O.power R * O.power S = Finsupp.linearCombination p.Field O.power (products p R S) := by
  have hmul := O.power_mul (exists_index R).choose (exists_index S).choose (by
    rwa [(exists_index R).choose_spec, (exists_index S).choose_spec])
  rw [(exists_index R).choose_spec, (exists_index S).choose_spec] at hmul
  rw [hmul, Finsupp.linearCombination_apply, products]

/-- What the elements of the algebra are made of. -/
def letters (O : Operators p bound K) : Set K := Set.range O.power ∪ Set.range O.exterior

theorem power_mem_letters (O : Operators p bound K) (R : ℕ →₀ ℕ) : O.power R ∈ O.letters := .inl ⟨R, rfl⟩

theorem exterior_mem_letters (O : Operators p bound K) (k : ℕ) : O.exterior k ∈ O.letters := .inr ⟨k, rfl⟩

/-- Operators `O` on the left and `P` on the right factor of a product, and the sign of the left factor. -/
structure Side (O P : Operators p bound K) (sign : K) : Prop where
  commute : ∀ x ∈ O.letters, ∀ y ∈ P.letters, Commute x y
  sign_right : ∀ y ∈ P.letters, Commute sign y
  sign_power : ∀ R, Commute sign (O.power R)
  sign_exterior : p.isOdd → ∀ k, sign * O.exterior k = -(O.exterior k * sign)
  sign_mul_sign : sign * sign = 1
  sign_eq_one : p.isOdd = false → sign = 1

namespace Side

variable {O P : Operators p bound K} {sign : K} (h : Side O P sign)

include h

theorem commute_powers (R S : ℕ →₀ ℕ) : Commute (O.power R) (P.power S) :=
  h.commute _ (O.power_mem_letters R) _ (P.power_mem_letters S)

theorem commute_power_exterior (R : ℕ →₀ ℕ) (k : ℕ) : Commute (O.power R) (P.exterior k) :=
  h.commute _ (O.power_mem_letters R) _ (P.exterior_mem_letters k)

theorem commute_exterior_power (k : ℕ) (R : ℕ →₀ ℕ) : Commute (O.exterior k) (P.power R) :=
  h.commute _ (O.exterior_mem_letters k) _ (P.power_mem_letters R)

theorem commute_exteriors (j k : ℕ) : Commute (O.exterior j) (P.exterior k) :=
  h.commute _ (O.exterior_mem_letters j) _ (P.exterior_mem_letters k)

/-- `Q_k` on a product. -/
def exterior (_ : Side O P sign) (k : ℕ) : K := O.exterior k + sign * P.exterior k

/-- `P(R)` on a product. -/
noncomputable def power (_ : Side O P sign) (R : ℕ →₀ ℕ) : K := ∑ x ∈ antidiagonal R, O.power x.1 * P.power x.2

theorem linearCombination_power [SMulCommClass p.Field K K] (f : (ℕ →₀ ℕ) →₀ p.Field) :
    Finsupp.linearCombination p.Field h.power f =
      Finsupp.linearCombination p.Field (fun x : (ℕ →₀ ℕ) × (ℕ →₀ ℕ) => O.power x.1 * P.power x.2) (split p f) := by
  induction f using Finsupp.induction_linear with
  | zero => rw [map_zero, map_zero, map_zero]
  | add f g hf hg => rw [map_add, map_add, map_add, hf, hg]
  | single T c =>
    rw [split, Finsupp.linearCombination_single, Finsupp.linearCombination_single, map_smul, map_sum, power]
    simp only [Finsupp.linearCombination_single, one_smul]

variable [SMulCommClass p.Field K K] [IsScalarTower p.Field K K]

omit h in
theorem linearCombination_mul (f g : (ℕ →₀ ℕ) →₀ p.Field) :
    Finsupp.linearCombination p.Field O.power f * Finsupp.linearCombination p.Field P.power g =
      Finsupp.linearCombination p.Field (fun x : (ℕ →₀ ℕ) × (ℕ →₀ ℕ) => O.power x.1 * P.power x.2)
        (finsuppTensorFinsupp' p.Field _ _ (f ⊗ₜ g)) := by
  induction f using Finsupp.induction_linear with
  | zero => rw [map_zero, zero_mul, zero_tmul, map_zero, map_zero]
  | add f f' hf hf' => rw [map_add, add_mul, add_tmul, map_add, map_add, hf, hf']
  | single T c =>
    induction g using Finsupp.induction_linear with
    | zero => rw [map_zero, mul_zero, tmul_zero, map_zero, map_zero]
    | add g g' hg hg' => rw [map_add, mul_add, tmul_add, map_add, map_add, hg, hg']
    | single U d =>
      rw [finsuppTensorFinsupp'_single_tmul_single, Finsupp.linearCombination_single, Finsupp.linearCombination_single,
        Finsupp.linearCombination_single, smul_mul_assoc, mul_smul_comm, mul_smul]

theorem power_mul (hp : p.val ≤ 2147483648) (R S : ℕ →₀ ℕ) (hlt : step p * (weight p R + weight p S) < bound) :
    h.power R * h.power S = Finsupp.linearCombination p.Field h.power (products p R S) := by
  have hterm : ∀ x ∈ antidiagonal R, ∀ y ∈ antidiagonal S,
      O.power x.1 * P.power x.2 * (O.power y.1 * P.power y.2) =
        Finsupp.linearCombination p.Field (fun x : (ℕ →₀ ℕ) × (ℕ →₀ ℕ) => O.power x.1 * P.power x.2)
          (finsuppTensorFinsupp' p.Field _ _ (products p x.1 y.1 ⊗ₜ products p x.2 y.2)) := by
    intro x hx y hy
    have hR : weight p x.1 + weight p x.2 = weight p R := by rw [← weight_add, mem_antidiagonal.mp hx]
    have hS : weight p y.1 + weight p y.2 = weight p S := by rw [← weight_add, mem_antidiagonal.mp hy]
    have hleft : step p * (weight p x.1 + weight p y.1) < bound :=
      (Nat.mul_le_mul_left _ (by omega)).trans_lt hlt
    have hright : step p * (weight p x.2 + weight p y.2) < bound :=
      (Nat.mul_le_mul_left _ (by omega)).trans_lt hlt
    rw [mul_assoc, ← mul_assoc (P.power x.2), ← (h.commute_powers y.1 x.2).eq, mul_assoc (O.power y.1), ← mul_assoc,
      O.power_mul_eq _ _ hleft, P.power_mul_eq _ _ hright, linearCombination_mul]
  rw [power, power, Finset.sum_mul_sum, h.linearCombination_power,
    Finset.sum_congr rfl fun x hx => Finset.sum_congr rfl fun y hy => hterm x hx y hy]
  simp only [← map_sum]
  congr 1
  ext ⟨T, U⟩
  simp only [map_sum, Finsupp.finsetSum_apply, finsuppTensorFinsupp'_apply_apply, split_apply, products_add hp]

omit [SMulCommClass p.Field K K] [IsScalarTower p.Field K K] in
theorem exterior_mul (hodd : p.isOdd) (j k : ℕ) (hlt : tauDegree p j + tauDegree p k < bound) :
    h.exterior j * h.exterior k = -(h.exterior k * h.exterior j) := by
  have hright : ∀ l, Commute sign (P.exterior l) := fun l => h.sign_right _ (P.exterior_mem_letters l)
  have hmixed : ∀ i l, sign * P.exterior i * O.exterior l = -(O.exterior l * (sign * P.exterior i)) := fun i l => by
    rw [mul_assoc, ← (h.commute_exteriors l i).eq, ← mul_assoc, h.sign_exterior hodd l, neg_mul, mul_assoc]
  have hboth : ∀ i l, sign * P.exterior i * (sign * P.exterior l) = P.exterior i * P.exterior l := fun i l => by
    rw [(hright i).eq, mul_assoc, ← mul_assoc sign, h.sign_mul_sign, one_mul]
  simp only [exterior, add_mul, mul_add, hmixed, hboth]
  rw [O.exterior_mul hodd j k hlt, P.exterior_mul hodd j k hlt]
  abel

omit [SMulCommClass p.Field K K] [IsScalarTower p.Field K K] in
theorem power_mul_exterior (hodd : p.isOdd) (R : ℕ →₀ ℕ) (k : ℕ) (hlt : step p * weight p R + tauDegree p k < bound) :
    h.power R * h.exterior k = h.exterior k * h.power R +
      ∑ i ∈ R.support, if p.val ^ k ≤ R i then h.exterior (k + i + 1) * h.power (R - Finsupp.single i (p.val ^ k)) else 0 := by
  have hpos : 0 < p.val ^ k := Nat.pow_pos p.pos
  have hright : ∀ l, Commute sign (P.exterior l) := fun l => h.sign_right _ (P.exterior_mem_letters l)
  let left : ℕ → (ℕ →₀ ℕ) × (ℕ →₀ ℕ) → K := fun l x => O.exterior l * (O.power x.1 * P.power x.2)
  let right : ℕ → (ℕ →₀ ℕ) × (ℕ →₀ ℕ) → K := fun l x => sign * P.exterior l * (O.power x.1 * P.power x.2)
  -- How a summand passes `Q_k`, on either side.
  have hleft : ∀ x ∈ antidiagonal R, O.power x.1 * P.power x.2 * O.exterior k = left k x +
      ∑ i ∈ R.support, if p.val ^ k ≤ x.1 i then left (k + i + 1) (x.1 - Finsupp.single i (p.val ^ k), x.2) else 0 := by
    intro x hx
    have hle : x.1 ≤ R := mem_antidiagonal.mp hx ▸ le_self_add
    have hweight : weight p x.1 + weight p x.2 = weight p R := by rw [← weight_add, mem_antidiagonal.mp hx]
    have hbound : step p * weight p x.1 + tauDegree p k < bound := by
      have := Nat.mul_le_mul_left (step p) (show weight p x.1 ≤ weight p R by omega)
      omega
    rw [mul_assoc, ← (h.commute_exterior_power k x.2).eq, ← mul_assoc, O.power_mul_exterior hodd _ _ hbound,
      sum_support_of_le hle hpos, add_mul, Finset.sum_mul, mul_assoc]
    refine congrArg _ (Finset.sum_congr rfl fun i _ => ?_)
    rw [ite_mul, zero_mul, mul_assoc]
  have hother : ∀ x ∈ antidiagonal R, O.power x.1 * P.power x.2 * (sign * P.exterior k) = right k x +
      ∑ i ∈ R.support, if p.val ^ k ≤ x.2 i then right (k + i + 1) (x.1, x.2 - Finsupp.single i (p.val ^ k)) else 0 := by
    intro x hx
    have hle : x.2 ≤ R := mem_antidiagonal.mp hx ▸ le_add_self
    have hweight : weight p x.1 + weight p x.2 = weight p R := by rw [← weight_add, mem_antidiagonal.mp hx]
    have hbound : step p * weight p x.2 + tauDegree p k < bound := by
      have := Nat.mul_le_mul_left (step p) (show weight p x.2 ≤ weight p R by omega)
      omega
    have hmove : ∀ l T, O.power x.1 * sign * (P.exterior l * P.power T) = right l (x.1, T) := fun l T => by
      simp only [right]
      rw [← (h.sign_power x.1).eq, mul_assoc, ← mul_assoc (O.power x.1), (h.commute_power_exterior x.1 l).eq]
      simp only [mul_assoc]
    rw [mul_assoc, ← mul_assoc (P.power x.2), ← (h.sign_right _ (P.power_mem_letters x.2)).eq, mul_assoc, ← mul_assoc,
      P.power_mul_exterior hodd _ _ hbound, sum_support_of_le hle hpos, mul_add, hmove, Finset.mul_sum]
    refine congrArg _ (Finset.sum_congr rfl fun i _ => ?_)
    rw [mul_ite, mul_zero, hmove]
  have hexterior : ∀ l T, h.exterior l * h.power T = ∑ x ∈ antidiagonal T, left l x + ∑ x ∈ antidiagonal T, right l x := by
    intro l T
    rw [exterior, power, Finset.mul_sum, ← Finset.sum_add_distrib]
    exact Finset.sum_congr rfl fun x _ => add_mul _ _ _
  have hsplit : ∀ i, (if p.val ^ k ≤ R i then h.exterior (k + i + 1) * h.power (R - Finsupp.single i (p.val ^ k)) else 0) =
      (∑ x ∈ antidiagonal R, if p.val ^ k ≤ x.1 i then left (k + i + 1) (x.1 - Finsupp.single i (p.val ^ k), x.2) else 0) +
        ∑ x ∈ antidiagonal R, if p.val ^ k ≤ x.2 i then right (k + i + 1) (x.1, x.2 - Finsupp.single i (p.val ^ k)) else 0 := by
    intro i
    rw [sum_antidiagonal_left, sum_antidiagonal_right]
    split
    · exact hexterior _ _
    · exact (add_zero 0).symm
  rw [Finset.sum_congr rfl fun i _ => hsplit i, Finset.sum_add_distrib, Finset.sum_comm (s := R.support),
    Finset.sum_comm (s := R.support), hexterior, exterior, power, mul_add, Finset.sum_mul, Finset.sum_mul,
    Finset.sum_congr rfl hleft, Finset.sum_congr rfl hother, Finset.sum_add_distrib, Finset.sum_add_distrib]
  abel

/-- Operators on a product. -/
noncomputable def operators (hp : p.val ≤ 2147483648) : Operators p bound K where
  exterior := h.exterior
  power := h.power
  power_zero := by
    rw [power, Finset.HasAntidiagonal.antidiagonal_zero, Finset.sum_singleton]
    exact (congrArg₂ _ O.power_zero P.power_zero).trans (one_mul 1)
  power_mul R S hlt := by
    rw [h.power_mul hp _ _ hlt, powerSum_eq_products hp, Finsupp.linearCombination_apply]
  exterior_mul hodd j k hlt := h.exterior_mul hodd j k hlt
  power_mul_exterior hodd R k hlt := h.power_mul_exterior hodd R k hlt

end Side
end Operators
end Milnor
end Steenrod
