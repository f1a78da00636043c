import Steenrod.Proofs.Milnor.Operators
import Steenrod.Proofs.Prime.Adem
/-!
The Adem relations for operators that multiply as the elements `Q_k` and `P(R)` do. Main statements: the relations for
`P(x) P(y)` with `x < py` and for `P(x) Q_0 P(y)` with `x ≤ py` hold.
-/
namespace Steenrod
namespace Milnor

variable {p : Prime}

theorem index_single (n : ℕ) : index [n] = Finsupp.single 0 n := by
  rw [index_cons, index_nil]
  simp [raise]

theorem weight_index_single (n : ℕ) : weight p (index [n]) = n := by
  rw [index_single, weight_single]
  simp [placeWeight]

theorem matrices_single (a b : ℕ) : matrices p.val [a] [b] =
    (List.range (min (a / p.val) b + 1)).map fun i => ([b - i], [[a - i * p.val, i]]) := by
  simp [matrices, rows, List.flatMap_assoc, List.map_eq_flatMap]

/-- The terms of `P(a) P(b)` for two numbers. -/
theorem powerSum_single (hp : p.val ≤ 2147483648) (a b : ℕ) : powerSum p (powerProduct p [a] [b]) =
    ∑ i ∈ Finset.range (min (a / p.val) b + 1), Finsupp.single (index [a - p.val * i + (b - i), i])
      ((a - p.val * i + (b - i)).choose (b - i) : p.Field) := by
  rw [powerSum_powerProduct hp, matrices_single, List.map_map, ← List.toFinset_range, List.sum_toFinset _ List.nodup_range]
  congr 1
  refine List.map_congr_left fun i hi => ?_
  have hdiagonals : consEach [b - i] (diagonals [[a - i * p.val, i]]) = [[b - i, a - i * p.val], [i]] := rfl
  rw [Function.comp_apply, ← index_diagonals_cells, hdiagonals, Nat.mul_comm i, Nat.add_comm (a - _)]
  simp [multinomials, multinomial, total]

namespace Operators

variable {bound : ℕ} {K : Type} [Ring K] [Module p.Field K] (O : Operators p bound K)

/-- `P(n)`. -/
noncomputable def single (n : ℕ) : K := O.power (index [n])

theorem single_zero : O.single 0 = 1 := by
  rw [single, index_single, Finsupp.single_zero, O.power_zero]

/-- `P(a) P(b)` for two numbers. -/
theorem single_mul_single (hp : p.val ≤ 2147483648) {a b : ℕ} (h : step p * (a + b) < bound) :
    O.single a * O.single b = ∑ i ∈ Finset.range (min (a / p.val) b + 1),
      ((a - p.val * i + (b - i)).choose (b - i) : p.Field) • O.power (index [a - p.val * i + (b - i), i]) := by
  have hmul := O.power_mul [a] [b] (by rwa [weight_index_single, weight_index_single])
  rw [single, single, hmul, powerSum_single hp, ← Finsupp.linearCombination_apply, map_sum]
  exact Finset.sum_congr rfl fun i _ => Finsupp.linearCombination_single _ _ _

/-- The Adem relation for `P(x) P(y)`. -/
theorem single_adem (hp : p.val ≤ 2147483648) {x y : ℕ} (hxy : x < p.val * y) (h : step p * (x + y) < bound) :
    O.single x * O.single y = ∑ j ∈ Finset.range (x / p.val + 1),
      ((-1) ^ (x + j) * (((y - j) * (p.val - 1) - 1).choose (x - p.val * j) : p.Field)) • (O.single (x + y - j) * O.single j) := by
  have hdiv : x / p.val < y := (Nat.div_lt_iff_lt_mul p.pos).mpr (by rwa [Nat.mul_comm] at hxy)
  have hmul : ∀ j ≤ x / p.val, p.val * j ≤ x := fun j hj => by
    rw [Nat.mul_comm]
    exact (Nat.le_div_iff_mul_le p.pos).mp hj
  let N : ℕ → ℕ := fun i => x + y - (p.val + 1) * i
  let G : ℕ → K := fun i => O.power (index [N i, i])
  let c : ℕ → p.Field := fun j => (-1) ^ (x + j) * (((y - j) * (p.val - 1) - 1).choose (x - p.val * j) : p.Field)
  let f : ℕ → ℕ → K := fun i k => (c (i + k) * ((N i).choose k : p.Field)) • G i
  have hright : ∀ j ∈ Finset.range (x / p.val + 1),
      c j • (O.single (x + y - j) * O.single j) = ∑ i ∈ Finset.range (j + 1), f i (j - i) := by
    intro j hj
    have hj : j ≤ x / p.val := Nat.le_of_lt_succ (Finset.mem_range.mp hj)
    have hle := hmul j hj
    have hmin : min ((x + y - j) / p.val) j = j := min_eq_right ((Nat.le_div_iff_mul_le p.pos).mpr (by rw [Nat.mul_comm]; omega))
    rw [O.single_mul_single hp (by rwa [(by omega : x + y - j + j = x + y)]), hmin, Finset.smul_sum]
    refine Finset.sum_congr rfl fun i hi => ?_
    have hi : i ≤ j := Nat.le_of_lt_succ (Finset.mem_range.mp hi)
    have hpi := Nat.mul_le_mul_left p.val hi
    have hN : x + y - j - p.val * i + (j - i) = N i := by
      simp only [N, Nat.add_mul]
      omega
    simp only [f, G, hN, smul_smul, Nat.add_sub_cancel' hi]
  have hcollect : ∀ i ∈ Finset.range (x / p.val + 1), ∑ k ∈ Finset.range (x / p.val + 1 - i), f i k =
      ((N i).choose (y - i) : p.Field) • G i := by
    intro i hi
    have hi : i ≤ x / p.val := Nat.le_of_lt_succ (Finset.mem_range.mp hi)
    have hle := hmul i hi
    have hlt : x - p.val * i < p.val * (y - i) := by
      rw [Nat.mul_sub]
      omega
    have hN : N i = x - p.val * i + (y - i) := by
      simp only [N, Nat.add_mul]
      omega
    rw [← Finset.sum_smul, hN, ← p.sum_adem hlt, Nat.sub_mul_div, (by omega : x / p.val + 1 - i = x / p.val - i + 1)]
    congr 1
    refine Finset.sum_congr rfl fun k _ => ?_
    have hsign : (-1 : p.Field) ^ (x + (i + k)) = (-1) ^ (x - p.val * i + k) := by
      rw [← p.neg_one_pow_add_self (x - p.val * i + k) i]
      congr 1
      omega
    simp only [c, hsign, Nat.sub_sub, Nat.mul_add]
  rw [O.single_mul_single hp h, min_eq_left hdiv.le, Finset.sum_congr rfl hright, Finset.sum_range_diag_flip,
    Finset.sum_congr rfl hcollect]
  refine Finset.sum_congr rfl fun i hi => ?_
  have hle := hmul i (Nat.le_of_lt_succ (Finset.mem_range.mp hi))
  have hi : i ≤ x / p.val := Nat.le_of_lt_succ (Finset.mem_range.mp hi)
  have hN : x - p.val * i + (y - i) = N i := by
    simp only [N, Nat.add_mul]
    omega
  simp only [G, hN]


/-- `Q_0^e P(n)`. -/
noncomputable def bocksteinPower (e n : ℕ) : K := O.exterior 0 ^ e * O.single n

theorem single_mul_exterior_zero (hodd : p.isOdd) {n : ℕ} (h : step p * n + 1 < bound) :
    O.single n * O.exterior 0 = O.exterior 0 * O.single n + if n = 0 then 0 else O.exterior 1 * O.single (n - 1) := by
  have hdegree : tauDegree p 0 = 1 := by simp [tauDegree]
  have hmul := O.power_mul_exterior hodd (index [n]) 0 (by rwa [weight_index_single, hdegree])
  rw [single, hmul, index_single]
  congr 1
  by_cases hn : n = 0
  · simp [hn]
  · rw [Finsupp.support_single _ hn, Finset.sum_singleton, if_neg hn, Finsupp.single_eq_same,
      if_pos (by rw [pow_zero]; omega), pow_zero, ← Finsupp.single_tsub, single, index_single]

variable [SMulCommClass p.Field K K]

/-- The Adem relation for `P(x) Q_0 P(y)`. -/
theorem single_adem_exterior (hp : p.val < 1073741824) (hodd : p.isOdd) {x y : ℕ} (hx : (x : ℤ) ≤ maxSigned)
    (hy : (y : ℤ) ≤ maxSigned) (hpos : 0 < x) (hxy : x ≤ p.val * y) (h : step p * (x + y) + 1 < bound) :
    O.single x * (O.exterior 0 * O.single y) = ∑ j ∈ Finset.range (x / p.val + 1),
      ((p.ademCoefficient x y j 1 0 : p.Field) • (O.exterior 0 * O.single (x + y - j) * O.single j) +
        (p.ademCoefficient x y j 0 1 : p.Field) • (O.single (x + y - j) * (O.exterior 0 * O.single j))) := by
  have hmul : ∀ j ∈ Finset.range (x / p.val + 1), p.val * j ≤ x ∧ j ≤ y := fun j hj => by
    have hle : p.val * j ≤ x := by
      rw [Nat.mul_comm]
      exact (Nat.le_div_iff_mul_le p.pos).mp (Nat.le_of_lt_succ (Finset.mem_range.mp hj))
    exact ⟨hle, Nat.le_of_mul_le_mul_left (hle.trans hxy) p.pos⟩
  have hzero : ∑ j ∈ Finset.range (x / p.val + 1), (p.ademCoefficient x y j 1 0 + p.ademCoefficient x y j 0 1 : p.Field) •
      (O.single (x + y - j) * O.single j) = O.single x * O.single y := by
    rcases Nat.eq_or_lt_of_le hxy with rfl | hlt
    · rw [Nat.mul_div_cancel_left _ p.pos, Finset.sum_range_succ, Finset.sum_eq_zero, zero_add,
        Prime.cast_ademCoefficient_left hp hx hy le_rfl le_rfl, Prime.cast_ademCoefficient_right hp hx hy le_rfl le_rfl]
      · have hsign := p.neg_one_pow_add_self 0 y
        rw [zero_add, pow_zero] at hsign
        simp [hsign]
      · intro j hj
        have hj := Finset.mem_range.mp hj
        have hlarge : (y - j) * (p.val - 1) - 1 < p.val * y - p.val * j := by
          have hle : (y - j) * (p.val - 1) ≤ p.val * (y - j) := by
            rw [Nat.mul_comm]
            exact Nat.mul_le_mul_right _ (Nat.sub_le _ _)
          have hpos := Nat.mul_pos p.pos (Nat.sub_pos_of_lt hj)
          rw [← Nat.mul_sub]
          omega
        rw [Prime.cast_ademCoefficient_add hp hx hy (Nat.mul_le_mul_left _ hj.le) hj, Nat.choose_eq_zero_of_lt hlarge,
          Nat.cast_zero, mul_zero, zero_smul]
    · rw [O.single_adem (by omega) hlt (by omega)]
      refine Finset.sum_congr rfl fun j hj => ?_
      obtain ⟨hxj, hjy⟩ := hmul j hj
      rw [Prime.cast_ademCoefficient_add hp hx hy hxj (Nat.lt_of_mul_lt_mul_left (lt_of_le_of_lt hxj hlt))]
  have hone : ∑ j ∈ Finset.range (x / p.val + 1), (p.ademCoefficient x y j 0 1 : p.Field) •
      (O.single (x + y - j - 1) * O.single j) = O.single (x - 1) * O.single y := by
    obtain ⟨w, rfl⟩ := Nat.exists_eq_add_one.mpr hpos
    have hdegree := Nat.mul_le_mul_left (step p) (by omega : w + y ≤ w + 1 + y)
    have hrange : Finset.range (w / p.val + 1) ⊆ Finset.range ((w + 1) / p.val + 1) :=
      Finset.range_subset_range.mpr (Nat.succ_le_succ (Nat.div_le_div_right (Nat.le_succ w)))
    rw [Nat.add_sub_cancel, O.single_adem (by omega) hxy (by omega)]
    refine (Finset.sum_subset hrange fun j hj hnot => ?_).symm.trans (Finset.sum_congr rfl fun j hj => ?_)
    · have hlt : w < p.val * j := by
        rw [Nat.mul_comm]
        exact (Nat.div_lt_iff_lt_mul p.pos).mp (by simpa using hnot)
      obtain ⟨hxj, hjy⟩ := hmul j hj
      rw [Prime.cast_ademCoefficient_right hp hx hy hxj hjy, if_neg (by omega), zero_smul]
    · obtain ⟨hxj, hjy⟩ := hmul j (hrange hj)
      have hle : p.val * j ≤ w := by
        rw [Nat.mul_comm]
        exact (Nat.le_div_iff_mul_le p.pos).mp (Nat.le_of_lt_succ (Finset.mem_range.mp hj))
      have hlt : j < y := Nat.lt_of_mul_lt_mul_left (lt_of_le_of_lt hle hxy)
      rw [Prime.cast_ademCoefficient_right hp hx hy hxj hjy, if_pos ⟨hlt, by omega⟩, (by omega : w + 1 + j = w + j + 1), pow_succ,
        mul_neg_one, neg_mul, neg_neg, (by omega : w + 1 - p.val * j - 1 = w - p.val * j),
        (by omega : w + 1 + y - j - 1 = w + y - j)]
  have hterm : ∀ j ∈ Finset.range (x / p.val + 1), O.single (x + y - j) * (O.exterior 0 * O.single j) =
      O.exterior 0 * (O.single (x + y - j) * O.single j) + O.exterior 1 * (O.single (x + y - j - 1) * O.single j) := by
    intro j hj
    obtain ⟨hxj, hjy⟩ := hmul j hj
    have hdegree := Nat.mul_le_mul_left (step p) (Nat.sub_le (x + y) j)
    rw [← mul_assoc, O.single_mul_exterior_zero hodd (by omega), if_neg (by omega), add_mul, mul_assoc, mul_assoc]
  have hdegree := Nat.mul_le_mul_left (step p) (Nat.le_add_right x y)
  calc O.single x * (O.exterior 0 * O.single y)
      = O.exterior 0 * (O.single x * O.single y) + O.exterior 1 * (O.single (x - 1) * O.single y) := by
        rw [← mul_assoc, O.single_mul_exterior_zero hodd (by omega), if_neg (by omega), add_mul, mul_assoc, mul_assoc]
    _ = ∑ j ∈ Finset.range (x / p.val + 1), _ := by
        rw [← hzero, ← hone, Finset.mul_sum, Finset.mul_sum, ← Finset.sum_add_distrib]
        refine Finset.sum_congr rfl fun j hj => ?_
        rw [hterm j hj, mul_smul_comm, mul_smul_comm, add_smul, smul_add, mul_assoc, add_assoc]

end Operators
end Milnor
end Steenrod
