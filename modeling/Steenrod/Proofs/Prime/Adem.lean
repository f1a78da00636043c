import Steenrod.Proofs.Prime.Coefficients
import Steenrod.Adem
/-!
The sum of binomial coefficients modulo a prime on which the Adem relations rest, and the coefficients of the relations.
Main statement: for `a < pb` the coefficients combine the binomial coefficients of `a + b` to the one at `b`.
-/
namespace Steenrod
namespace Prime

open PowerSeries

variable (p : Prime)

/-- `(1 + z)^r` over the field of the prime. -/
noncomputable def binomials (r : ℤ) : PowerSeries p.Field := binomialSeries p.Field r

theorem binomials_add (r s : ℤ) : p.binomials (r + s) = p.binomials r * p.binomials s := binomialSeries_add r s

theorem binomials_natCast (n : ℕ) : p.binomials n = (1 + X) ^ n := binomialSeries_nat n

theorem coeff_binomials (r : ℤ) (n : ℕ) : coeff n (p.binomials r) = (Ring.choose r n : ℤ) := by
  rw [binomials, binomialSeries_coeff, zsmul_one]

theorem coeff_binomials_natCast (n k : ℕ) : coeff k (p.binomials n) = (n.choose k : p.Field) := by
  rw [coeff_binomials, Ring.choose_natCast]
  norm_cast

/-- A negative exponent gives signs. -/
theorem coeff_binomials_neg {n k : ℕ} {r : ℤ} (h : r = k - 1 - n) :
    coeff k (p.binomials r) = (-1) ^ k * (n.choose k : p.Field) := by
  have hneg : r = -((n : ℤ) + 1 - k) := by omega
  rw [coeff_binomials, hneg, Ring.choose_neg, (by omega : (n : ℤ) + 1 - k + k - 1 = n), Ring.choose_natCast, Units.smul_def,
    Int.coe_negOnePow_natCast, smul_eq_mul]
  push_cast
  rfl

theorem choose_mul_self {m : ℕ} (h : 0 < m) : ((p.val * m).choose m : p.Field) = 0 := by
  obtain ⟨k, rfl⟩ : ∃ k, m = k + 1 := ⟨m - 1, by omega⟩
  obtain ⟨n, hn⟩ : ∃ n, p.val * (k + 1) = n + 1 := ⟨p.val * (k + 1) - 1, by have := Nat.mul_pos p.pos h; omega⟩
  have hchoose := Nat.add_one_mul_choose_eq n k
  rw [← hn, Nat.mul_right_comm] at hchoose
  rw [← Nat.eq_of_mul_eq_mul_right (Nat.succ_pos k) hchoose, Nat.cast_mul, ZMod.natCast_self, zero_mul]

/-- The coefficient of `z^a` in `(1 + z)^(-pb) (1 + z + z^p)^(a + b)`. -/
theorem coeff_binomials_mul (a b : ℕ) :
    coeff a (p.binomials (-(p.val * b : ℕ)) * (1 + X + X ^ p.val) ^ (a + b)) = ((a + b).choose a : p.Field) := by
  have hchar : CharP (PowerSeries p.Field) p.val := charP_of_injective_ringHom (f := C) C_injective p.val
  have hfrobenius : (1 + X + X ^ p.val : PowerSeries p.Field) = X + (1 + X) ^ p.val := by
    rw [add_pow_char, one_pow]
    ring
  have hterm : ∀ k ∈ Finset.range (a + b + 1), coeff a (p.binomials (-(p.val * b : ℕ)) *
      (X ^ k * ((1 + X) ^ p.val) ^ (a + b - k) * ((a + b).choose k : PowerSeries p.Field))) =
      if k = a then ((a + b).choose a : p.Field) else 0 := by
    intro k hk
    have hk := Finset.mem_range.mp hk
    have hcollect : p.binomials (-(p.val * b : ℕ)) * (X ^ k * ((1 + X) ^ p.val) ^ (a + b - k) *
        ((a + b).choose k : PowerSeries p.Field)) =
        X ^ k * (C ((a + b).choose k : p.Field) * p.binomials (p.val * ((a : ℤ) - k))) := by
      have hexponent : (p.val * ((a : ℤ) - k)) = -((p.val * b : ℕ) : ℤ) + (p.val * (a + b - k) : ℕ) := by
        rw [Nat.cast_mul, Nat.cast_mul, Nat.cast_sub (by omega)]
        push_cast
        ring
      rw [hexponent, binomials_add, binomials_natCast, ← pow_mul, map_natCast]
      ring
    rw [hcollect, coeff_X_pow_mul']
    split
    · next hle =>
      obtain ⟨m, rfl⟩ := Nat.exists_eq_add_of_le hle
      rw [coeff_C_mul, (by push_cast; ring : (p.val * (((k + m : ℕ) : ℤ) - k)) = ((p.val * m : ℕ) : ℤ)), Nat.add_sub_cancel_left,
        coeff_binomials_natCast]
      by_cases hm : m = 0
      · subst hm
        simp
      · rw [p.choose_mul_self (by omega), mul_zero, if_neg (by omega)]
    · rw [if_neg (by omega)]
  rw [hfrobenius, add_pow, Finset.mul_sum, map_sum, Finset.sum_congr rfl hterm, Finset.sum_ite_eq',
    if_pos (Finset.mem_range.mpr (by omega))]


theorem neg_one_pow_add_mul (a j : ℕ) : (-1 : p.Field) ^ (a + p.val * j) = (-1) ^ (a + j) := by
  rw [pow_add, pow_mul, neg_one_pow_char p.Field p.val, ← pow_add]

theorem neg_one_pow_add_self (a j : ℕ) : (-1 : p.Field) ^ (a + p.val * j + j) = (-1) ^ a := by
  rw [add_right_comm, neg_one_pow_add_mul, add_assoc, ← two_mul, pow_add, pow_mul, neg_one_sq, one_pow, mul_one]

/-- The sum that the Adem relations rest on. -/
theorem sum_adem {a b : ℕ} (h : a < p.val * b) :
    ∑ j ∈ Finset.range (a / p.val + 1), (-1 : p.Field) ^ (a + j) *
      (((b - j) * (p.val - 1) - 1).choose (a - p.val * j) : p.Field) * ((a + b).choose j : p.Field) =
      ((a + b).choose b : p.Field) := by
  have hp := p.two_le
  let term : ℕ → PowerSeries p.Field := fun j =>
    p.binomials (-(p.val * b : ℕ)) * ((X ^ p.val) ^ j * (1 + X) ^ (a + b - j) * ((a + b).choose j : PowerSeries p.Field))
  have hcollect : ∀ j ≤ a + b, term j =
      X ^ (p.val * j) * (C ((a + b).choose j : p.Field) * p.binomials ((a : ℤ) + b - j - p.val * b)) := by
    intro j hj
    have hexponent : (a : ℤ) + b - j - p.val * b = -((p.val * b : ℕ) : ℤ) + ((a + b - j : ℕ) : ℤ) := by
      rw [Nat.cast_sub hj]
      push_cast
      ring
    simp only [term]
    rw [hexponent, binomials_add, binomials_natCast, map_natCast, pow_mul]
    ring
  have hterm : ∀ j ∈ Finset.range (a / p.val + 1), (-1 : p.Field) ^ (a + j) *
      (((b - j) * (p.val - 1) - 1).choose (a - p.val * j) : p.Field) * ((a + b).choose j : p.Field) =
      coeff a (term j) := by
    intro j hj
    have hle : p.val * j ≤ a := by
      have := Nat.div_mul_le_self a p.val
      have := Nat.mul_le_mul_left p.val (Nat.le_of_lt_succ (Finset.mem_range.mp hj))
      rw [Nat.mul_comm] at this
      linarith
    have hlt : j < b := Nat.lt_of_mul_lt_mul_left (lt_of_le_of_lt hle h)
    have hja : j ≤ a := le_trans (Nat.le_mul_of_pos_left j p.pos) hle
    obtain ⟨k, rfl⟩ := Nat.exists_eq_add_of_le' hle
    obtain ⟨m, rfl⟩ := Nat.exists_eq_add_of_lt hlt
    obtain ⟨q, hq⟩ : ∃ q, p.val = q + 1 := ⟨p.val - 1, by omega⟩
    have hexponent : ((k + p.val * j : ℕ) : ℤ) + (j + m + 1 : ℕ) - j - p.val * (j + m + 1 : ℕ) =
        k - 1 - (((j + m + 1 - j) * (p.val - 1) - 1 : ℕ) : ℤ) := by
      have hpos : 0 < (m + 1) * q := Nat.mul_pos (by omega) (by omega)
      rw [hq, (by omega : j + m + 1 - j = m + 1), Nat.add_sub_cancel, Nat.cast_sub hpos]
      push_cast
      ring
    rw [hcollect j (by omega), coeff_X_pow_mul', if_pos (by omega), coeff_C_mul, Nat.add_sub_cancel, neg_one_pow_add_self,
      p.coeff_binomials_neg hexponent, mul_comm]
  have hbeyond : ∀ j ∈ Finset.range (a + b + 1), j ∉ Finset.range (a / p.val + 1) → coeff a (term j) = 0 := by
    intro j hj hnot
    have hlt : a < p.val * j := by
      have hj' : a / p.val < j := by simpa using hnot
      rw [Nat.mul_comm]
      exact (Nat.div_lt_iff_lt_mul p.pos).mp hj'
    rw [hcollect j (Nat.le_of_lt_succ (Finset.mem_range.mp hj)), coeff_X_pow_mul', if_neg (by omega)]
  have hrange : Finset.range (a / p.val + 1) ⊆ Finset.range (a + b + 1) :=
    Finset.range_subset_range.mpr (by have := Nat.div_le_self a p.val; omega)
  rw [Finset.sum_congr rfl hterm, Finset.sum_subset hrange hbeyond, ← map_sum, ← Finset.mul_sum, ← add_pow,
    (by ring : (X ^ p.val + (1 + X) : PowerSeries p.Field) = 1 + X + X ^ p.val), p.coeff_binomials_mul, Nat.choose_symm_add]

theorem cast_binomial_natCast (n k : ℕ) : (p.binomial n k : p.Field) = (n.choose k : p.Field) := by
  rw [binomial_of_nonneg, cast_mod]

theorem cast_sign_natCast (n : ℕ) : (p.sign n : p.Field) = (-1) ^ n := by
  rw [cast_sign]
  split
  · next h => rw [(Nat.even_iff.mpr (by omega)).neg_one_pow]
  · next h => rw [(Nat.odd_iff.mpr (by omega)).neg_one_pow]

section Coefficients

variable {p} {x y j : ℕ} (hp : p.val < 1073741824) (hx : (x : ℤ) ≤ maxSigned) (hy : (y : ℤ) ≤ maxSigned) (hxj : p.val * j ≤ x)

include hp hx hy hxj

/-- The coefficient of `b^e1 P^(x+y-j) b^e2 P^j`, with its sign in front. -/
theorem cast_ademCoefficient (hj : j ≤ y) {e1 e2 : ℕ} (he : e1 + e2 ≤ 1) : (p.ademCoefficient x y j e1 e2 : p.Field) =
    (-1) ^ (x + j + e2) *
      (p.binomial (((y - j) * (p.val - 1) + e1 : ℕ) - 1) ((x - p.val * j : ℕ) - e2) : p.Field) := by
  have hone : (1 : ℤ) ≤ maxSigned := by decide
  have hsigned : p.signed = p.val := signed32_of_small (by unfold maxSigned; omega)
  have hj' : (j : ℤ) ≤ maxSigned := by omega
  have h1 : (e1 : ℤ) ≤ maxSigned := by omega
  have h2 : (e2 : ℤ) ≤ maxSigned := by omega
  have hupper : ((y : ℤ) - j) * ((p.val : ℤ) - 1) + e1 - 1 = ((y - j) * (p.val - 1) + e1 : ℕ) - 1 := by
    rw [Nat.cast_add, Nat.cast_mul, Nat.cast_sub hj, Nat.cast_sub p.pos, Nat.cast_one]
  have hlower : (x : ℤ) - p.val * j - e2 = (x - p.val * j : ℕ) - e2 := by
    rw [Nat.cast_sub hxj, Nat.cast_mul]
  have hsign : (p.sign (x + j + e2) : p.Field) = (-1) ^ (x + j + e2) := by exact_mod_cast p.cast_sign_natCast (x + j + e2)
  simp only [ademCoefficient, signed32_of_small hx, signed32_of_small hy, signed32_of_small hj', signed32_of_small h1,
    signed32_of_small h2, hsigned, hupper, hlower]
  split
  · next h => rw [h, Nat.cast_zero, mul_zero]
  · rw [cast_product, hsign, mul_comm]

theorem cast_ademCoefficient_zero (hj : j < y) : (p.ademCoefficient x y j 0 0 : p.Field) =
    (-1) ^ (x + j) * (((y - j) * (p.val - 1) - 1).choose (x - p.val * j) : p.Field) := by
  have hpos := Nat.mul_pos (Nat.sub_pos_of_lt hj) (Nat.sub_pos_of_lt p.two_le)
  rw [cast_ademCoefficient hp hx hy hxj hj.le (by omega), ← cast_binomial_natCast]
  simp [Nat.cast_sub hpos]

theorem cast_ademCoefficient_left (hj : j ≤ y) : (p.ademCoefficient x y j 1 0 : p.Field) =
    (-1) ^ (x + j) * (((y - j) * (p.val - 1)).choose (x - p.val * j) : p.Field) := by
  rw [cast_ademCoefficient hp hx hy hxj hj (by omega), ← cast_binomial_natCast]
  simp

theorem cast_ademCoefficient_right (hj : j ≤ y) : (p.ademCoefficient x y j 0 1 : p.Field) =
    if j < y ∧ p.val * j < x then
      -((-1) ^ (x + j) * (((y - j) * (p.val - 1) - 1).choose (x - p.val * j - 1) : p.Field)) else 0 := by
  rw [cast_ademCoefficient hp hx hy hxj hj (by omega)]
  split
  · next h =>
    have hpos := Nat.mul_pos (Nat.sub_pos_of_lt h.1) (Nat.sub_pos_of_lt p.two_le)
    rw [← cast_binomial_natCast, Nat.cast_sub hpos, Nat.cast_sub (by omega : 1 ≤ x - p.val * j)]
    simp [pow_succ]
  · next h =>
    rw [binomial_of_neg, Nat.cast_zero, mul_zero]
    rcases Nat.eq_or_lt_of_le hj with rfl | hlt
    · simp
      omega
    · left
      omega

/-- The two coefficients at an exterior factor add up to the one without it. -/
theorem cast_ademCoefficient_add (hj : j < y) :
    (p.ademCoefficient x y j 1 0 + p.ademCoefficient x y j 0 1 : p.Field) =
      (-1) ^ (x + j) * (((y - j) * (p.val - 1) - 1).choose (x - p.val * j) : p.Field) := by
  have hpos := Nat.mul_pos (Nat.sub_pos_of_lt hj) (Nat.sub_pos_of_lt p.two_le)
  obtain ⟨n, hn⟩ := Nat.exists_eq_add_one.mpr hpos
  rw [cast_ademCoefficient_left hp hx hy hxj hj.le, cast_ademCoefficient_right hp hx hy hxj hj.le, hn, Nat.add_sub_cancel]
  by_cases hk : p.val * j < x
  · obtain ⟨k, hk'⟩ := Nat.exists_eq_add_one.mpr (Nat.sub_pos_of_lt hk)
    rw [if_pos ⟨hj, hk⟩, hk', Nat.add_sub_cancel, Nat.choose_succ_succ]
    push_cast
    ring
  · rw [if_neg (by omega), (by omega : x - p.val * j = 0), Nat.choose_zero_right, Nat.choose_zero_right, add_zero]

end Coefficients

end Prime
end Steenrod
