import Steenrod.Proofs.Prime.Words
/-!
Powers and inverses of residues. Main statements: squaring and multiplying answers, in words, with the power of any number to any exponent; every
number that the prime does not divide, reduced or not, has one inverse below the prime, and that is the power by which it is computed.
-/
namespace Steenrod.Prime

variable {p : Prime} {a b k i : ℕ}

section Inverses

theorem inverse_lt (k : ℕ) : p.inverse k < p.val := p.power_lt k _

/-- The exponent of the inverse is one short of the order that Fermat's theorem gives; at the prime 2 it is zero. -/
theorem product_inverse (hk : ¬p.val ∣ k) : p.product k (p.inverse k) = 1 := by
  have hunit : (k : p.Field) ≠ 0 := by rwa [Ne, ZMod.natCast_eq_zero_iff]
  refine p.eq_of_cast_eq (p.product_lt _ _) p.two_le ?_
  rw [cast_product, p.cast_inverse k hunit, Nat.cast_one]
  exact mul_inv_cancel₀ hunit

/-- No number that the prime divides has an inverse. -/
theorem not_dvd_of_product_eq_one (h : p.product k i = 1) : ¬p.val ∣ k := by
  intro hdvd
  rw [product, Nat.mod_eq_zero_of_dvd (Dvd.dvd.mul_right hdvd i)] at h
  exact absurd h (by decide)

theorem eq_inverse (hi : i < p.val) (h : p.product k i = 1) : i = p.inverse k := by
  have hk := not_dvd_of_product_eq_one h
  have hcast : (k : p.Field) * i = k * p.inverse k := by
    rw [← cast_product, ← cast_product, h, product_inverse hk]
  have hunit : (k : p.Field) ≠ 0 := by rwa [Ne, ZMod.natCast_eq_zero_iff]
  exact p.eq_of_cast_eq hi (inverse_lt k) (mul_left_cancel₀ hunit hcast)

/-- The inverse of a number is that of its residue. -/
theorem inverse_mod (k : ℕ) : p.inverse (k % p.val) = p.inverse k := by
  rw [inverse, inverse, power_eq, power_eq, Nat.pow_eq, Nat.pow_eq, ← Nat.pow_mod]

end Inverses

namespace Checked

theorem power_eq_pow (b e : ℕ) : power p b e = some (b ^ e % p.val) := by rw [power_eq, Prime.power_eq, Nat.pow_eq]

/-- The promise of the inverse is broken by the multiples of the prime, and by no other number. -/
theorem inverse_eq_none_iff : inverse p k = none ↔ p.val ∣ k := by
  constructor
  · intro h
    by_contra hk
    rw [inverse_eq hk] at h
    cases h
  · intro hk
    simp only [inverse, Option.bind_eq_bind]
    rw [mod?_of_pos p.pos, Option.bind_some, if_pos (Nat.mod_eq_zero_of_dvd hk)]

/-- Power and inverse, at every prime: the loop on words answers with the power, and a number of a word that is not divisible by the prime, reduced
or not, has an inverse below the prime, which the words suffice to find and to multiply with, and no other. -/
theorem power_and_inverse (b e : ℕ) :
    power p b e = some (b ^ e % p.val) ∧ p.power b e = b ^ e % p.val ∧
    ∀ k ≤ maxWord, ¬p.val ∣ k → ∃ i < p.val, inverse p k = some i ∧ inverse p (k % p.val) = some i ∧ p.inverse k = i ∧
      product p k i = some 1 ∧ p.product k i = 1 ∧ ∀ j < p.val, p.product k j = 1 → j = i := by
  refine ⟨power_eq_pow b e, p.power_eq b e, fun k hword hk => ?_⟩
  have hi : p.inverse k ≤ maxWord := le_maxWord (inverse_lt k).le
  have hreduced : inverse p (k % p.val) = some (p.inverse k) := by
    rw [inverse_eq (mt (Nat.dvd_mod_iff (dvd_refl p.val)).mp hk), inverse_mod]
  have hproduct : product p k (p.inverse k) = some 1 := by rw [product_eq hword hi, product_inverse hk]
  exact ⟨p.inverse k, inverse_lt k, inverse_eq hk, hreduced, rfl, hproduct, product_inverse hk, fun j hj h => eq_inverse hj h⟩

/-- The smallest prime, where the exponent of the inverse is zero, and one with little room for words above it. The number is the largest word. -/
theorem power_and_inverse_largest_word : maxWord ≤ maxWord ∧ ¬two.val ∣ maxWord ∧ ¬large.val ∣ maxWord ∧
    power two 3 5 = some 1 ∧ inverse two maxWord = some 1 ∧ product two maxWord 1 = some 1 ∧
    power large maxWord 3 = some 2444166633 ∧ inverse large maxWord = some 4259844161 ∧ product large maxWord 4259844161 = some 1 := by
  have htwo : ¬two.val ∣ maxWord := by decide
  have hlarge : ¬large.val ∣ maxWord := by decide
  obtain ⟨hpower, _, hinverse⟩ := power_and_inverse (p := two) 3 5
  obtain ⟨i, _, hi, _, _, hproduct, _, honly⟩ := hinverse maxWord (le_refl _) htwo
  obtain rfl := honly 1 (by decide) (by decide)
  obtain ⟨hcube, _, hinverse'⟩ := power_and_inverse (p := large) maxWord 3
  obtain ⟨j, _, hj, _, _, hproduct', _, honly'⟩ := hinverse' maxWord (le_refl _) hlarge
  obtain rfl := honly' 4259844161 (by decide) (by decide)
  exact ⟨le_refl _, htwo, hlarge, hpower, hi, hproduct, hcube, hj, hproduct'⟩

end Checked
end Steenrod.Prime
