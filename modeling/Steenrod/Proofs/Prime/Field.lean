import Mathlib
import Steenrod.Prime
/-!
The field of a prime. Trial division finds primes only, so the residues form a field, and the operations on
numbers are those of the field on their classes.
-/
namespace Steenrod

theorem trialDivision_sound {n d fuel : ℕ} (h : trialDivision n d fuel = some true) :
    ∀ m, d ≤ m → m * m ≤ n → ¬m ∣ n := by
  induction fuel generalizing d with
  | zero => simp [trialDivision] at h
  | succ fuel ih =>
    intro m hdm hmn hdvd
    unfold trialDivision at h
    split at h
    · have := Nat.mul_le_mul hdm hdm
      omega
    · split at h
      · simp at h
      · next hnd =>
        rcases Nat.eq_or_lt_of_le hdm with rfl | hlt
        · exact hnd (Nat.mod_eq_zero_of_dvd hdvd)
        · exact ih h m hlt hmn hdvd

namespace Prime

variable (p : Prime)

theorem prime : Nat.Prime p.val := by
  have h := p.isPrime
  have htwo := p.two_le
  unfold isPrime? at h
  rw [if_neg (by omega)] at h
  rw [Nat.prime_def_le_sqrt]
  refine ⟨htwo, fun m hm hsqrt => ?_⟩
  exact trialDivision_sound h m hm (Nat.le_sqrt.mp hsqrt)

instance factPrime : Fact (Nat.Prime p.val) := ⟨p.prime⟩

/-- The field with `p` elements. -/
abbrev Field : Type := ZMod p.val

/-! What every composition of linear maps over the field looks for, under names of its own. -/

instance idComp : RingHomCompTriple (RingHom.id p.Field) (RingHom.id p.Field) (RingHom.id p.Field) := RingHomCompTriple.ids

instance idSurjective : RingHomSurjective (RingHom.id p.Field) := RingHomSurjective.ids

instance idInverse : RingHomInvPair (RingHom.id p.Field) (RingHom.id p.Field) := RingHomInvPair.ids

instance smulComm : SMulCommClass p.Field p.Field (ℕ → p.Field) := Function.smulCommClass

theorem le_signedWords {p : Prime} (hp : p.val < 1073741824) : p.val ≤ 2147483648 := by omega

theorem cast_eq_zero_iff {a : ℕ} (h : a < p.val) : (a : p.Field) = 0 ↔ a = 0 := by
  rw [ZMod.natCast_eq_zero_iff]
  exact ⟨fun hd => Nat.eq_zero_of_dvd_of_lt hd h, fun ha => ha ▸ dvd_zero _⟩

theorem eq_of_cast_eq {a b : ℕ} (ha : a < p.val) (hb : b < p.val) (h : (a : p.Field) = b) : a = b := by
  rw [ZMod.natCast_eq_natCast_iff'] at h
  rwa [Nat.mod_eq_of_lt ha, Nat.mod_eq_of_lt hb] at h

@[simp] theorem cast_mod (a : ℕ) : ((a % p.val : ℕ) : p.Field) = a := ZMod.natCast_mod a p.val

@[simp] theorem cast_sum (a b : ℕ) : (p.sum a b : p.Field) = a + b := by simp [sum]

@[simp] theorem cast_product (a b : ℕ) : (p.product a b : p.Field) = a * b := by simp [product]

@[simp] theorem cast_negate (a : ℕ) : (p.negate a : p.Field) = -a := by
  have h := congrArg (Nat.cast : ℕ → p.Field) (p.sum_negate a)
  rw [cast_sum, Nat.cast_zero] at h
  exact (neg_eq_of_add_eq_zero_right h).symm

@[simp] theorem cast_power (b e : ℕ) : (p.power b e : p.Field) = (b : p.Field) ^ e := by
  rw [power_eq, cast_mod, Nat.pow_eq, Nat.cast_pow]

theorem cast_inverse (a : ℕ) (h : (a : p.Field) ≠ 0) : (p.inverse a : p.Field) = (a : p.Field)⁻¹ := by
  have htwo := p.two_le
  rw [inverse, cast_power]
  refine eq_inv_of_mul_eq_one_left ?_
  rw [← pow_succ, (by omega : p.val - 2 + 1 = p.val - 1)]
  exact ZMod.pow_card_sub_one_eq_one h

theorem cast_sign (n : ℤ) : (p.sign n : p.Field) = if n % 2 = 0 then 1 else -1 := by
  have hpos := p.pos
  unfold sign
  split
  · simp
  · rw [Nat.cast_sub hpos]
    simp

theorem cast_sign_add (m n : ℤ) : (p.sign (m + n) : p.Field) = p.sign m * p.sign n := by
  rw [cast_sign, cast_sign, cast_sign]
  rcases Int.emod_two_eq_zero_or_one m with hm | hm <;> rcases Int.emod_two_eq_zero_or_one n with hn | hn <;>
    simp [Int.add_emod, hm, hn]

theorem cast_sign_natCast_mul (n : ℕ) (m : ℤ) : (p.sign (n * m) : p.Field) = (p.sign m : p.Field) ^ n := by
  induction n with
  | zero => simp [sign]
  | succ n ih => rw [Nat.cast_succ, add_one_mul, cast_sign_add, ih, pow_succ]

theorem cast_sign_mul_self (n : ℤ) : (p.sign n * p.sign n : p.Field) = 1 := by
  rw [cast_sign]
  split <;> simp

end Prime
end Steenrod
