import Mathlib
/-!
Products of powers of sums of variables that are all different. Main statement: their coefficients are multinomial
coefficients, the factorials of the exponents over the factorials of what each variable gets.
-/
namespace Steenrod

open MvPolynomial

/-- The product of the factorials of all values. -/
def factorials {σ : Type} (T : σ →₀ ℕ) : ℕ := T.prod fun _ k => k.factorial

theorem factorials_pos {σ : Type} (T : σ →₀ ℕ) : 0 < factorials T :=
  Finset.prod_pos fun _ _ => Nat.factorial_pos _

theorem factorials_add_single {σ : Type} [DecidableEq σ] (T : σ →₀ ℕ) (x : σ) :
    factorials (T + Finsupp.single x 1) = (T x + 1) * factorials T := by
  have herase : ∀ U : σ →₀ ℕ, factorials U = (U x).factorial * factorials (U.erase x) := fun U =>
    (Finsupp.mul_prod_erase' U x _ fun _ => rfl).symm
  have hadd : (T + Finsupp.single x 1).erase x = T.erase x := by
    rw [Finsupp.erase_add, Finsupp.erase_single, add_zero]
  rw [herase (T + _), herase T, hadd, Finsupp.add_apply, Finsupp.single_eq_same, Nat.factorial_succ, mul_assoc]

section Expansion

variable {σ τ : Type} [DecidableEq σ] [DecidableEq τ] {place : σ → τ} {fiber : τ → Finset σ}

theorem mapDomain_eq_sum (hfiber : ∀ x l, x ∈ fiber l ↔ place x = l) (Z : σ →₀ ℕ) (l : τ) :
    Z.mapDomain place l = ∑ x ∈ fiber l, Z x := by
  induction Z using Finsupp.induction_linear with
  | zero => simp
  | add f g hf hg => rw [Finsupp.mapDomain_add, Finsupp.add_apply, hf, hg, ← Finset.sum_add_distrib]; rfl
  | single x k =>
    rw [Finsupp.mapDomain_single, Finsupp.single_apply]
    simp only [Finsupp.single_apply, Finset.sum_ite_eq, hfiber]

omit [DecidableEq σ] in
theorem add_single_of_ne_zero {Z : σ →₀ ℕ} {x : σ} (h : Z x ≠ 0) :
    Z - Finsupp.single x 1 + Finsupp.single x 1 = Z :=
  tsub_add_cancel_of_le (Finsupp.single_le_iff.mpr (Nat.one_le_iff_ne_zero.mpr h))

/-- The product of the powers `T` of sums of different variables. -/
noncomputable def fiberPower (fiber : τ → Finset σ) (T : τ →₀ ℕ) : MvPolynomial σ ℕ :=
  T.prod fun l k => (∑ x ∈ fiber l, X x) ^ k

omit [DecidableEq σ] [DecidableEq τ] in
theorem fiberPower_add_single (fiber : τ → Finset σ) (T : τ →₀ ℕ) (l : τ) :
    fiberPower fiber (T + Finsupp.single l 1) = fiberPower fiber T * ∑ x ∈ fiber l, X x := by
  have hsingle : fiberPower fiber (Finsupp.single l 1) = ∑ x ∈ fiber l, X x := by
    have h : fiberPower fiber (Finsupp.single l 1) = (∑ x ∈ fiber l, X x) ^ 1 := Finsupp.prod_single_index (pow_zero _)
    rw [h, pow_one]
  rw [← hsingle]
  exact Finsupp.prod_add_index' (fun _ => pow_zero _) fun _ => pow_add _

/-- The coefficients of a product of powers of sums of different variables are multinomial coefficients. -/
theorem coeff_fiberPower (hfiber : ∀ x l, x ∈ fiber l ↔ place x = l) (T : τ →₀ ℕ) (Z : σ →₀ ℕ) :
    coeff Z (fiberPower fiber T) * factorials Z = if Z.mapDomain place = T then factorials T else 0 := by
  induction hn : T.degree generalizing T Z with
  | zero =>
    obtain rfl : T = 0 := (Finsupp.degree_eq_zero_iff T).mp hn
    rw [fiberPower, Finsupp.prod_zero_index, coeff_one]
    by_cases hZ : 0 = Z
    · subst hZ
      simp [factorials]
    · rw [if_neg hZ, zero_mul, if_neg]
      intro hzero
      refine hZ (Finsupp.ext fun x => ?_)
      have hsum := mapDomain_eq_sum hfiber Z (place x)
      rw [hzero, Finsupp.zero_apply] at hsum
      exact (Finset.sum_eq_zero_iff.mp hsum.symm x ((hfiber x _).mpr rfl)).symm
  | succ n ih =>
    obtain ⟨l, hl⟩ : ∃ l, T l ≠ 0 := by
      by_contra hne
      have hT : T = 0 := Finsupp.ext fun l => not_not.mp fun h => hne ⟨l, h⟩
      simp [hT] at hn
    obtain ⟨U, rfl⟩ : ∃ U, U + Finsupp.single l 1 = T := ⟨_, add_single_of_ne_zero hl⟩
    have hU : U.degree = n := by
      rw [map_add, Finsupp.degree_single] at hn
      omega
    rw [fiberPower_add_single, Finset.mul_sum, coeff_sum, Finset.sum_mul]
    -- A monomial arises by raising one variable of the fiber.
    have hterm : ∀ x ∈ fiber l, coeff Z (fiberPower fiber U * X x) * factorials Z = Z x * if Z.mapDomain place = U + Finsupp.single l 1 then factorials U else 0 := by
      intro x hx
      rw [coeff_mul_X']
      by_cases hZ : Z x = 0
      · rw [if_neg (Finsupp.notMem_support_iff.mpr hZ), hZ, zero_mul, zero_mul]
      · rw [if_pos (Finsupp.mem_support_iff.mpr hZ)]
        obtain ⟨Y, rfl⟩ : ∃ Y, Y + Finsupp.single x 1 = Z := ⟨_, add_single_of_ne_zero hZ⟩
        rw [add_tsub_cancel_right, factorials_add_single, Finsupp.add_apply, Finsupp.single_eq_same,
          Finsupp.mapDomain_add, Finsupp.mapDomain_single, (hfiber x l).mp hx]
        have hY := ih U Y hU
        rw [mul_left_comm, hY]
        simp only [add_left_inj]
    rw [Finset.sum_congr rfl hterm, ← Finset.sum_mul, ← mapDomain_eq_sum hfiber]
    split
    · next h => rw [h, factorials_add_single, Finsupp.add_apply, Finsupp.single_eq_same]
    · rw [mul_zero]

end Expansion

end Steenrod
