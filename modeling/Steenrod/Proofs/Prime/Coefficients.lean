import Steenrod.Proofs.Prime.Field
import Steenrod.Prime.Binomial
/-!
Binomial and multinomial coefficients modulo a prime. Main statements: what is computed digit by digit is the
coefficient, where a sum of two digits fits a word, and the loops over the digits of words end within as many
passes as the words have bits.
-/
namespace Steenrod

/-- The multinomial coefficient `(Σ l)! / Π l!`. -/
def multinomial : List ℕ → ℕ
  | [] => 1
  | n :: l => (n + total l).choose n * multinomial l

/-- The multinomial coefficient of a list that goes on from a running total `t`. -/
def running : ℕ → List ℕ → ℕ
  | _, [] => 1
  | t, n :: l => (t + n).choose n * running (t + n) l

theorem multinomial_mul_factorials (l : List ℕ) : multinomial l * (l.map Nat.factorial).prod = (total l).factorial := by
  induction l with
  | nil => rfl
  | cons n l ih =>
    have h := Nat.add_choose_mul_factorial_mul_factorial (total l) n
    rw [List.map_cons, List.prod_cons, total_cons, multinomial, Nat.add_comm n, ← h, ← ih]
    ring

theorem running_mul_factorials (t : ℕ) (l : List ℕ) :
    running t l * (t.factorial * (l.map Nat.factorial).prod) = (t + total l).factorial := by
  induction l generalizing t with
  | nil => simp [running]
  | cons n l ih =>
    have h := Nat.add_choose_mul_factorial_mul_factorial t n
    rw [total_cons, ← Nat.add_assoc, ← ih (t + n), ← h, running, List.map_cons, List.prod_cons]
    ring

theorem running_zero (l : List ℕ) : running 0 l = multinomial l := by
  have h := running_mul_factorials 0 l
  rw [Nat.zero_add, ← multinomial_mul_factorials, Nat.factorial_zero, Nat.one_mul] at h
  refine Nat.eq_of_mul_eq_mul_right (List.prod_pos fun x hx => ?_) h
  obtain ⟨n, _, rfl⟩ := List.mem_map.mp hx
  exact Nat.factorial_pos n

namespace Prime

variable (p : Prime)

theorem cast_factorial_ne_zero {k : ℕ} (h : k < p.val) : (k.factorial : p.Field) ≠ 0 := by
  rw [Ne, ZMod.natCast_eq_zero_iff, p.prime.dvd_factorial]
  omega

theorem cast_fold_factorial (k : ℕ) :
    ((Nat.fold k (fun i _ acc => acc * (i + 1) % p.val) 1 : ℕ) : p.Field) = (k.factorial : p.Field) := by
  induction k with
  | zero => simp
  | succ k ih => rw [Nat.fold_succ, cast_mod, Nat.cast_mul, ih, Nat.factorial_succ, Nat.cast_mul, mul_comm]

theorem cast_digitBinomial {n k : ℕ} (hk : k < p.val) : (p.digitBinomial n k : p.Field) = (n.choose k : p.Field) := by
  have habove : ((Nat.fold k (fun i _ acc => acc * (n - i) % p.val) 1 : ℕ) : p.Field) = n.descFactorial k := by
    induction k with
    | zero => simp
    | succ k ih =>
      rw [Nat.fold_succ, cast_mod, Nat.cast_mul, ih (by omega), Nat.descFactorial_succ, Nat.cast_mul, mul_comm]
  have hbelow := p.cast_fold_factorial k
  have hne := p.cast_factorial_ne_zero hk
  rw [digitBinomial, cast_mod, Nat.cast_mul, habove, p.cast_inverse _ (hbelow ▸ hne), hbelow,
    Nat.descFactorial_eq_factorial_mul_choose, Nat.cast_mul, mul_comm _ (n.choose k : p.Field), mul_assoc,
    mul_inv_cancel₀ hne, mul_one]

theorem cast_choose (n k : ℕ) : (n.choose k : p.Field) =
    ((n % p.val).choose (k % p.val) : p.Field) * ((n / p.val).choose (k / p.val) : p.Field) := by
  rw [← Nat.cast_mul, ZMod.natCast_eq_natCast_iff]
  exact Choose.choose_modEq_choose_mod_mul_choose_div_nat

theorem cast_lucas (n k : ℕ) : (p.lucas n k : p.Field) = (n.choose k : p.Field) := by
  induction n, k using Prime.lucas.induct p with
  | case1 n k h =>
    obtain ⟨rfl, rfl⟩ := h
    simp [lucas]
  | case2 n k h hlt =>
    rw [lucas, dif_neg h, if_pos hlt, p.cast_choose n k, Nat.choose_eq_zero_of_lt hlt]
    simp
  | case3 n k h hge ih =>
    rw [lucas, dif_neg h, if_neg hge, cast_product, ih, p.cast_digitBinomial (Nat.mod_lt _ p.pos), ← p.cast_choose]

theorem lucas_lt (n k : ℕ) : p.lucas n k < p.val := by
  have := p.two_le
  unfold lucas
  split
  · omega
  · split
    · omega
    · exact p.product_lt _ _

/-- What is computed is the binomial coefficient modulo the prime. -/
theorem lucas_eq (n k : ℕ) : p.lucas n k = n.choose k % p.val :=
  p.eq_of_cast_eq (p.lucas_lt n k) (Nat.mod_lt _ p.pos) (by rw [cast_lucas, cast_mod])

theorem binomial_of_nonneg (n k : ℕ) : p.binomial n k = n.choose k % p.val := by
  unfold binomial
  split
  · next h => rw [Nat.choose_eq_zero_of_lt (by omega), Nat.zero_mod]
  · rw [Int.toNat_natCast, Int.toNat_natCast, lucas_eq]

theorem binomial_of_neg {n k : ℤ} (h : k < 0 ∨ n < k) : p.binomial n k = 0 := if_pos h

/-- The lowest digits of a multinomial coefficient, where the sum of two digits fits a word. -/
theorem digitMultinomial_eq (hp : p.val ≤ 2147483648) {t : ℕ} (ht : t < p.val) (T : ℕ) (l : List ℕ) :
    ∃ c, p.digitMultinomial t l = some c ∧
      (running (t + p.val * T) l : p.Field) = c * (running T (p.dropDigit l) : p.Field) := by
  induction l generalizing t T with
  | nil => exact ⟨1, rfl, by simp [running, dropDigit]⟩
  | cons n l ih =>
    have hn := Nat.mod_lt n p.pos
    have hdiv := Nat.div_add_mod n p.val
    have hword : ¬maxWord < t + n % p.val := by
      unfold maxWord
      omega
    have hsum : t + p.val * T + n = (t + n % p.val) + p.val * (T + n / p.val) := by
      rw [Nat.mul_add]
      omega
    rw [digitMultinomial, if_neg hword, running, Nat.cast_mul, p.cast_choose (t + p.val * T + n) n, hsum]
    by_cases hcarry : p.val ≤ t + n % p.val
    · -- With a carry the last digit of the sum is less than that of `n`.
      refine ⟨0, if_pos hcarry, ?_⟩
      have hmod : (t + n % p.val + p.val * (T + n / p.val)) % p.val < n % p.val := by
        rw [Nat.add_mul_mod_self_left, Nat.mod_eq_sub_mod hcarry, Nat.mod_eq_of_lt (by omega)]
        omega
      rw [Nat.choose_eq_zero_of_lt hmod]
      simp
    · obtain ⟨c, hc, hrun⟩ := ih (not_le.mp hcarry) (T + n / p.val)
      refine ⟨p.product (p.digitBinomial (t + n % p.val) (n % p.val)) c, ?_, ?_⟩
      · rw [if_neg hcarry, hc, Option.map_some]
      · rw [cast_product, p.cast_digitBinomial hn, hrun, Nat.add_mul_mod_self_left, Nat.mod_eq_of_lt (not_le.mp hcarry),
          Nat.add_mul_div_left _ _ p.pos, Nat.div_eq_of_lt (not_le.mp hcarry), Nat.zero_add]
        have hrun' : running T (p.dropDigit (n :: l)) =
            (T + n / p.val).choose (n / p.val) * running (T + n / p.val) (p.dropDigit l) := rfl
        rw [hrun', Nat.cast_mul]
        ring

theorem total_eq_zero {l : List ℕ} (h : ¬l.any (0 < ·) = true) : ∀ n ∈ l, n = 0 := by
  simpa using h

theorem multinomial_of_zeros {l : List ℕ} (h : ∀ n ∈ l, n = 0) : Steenrod.multinomial l = 1 := by
  induction l with
  | nil => rfl
  | cons n l ih =>
    obtain rfl := h n (by simp)
    rw [Steenrod.multinomial, Nat.choose_zero_right, ih fun m hm => h m (by simp [hm])]

theorem multinomial?_eq (hp : p.val ≤ 2147483648) (l : List ℕ) :
    ∃ c, p.multinomial? l = some c ∧ c < p.val ∧ (c : p.Field) = (Steenrod.multinomial l : p.Field) := by
  induction hn : total l using Nat.strong_induction_on generalizing l with
  | h n ih =>
    have htwo := p.two_le
    by_cases h : l.any (0 < ·) = true
    · obtain ⟨c, hc, hrun⟩ := p.digitMultinomial_eq hp p.pos 0 l
      obtain ⟨e, he, _, hdrop⟩ := ih _ (hn ▸ p.total_dropDigit_lt h) (p.dropDigit l) rfl
      rw [Nat.mul_zero, Nat.add_zero, running_zero, running_zero, ← hdrop] at hrun
      rw [multinomial?, dif_pos h, hc]
      cases c with
      | zero => exact ⟨0, rfl, by omega, by rw [hrun, Nat.cast_zero, zero_mul]⟩
      | succ c =>
        refine ⟨p.product (c + 1) e, ?_, p.product_lt _ _, ?_⟩
        · simp only [he, Option.map_some]
        · rw [cast_product, hrun]
    · refine ⟨1, by rw [multinomial?, dif_neg h], by omega, ?_⟩
      rw [multinomial_of_zeros (total_eq_zero h)]

/-- What is computed is the multinomial coefficient modulo the prime. -/
theorem multinomial_eq (hp : p.val ≤ 2147483648) (l : List ℕ) :
    p.multinomial l = Steenrod.multinomial l % p.val := by
  obtain ⟨c, hc, hlt, hcast⟩ := p.multinomial?_eq hp l
  rw [Prime.multinomial, hc, Option.getD_some]
  exact p.eq_of_cast_eq hlt (Nat.mod_lt _ p.pos) (by rw [hcast, cast_mod])

theorem multinomial_eq_div (l : List ℕ) : Steenrod.multinomial l = (total l).factorial / (l.map Nat.factorial).prod := by
  rw [← multinomial_mul_factorials, Nat.mul_div_cancel]
  refine List.prod_pos fun x hx => ?_
  obtain ⟨n, _, rfl⟩ := List.mem_map.mp hx
  exact Nat.factorial_pos n

section Passes

/-- `lucas`, if its loop ends within a number of passes. -/
def lucasWithin (p : Prime) : (passes n k : ℕ) → Option ℕ
  | 0, n, k => if n = 0 ∧ k = 0 then some 1 else none
  | passes + 1, n, k =>
    if n = 0 ∧ k = 0 then some 1
    else if n % p.val < k % p.val then some 0
    else (lucasWithin p passes (n / p.val) (k / p.val)).map (p.product (p.digitBinomial (n % p.val) (k % p.val)))

def binomialWithin (p : Prime) (passes : ℕ) (n k : ℤ) : Option ℕ :=
  if k < 0 ∨ n < k then some 0 else p.lucasWithin passes n.toNat k.toNat

/-- `multinomial?`, if its loop ends within a number of passes. -/
def multinomialWithin (p : Prime) : (passes : ℕ) → List ℕ → Option (Option ℕ)
  | 0, l => if l.any (0 < ·) = true then none else some (some 1)
  | passes + 1, l =>
    if l.any (0 < ·) = true then
      match p.digitMultinomial 0 l with
      | none => some none
      | some 0 => some (some 0)
      | some c => (multinomialWithin p passes (p.dropDigit l)).map (Option.map (p.product c))
    else some (some 1)

variable {p} {passes : ℕ}

/-- A pass at least halves what is left of a number. -/
theorem div_lt_two_pow {n : ℕ} (h : n < 2 ^ (passes + 1)) : n / p.val < 2 ^ passes := by
  refine Nat.div_lt_of_lt_mul (lt_of_lt_of_le h ?_)
  rw [pow_succ, mul_comm]
  exact Nat.mul_le_mul_right _ p.two_le

theorem lucasWithin_eq {n k : ℕ} (hn : n < 2 ^ passes) (hk : k < 2 ^ passes) : p.lucasWithin passes n k = some (p.lucas n k) := by
  induction passes generalizing n k with
  | zero =>
    have hzero : n = 0 ∧ k = 0 := by omega
    rw [lucasWithin, lucas, if_pos hzero, dif_pos hzero]
  | succ passes ih =>
    rw [lucasWithin, lucas]
    split
    · rfl
    · split
      · rfl
      · rw [ih (div_lt_two_pow hn) (div_lt_two_pow hk), Option.map_some]

theorem binomialWithin_eq {n k : ℤ} (hn : n < 2 ^ passes) (hk : k < 2 ^ passes) : p.binomialWithin passes n k = some (p.binomial n k) := by
  have htwo : ((2 ^ passes : ℕ) : ℤ) = 2 ^ passes := by push_cast; rfl
  rw [binomialWithin, binomial]
  split
  · rfl
  · exact lucasWithin_eq (by omega) (by omega)

theorem multinomialWithin_eq {l : List ℕ} (hl : ∀ n ∈ l, n < 2 ^ passes) : p.multinomialWithin passes l = some (p.multinomial? l) := by
  induction passes generalizing l with
  | zero =>
    have hzeros : ¬l.any (0 < ·) = true := by
      have hzero : ∀ n ∈ l, n = 0 := fun n hn => by simpa using hl n hn
      simpa using hzero
    rw [multinomialWithin, multinomial?, if_neg hzeros, dif_neg hzeros]
  | succ passes ih =>
    rw [multinomialWithin, multinomial?]
    split
    · have hrest : ∀ n ∈ p.dropDigit l, n < 2 ^ passes := fun m hm => by
        obtain ⟨n, hn, rfl⟩ := List.mem_map.mp hm
        exact div_lt_two_pow (hl n hn)
      cases p.digitMultinomial 0 l with
      | none => rfl
      | some c =>
        cases c with
        | zero => rfl
        | succ c =>
          simp only
          rw [ih hrest, Option.map_some]
    · rfl

end Passes

/-- Binomial coefficients of signed words are right for all primes and multinomial coefficients of words for all signed primes, and the loops
over the digits end within as many passes as the numbers have bits. -/
theorem binomial_multinomial_eq {n k : ℤ} {l : List ℕ} (hn : isSigned n = true) (hk : isSigned k = true) (hl : ∀ m ∈ l, m ≤ maxWord) :
    p.binomialWithin 31 n k = some (p.binomial n k) ∧
    p.binomial n k = (if 0 ≤ k ∧ k ≤ n then n.toNat.choose k.toNat % p.val else 0) ∧
    p.multinomialWithin 32 l = some (p.multinomial? l) ∧
    (p.val < 2 ^ 31 → p.multinomial? l = some ((total l).factorial / (l.map Nat.factorial).prod % p.val)) := by
  have hsigned : ∀ m : ℤ, isSigned m = true → m < 2 ^ 31 := fun m hm => by
    rw [isSigned, Bool.and_eq_true, decide_eq_true_eq, decide_eq_true_eq, maxSigned] at hm
    omega
  have hwords : ∀ m ∈ l, m < 2 ^ 32 := fun m hm => lt_of_le_of_lt (hl m hm) (by decide)
  refine ⟨binomialWithin_eq (hsigned n hn) (hsigned k hk), ?_, multinomialWithin_eq hwords, fun hp => ?_⟩
  · split
    · next hrange =>
      obtain ⟨i, rfl⟩ := Int.eq_ofNat_of_zero_le hrange.1
      obtain ⟨m, rfl⟩ := Int.eq_ofNat_of_zero_le (hrange.1.trans hrange.2)
      exact p.binomial_of_nonneg m i
    · next hrange => exact p.binomial_of_neg (by omega)
  · obtain ⟨c, hc, hlt, hcast⟩ := p.multinomial?_eq hp.le l
    rw [hc, ← multinomial_eq_div, p.eq_of_cast_eq hlt (Nat.mod_lt _ p.pos) (by rw [hcast, cast_mod])]

/-- The coefficients `35` and `105` are odd. -/
theorem binomial_multinomial_eq_two : isSigned 7 = true ∧ isSigned 3 = true ∧ (∀ m ∈ [4, 2, 1], m ≤ maxWord) ∧ two.val < 2 ^ 31 ∧
    two.binomial 7 3 = 1 ∧ two.multinomial? [4, 2, 1] = some 1 := by
  have hn : isSigned 7 = true := by decide
  have hk : isSigned 3 = true := by decide
  have hl : ∀ m ∈ [4, 2, 1], m ≤ maxWord := by decide
  have hp : two.val < 2 ^ 31 := by decide
  obtain ⟨_, hbinomial, _, hmultinomial⟩ := two.binomial_multinomial_eq hn hk hl
  exact ⟨hn, hk, hl, hp, hbinomial, hmultinomial hp⟩

end Prime
end Steenrod
