import Steenrod.Proofs.Prime.Coefficients
import Steenrod.Proofs.Prime.Recognition
/-!
The arithmetic of residues in machine words. Every operation is carried out once more, one step of the machine after the other, without an
answer where a sum, a product or a difference leaves the words, where a divisor is zero or where a promise is broken. Main statements: the
operations on words answer with the residue, and in every word of the way; but the running total of the digits of a multinomial coefficient
leaves the words at primes above the 31st power of 2, exactly for the lists that are described.
-/
namespace Steenrod

/-- The largest word of 64 bits. -/
def maxLong : ℕ := 18446744073709551615

/-- The result of a sum or a product, if it is at most the largest word. -/
def fit (largest n : ℕ) : Option ℕ := if n ≤ largest then some n else none

def minus? (a b : ℕ) : Option ℕ := if b ≤ a then some (a - b) else none

def mod? (a b : ℕ) : Option ℕ := if b = 0 then none else some (a % b)

theorem fit_of_le {largest n : ℕ} (h : n ≤ largest) : fit largest n = some n := if_pos h

theorem minus?_of_le {a b : ℕ} (h : b ≤ a) : minus? a b = some (a - b) := if_pos h

theorem mod?_of_pos {a b : ℕ} (h : 0 < b) : mod? a b = some (a % b) := if_neg h.ne'

theorem mul_le_maxLong {a b : ℕ} (ha : a ≤ maxWord) (hb : b ≤ maxWord) : a * b ≤ maxLong :=
  le_trans (Nat.mul_le_mul ha hb) (by decide)

namespace Prime

theorem val_lt (p : Prime) : p.val < 65535 ^ 2 := by
  have h := p.isPrime
  rw [isPrime?, if_neg (by have := p.two_le; omega)] at h
  exact lt_of_trialDivision h

theorem le_maxWord {p : Prime} {n : ℕ} (h : n ≤ p.val) : n ≤ maxWord := by
  have := p.val_lt
  unfold maxWord
  omega

section Residues

variable {p : Prime} {n k t : ℕ}

theorem product_le (a b : ℕ) : p.product a b ≤ maxWord := le_maxWord (p.product_lt a b).le

theorem fold_lt (f : ℕ → ℕ) (k : ℕ) : Nat.fold k (fun i _ acc => acc * f i % p.val) 1 < p.val := by
  cases k with
  | zero => exact p.two_le
  | succ k =>
    rw [Nat.fold_succ]
    exact Nat.mod_lt _ p.pos

theorem digitBinomial_lt (n k : ℕ) : p.digitBinomial n k < p.val := Nat.mod_lt _ p.pos

theorem product_assoc (a b c : ℕ) : p.product (p.product a b) c = p.product a (p.product b c) := by
  rw [product, product, product, product, Nat.mod_mul_mod, Nat.mul_mod_mod, mul_assoc]

theorem product_one (h : n < p.val) : p.product n 1 = n := by
  rw [product, mul_one, Nat.mod_eq_of_lt h]

theorem one_product (h : n < p.val) : p.product 1 n = n := by
  rw [product, one_mul, Nat.mod_eq_of_lt h]

theorem product_zero (n : ℕ) : p.product n 0 = 0 := by
  rw [product, mul_zero, Nat.zero_mod]

/-- A coefficient of digits without a carry is not zero. -/
theorem digitBinomial_ne_zero (hn : n < p.val) (hk : k ≤ n) : p.digitBinomial n k ≠ 0 := by
  intro h
  have hzero : (n.choose k : p.Field) = 0 := by rw [← p.cast_digitBinomial (lt_of_le_of_lt hk hn), h, Nat.cast_zero]
  refine p.cast_factorial_ne_zero hn ?_
  rw [← Nat.choose_mul_factorial_mul_factorial hk, Nat.cast_mul, Nat.cast_mul, hzero, zero_mul, zero_mul]

theorem product_ne_zero {a b : ℕ} (ha : a < p.val) (hb : b < p.val) (ha₀ : a ≠ 0) (hb₀ : b ≠ 0) : p.product a b ≠ 0 := by
  intro h
  rw [← p.cast_eq_zero_iff (p.product_lt a b), cast_product, mul_eq_zero, p.cast_eq_zero_iff ha, p.cast_eq_zero_iff hb] at h
  exact h.elim ha₀ hb₀

theorem digitMultinomial_lt {l : List ℕ} {c : ℕ} (h : p.digitMultinomial t l = some c) : c < p.val := by
  cases l with
  | nil =>
    obtain rfl := Option.some.inj h
    exact p.two_le
  | cons n l =>
    rw [digitMultinomial] at h
    split at h
    · cases h
    · split at h
      · obtain rfl := Option.some.inj h
        exact p.pos
      · obtain ⟨e, _, rfl⟩ := Option.map_eq_some_iff.mp h
        exact p.product_lt _ _

theorem binomial_lt (n k : ℤ) : p.binomial n k < p.val := by
  rw [binomial]
  split
  · exact p.pos
  · exact p.lucas_lt _ _

theorem multinomial?_lt {l : List ℕ} {c : ℕ} (h : p.multinomial? l = some c) : c < p.val := by
  rw [multinomial?] at h
  split at h
  · split at h
    · cases h
    · obtain rfl := Option.some.inj h
      exact p.pos
    · obtain ⟨e, _, rfl⟩ := Option.map_eq_some_iff.mp h
      exact p.product_lt _ _
  · obtain rfl := Option.some.inj h
    exact p.two_le

end Residues

section Overflow

variable {p : Prime} {t : ℕ} {l : List ℕ}

/-- The running total of the lowest digits leaves the words before any total has reached the prime. -/
def Overflows (p : Prime) (t : ℕ) (l : List ℕ) : Prop :=
  ∃ before n after, l = before ++ n :: after ∧ t + total (before.map (· % p.val)) < p.val ∧
    maxWord < t + total (before.map (· % p.val)) + n % p.val

theorem digitMultinomial_eq_none_iff (ht : t < p.val) : p.digitMultinomial t l = none ↔ Overflows p t l := by
  induction l generalizing t with
  | nil => simp [digitMultinomial, Overflows]
  | cons n l ih =>
    rw [digitMultinomial]
    constructor
    · intro h
      split at h
      · next hword => exact ⟨[], n, l, rfl, by simpa using ht, by simpa using hword⟩
      · split at h
        · cases h
        · next hcarry =>
          obtain ⟨before, m, after, rfl, hlt, hgt⟩ := (ih (not_le.mp hcarry)).mp (Option.map_eq_none_iff.mp h)
          refine ⟨n :: before, m, after, rfl, ?_, ?_⟩
          · simpa [Nat.add_assoc] using hlt
          · simpa [Nat.add_assoc] using hgt
    · rintro ⟨before, m, after, heq, hlt, hgt⟩
      cases before with
      | nil =>
        obtain ⟨rfl, rfl⟩ := List.cons.inj heq
        exact if_pos (by simpa using hgt)
      | cons b before =>
        obtain ⟨rfl, rfl⟩ := List.cons.inj heq
        rw [List.map_cons, total_cons, ← Nat.add_assoc] at hlt hgt
        have hsum : t + n % p.val < p.val := by omega
        rw [if_neg (by have := le_maxWord hsum.le; omega), if_neg (not_le.mpr hsum), Option.map_eq_none_iff]
        exact (ih hsum).mpr ⟨before, m, after, rfl, hlt, hgt⟩

theorem not_overflows (hl : ∀ n ∈ l, p.val + n ≤ maxWord + 1) : ¬Overflows p t l := by
  rintro ⟨before, n, after, rfl, hlt, hgt⟩
  have hn := hl n (by simp)
  have := Nat.mod_le n p.val
  omega

/-- Where the prime and any number of the list fit a word together, no total leaves the words, whatever the digit. -/
theorem multinomial?_ne_none (hl : ∀ n ∈ l, p.val + n ≤ maxWord + 1) : p.multinomial? l ≠ none := by
  induction hs : total l using Nat.strong_induction_on generalizing l with
  | h s ih =>
    rw [multinomial?]
    split
    · next hany =>
      have hdigit : p.digitMultinomial 0 l ≠ none := fun h => not_overflows hl ((digitMultinomial_eq_none_iff p.pos).mp h)
      have hrest : p.multinomial? (p.dropDigit l) ≠ none := by
        refine ih _ (hs ▸ p.total_dropDigit_lt hany) (fun m hm => ?_) rfl
        obtain ⟨n, hn, rfl⟩ := List.mem_map.mp hm
        have := hl n hn
        have := Nat.div_le_self n p.val
        omega
      split
      · next h => exact absurd h hdigit
      · exact Option.some_ne_none 0
      · exact fun h => hrest (Option.map_eq_none_iff.mp h)
    · exact Option.some_ne_none 1

/-- Beyond its lowest digit a word leaves room for the prime. -/
theorem add_div_le {n : ℕ} (hn : n ≤ maxWord) : p.val + n / p.val ≤ maxWord + 1 := by
  unfold maxWord at *
  have hlt := p.val_lt
  by_cases hp : p.val ≤ 2 ^ 31
  · have hhalf : n / p.val ≤ n / 2 := Nat.div_le_div_left p.two_le (by decide)
    omega
  · have hquotient : n / p.val < 2 := Nat.div_lt_of_lt_mul (by omega)
    omega

/-- A multinomial coefficient of words has no answer if and only if the total of the lowest digits overflows. -/
theorem multinomial?_eq_none_iff (hl : ∀ n ∈ l, n ≤ maxWord) : p.multinomial? l = none ↔ Overflows p 0 l := by
  -- Only the first pass can overflow: the later digits are of quotients by the prime.
  have hrest : p.multinomial? (p.dropDigit l) ≠ none := by
    refine multinomial?_ne_none fun m hm => ?_
    obtain ⟨n, hn, rfl⟩ := List.mem_map.mp hm
    exact add_div_le (hl n hn)
  rw [← digitMultinomial_eq_none_iff p.pos, multinomial?]
  split
  · split
    · next h => exact ⟨fun _ => h, fun _ => rfl⟩
    · next h => simp [h]
    · next h => simp [h, hrest]
  · next hany =>
    have hzeros := total_eq_zero hany
    have hdigit : p.digitMultinomial 0 l ≠ none := by
      refine fun h => not_overflows (fun n hn => ?_) ((digitMultinomial_eq_none_iff p.pos).mp h)
      have := le_maxWord (le_refl p.val)
      rw [hzeros n hn]
      omega
    simp [hdigit]

theorem Overflows.two_pow_lt (h : Overflows p t l) : 2 ^ 31 < p.val := by
  obtain ⟨before, n, _, _, hlt, hgt⟩ := h
  have := Nat.mod_lt n p.pos
  unfold maxWord at hgt
  omega

end Overflow

namespace Checked

variable (p : Prime)

section Operations

/-- The residue of a sum or a product of 64 bits. -/
def residue (m : ℕ) : Option ℕ := do
  let m ← fit maxLong m
  mod? m p.val

def sum (a b : ℕ) : Option ℕ := do
  let r ← residue p (a + b)
  fit maxWord r

def product (a b : ℕ) : Option ℕ := do
  let r ← residue p (a * b)
  fit maxWord r

def negate (a : ℕ) : Option ℕ := do
  let r ← mod? a p.val
  let d ← minus? p.val r
  mod? d p.val

/-- Squaring, with what has been multiplied so far. -/
def powerLoop (result b e : ℕ) : Option ℕ :=
  if _h : e = 0 then mod? result p.val
  else do
    let result ← if e % 2 = 1 then product p result b else some result
    let b ← product p b b
    powerLoop result b (e / 2)
  termination_by e

def power (b e : ℕ) : Option ℕ := do
  let b ← mod? b p.val
  powerLoop p 1 b e

/-- The number must not be divisible by the prime. -/
def inverse (k : ℕ) : Option ℕ := do
  let r ← mod? k p.val
  if r = 0 then none
  else do
    let e ← minus? p.val 2
    power p k e

def sign (n : ℤ) : Option ℕ := if n % 2 = 0 then some 1 else minus? p.val 1

/-- One more factor above and below the line of a binomial coefficient. -/
def fractionStep (n : ℕ) (x : ℕ × ℕ) (i : ℕ) : Option (ℕ × ℕ) := do
  let factor ← minus? n i
  let above ← residue p (x.1 * factor)
  let divisor ← fit maxLong (i + 1)
  let below ← residue p (x.2 * divisor)
  some (above, below)

/-- The digits must be in order and less than the prime. -/
def digitBinomial (n k : ℕ) : Option ℕ :=
  if p.val ≤ n ∨ n < k then none
  else do
    let x ← (List.range k).foldlM (fractionStep p n) (1, 1)
    let below ← fit maxWord x.2
    let below ← inverse p below
    let r ← residue p (x.1 * below)
    fit maxWord r

/-- The digits of a binomial coefficient, with the product of the lower ones. -/
def binomialLoop (result n k : ℕ) : Option ℕ :=
  if _h : n = 0 ∧ k = 0 then some result
  else do
    let nd ← mod? n p.val
    let kd ← mod? k p.val
    if nd < kd then some 0
    else do
      let c ← digitBinomial p nd kd
      let result ← product p result c
      binomialLoop result (n / p.val) (k / p.val)
  termination_by n + k
  decreasing_by exact p.div_add_div_lt _h

def binomial (n k : ℤ) : Option ℕ :=
  if k < 0 ∨ n < k then some 0 else binomialLoop p 1 (unsigned32 n) (unsigned32 k)

/-- One digit of a multinomial coefficient, with the running total of the digits and the product so far. It has ended with zero where the
answer is `some none`. -/
def digitPass : (total result : ℕ) → List ℕ → Option (Option ℕ)
  | _, result, [] => some (some result)
  | total, result, n :: ns => do
    let digit ← mod? n p.val
    let total ← fit maxWord (total + digit)
    if p.val ≤ total then some none
    else do
      let c ← digitBinomial p total digit
      let result ← product p result c
      digitPass total result ns

def multinomialLoop (result : ℕ) (l : List ℕ) : Option ℕ :=
  if _h : l.any (0 < ·) = true then
    match digitPass p 0 result l with
    | none => none
    | some none => some 0
    | some (some result) => multinomialLoop result (p.dropDigit l)
  else some result
  termination_by total l
  decreasing_by exact p.total_dropDigit_lt _h

def multinomial (l : List ℕ) : Option ℕ := multinomialLoop p 1 l

end Operations

section Values

variable {p} {a b e n k result : ℕ}

theorem residue_eq {m : ℕ} (hm : m ≤ maxLong) : residue p m = some (m % p.val) := by
  rw [residue, fit_of_le hm]
  exact mod?_of_pos p.pos

theorem fit_residue (m : ℕ) : fit maxWord (m % p.val) = some (m % p.val) := fit_of_le (le_maxWord (Nat.mod_lt m p.pos).le)

theorem sum_eq (ha : a ≤ maxWord) (hb : b ≤ maxWord) : sum p a b = some (p.sum a b) := by
  rw [sum, residue_eq (le_trans (Nat.add_le_add ha hb) (by decide))]
  exact fit_residue (a + b)

theorem product_eq (ha : a ≤ maxWord) (hb : b ≤ maxWord) : product p a b = some (p.product a b) := by
  rw [product, residue_eq (mul_le_maxLong ha hb)]
  exact fit_residue (a * b)

theorem negate_eq (a : ℕ) : negate p a = some (p.negate a) := by
  simp only [negate, Option.bind_eq_bind]
  rw [mod?_of_pos p.pos, Option.bind_some, minus?_of_le (Nat.mod_lt a p.pos).le, Option.bind_some, mod?_of_pos p.pos]
  rfl

/-- The loop multiplies what it has by the power that is left. -/
theorem powerLoop_eq (hresult : result ≤ maxWord) (hb : b ≤ maxWord) : powerLoop p result b e = some (result * b ^ e % p.val) := by
  induction e using Nat.strong_induction_on generalizing result b with
  | h e ih =>
    rw [powerLoop]
    split
    · next he => rw [he, pow_zero, mul_one, mod?_of_pos p.pos]
    · next he =>
      have hsquare : ∀ r, r * p.product b b ^ (e / 2) % p.val = r * b ^ (2 * (e / 2)) % p.val := fun r => by
        rw [Prime.product, Nat.mul_mod, ← Nat.pow_mod, ← Nat.mul_mod, ← pow_two, ← pow_mul]
      simp only [Option.bind_eq_bind]
      rw [product_eq hb hb, Option.bind_some]
      split
      · next hodd =>
        rw [product_eq hresult hb, Option.bind_some, Option.bind_some, ih (e / 2) (by omega) (product_le _ _) (product_le _ _), hsquare, Prime.product,
          Nat.mod_mul_mod, mul_assoc, ← pow_succ', (by omega : 2 * (e / 2) + 1 = e)]
      · next heven =>
        rw [Option.bind_some, ih (e / 2) (by omega) hresult (product_le _ _), hsquare, (by omega : 2 * (e / 2) = e)]

theorem power_eq (b e : ℕ) : power p b e = some (p.power b e) := by
  simp only [power, Option.bind_eq_bind]
  rw [mod?_of_pos p.pos, Option.bind_some, powerLoop_eq (by decide) (le_maxWord (Nat.mod_lt b p.pos).le), one_mul, ← Nat.pow_mod,
    Prime.power_eq]
  rfl

theorem inverse_eq (hk : ¬p.val ∣ k) : inverse p k = some (p.inverse k) := by
  simp only [inverse, Option.bind_eq_bind]
  rw [mod?_of_pos p.pos, Option.bind_some, if_neg fun h => hk (Nat.dvd_of_mod_eq_zero h), minus?_of_le p.two_le, Option.bind_some, power_eq]
  rfl

theorem sign_eq (n : ℤ) : sign p n = some (p.sign n) := by
  rw [sign, Prime.sign]
  split
  · rfl
  · exact minus?_of_le p.pos

end Values

section Coefficients

variable {p} {n k t result : ℕ}

/-- The factors above and below the line, as they are collected by the two folds of the coefficient. -/
theorem foldlM_fractionStep (hn : n < p.val) (hk : k ≤ n) : (List.range k).foldlM (fractionStep p n) (1, 1) =
    some (Nat.fold k (fun i _ acc => acc * (n - i) % p.val) 1, Nat.fold k (fun i _ acc => acc * (i + 1) % p.val) 1) := by
  induction k with
  | zero => rfl
  | succ k ih =>
    have habove := le_maxWord (fold_lt (p := p) (fun i => n - i) k).le
    have hbelow := le_maxWord (fold_lt (p := p) (fun i => i + 1) k).le
    have hfactor : n - k ≤ maxWord := le_maxWord (p := p) (by omega)
    have hdivisor : k + 1 ≤ maxWord := le_maxWord (p := p) (by omega)
    rw [List.range_succ, List.foldlM_append, ih (by omega)]
    simp only [Option.bind_eq_bind, Option.bind_some, List.foldlM_cons, List.foldlM_nil, fractionStep]
    rw [minus?_of_le (by omega), Option.bind_some, residue_eq (mul_le_maxLong habove hfactor), Option.bind_some,
      fit_of_le (le_trans hdivisor (by decide)), Option.bind_some, residue_eq (mul_le_maxLong hbelow hdivisor)]
    rfl

theorem digitBinomial_eq (hn : n < p.val) (hk : k ≤ n) : digitBinomial p n k = some (p.digitBinomial n k) := by
  have habove := le_maxWord (fold_lt (p := p) (fun i => n - i) k).le
  have hlt := fold_lt (p := p) (fun i => i + 1) k
  have hunit : ¬p.val ∣ Nat.fold k (fun i _ acc => acc * (i + 1) % p.val) 1 := by
    rw [← ZMod.natCast_eq_zero_iff, cast_fold_factorial]
    exact p.cast_factorial_ne_zero (lt_of_le_of_lt hk hn)
  have hinverse : p.inverse (Nat.fold k (fun i _ acc => acc * (i + 1) % p.val) 1) ≤ maxWord := le_maxWord (p.power_lt _ _).le
  rw [digitBinomial, if_neg (by omega), foldlM_fractionStep hn hk]
  simp only [Option.bind_eq_bind, Option.bind_some]
  rw [fit_of_le (le_maxWord hlt.le), Option.bind_some, inverse_eq hunit, Option.bind_some, residue_eq (mul_le_maxLong habove hinverse),
    Option.bind_some]
  exact fit_residue _

/-- The loop multiplies what it has by the coefficient of the digits that are left. -/
theorem binomialLoop_eq (hresult : result < p.val) : binomialLoop p result n k = some (p.product result (p.lucas n k)) := by
  induction n, k using Prime.lucas.induct p generalizing result with
  | case1 n k h => rw [binomialLoop, dif_pos h, lucas, dif_pos h, product_one hresult]
  | case2 n k h hlt =>
    rw [binomialLoop, dif_neg h, lucas, dif_neg h, if_pos hlt, product_zero]
    simp only [Option.bind_eq_bind]
    rw [mod?_of_pos p.pos, Option.bind_some, mod?_of_pos p.pos, Option.bind_some, if_pos hlt]
  | case3 n k h hge ih =>
    rw [binomialLoop, dif_neg h, lucas, dif_neg h, if_neg hge]
    simp only [Option.bind_eq_bind]
    rw [mod?_of_pos p.pos, Option.bind_some, mod?_of_pos p.pos, Option.bind_some, if_neg hge,
      digitBinomial_eq (Nat.mod_lt n p.pos) (not_lt.mp hge), Option.bind_some, product_eq (le_maxWord hresult.le) (le_maxWord (digitBinomial_lt _ _).le),
      Option.bind_some, ih (p.product_lt _ _), product_assoc]

theorem binomial_eq {n k : ℤ} (hn : isSigned n = true) (hk : isSigned k = true) : binomial p n k = some (p.binomial n k) := by
  rw [binomial, Prime.binomial]
  split
  · rfl
  · next hrange =>
    -- Both numbers are at least zero here, so that they are their own unsigned words.
    have hword : ∀ m : ℤ, isSigned m = true → 0 ≤ m → unsigned32 m = m.toNat := by
      intro m hm hpos
      obtain ⟨c, rfl⟩ := Int.eq_ofNat_of_zero_le hpos
      rw [isSigned, Bool.and_eq_true, decide_eq_true_eq, decide_eq_true_eq, maxSigned] at hm
      rw [Int.toNat_natCast]
      exact unsigned32_of_le (by unfold maxWord; omega)
    rw [hword n hn (by omega), hword k hk (by omega), binomialLoop_eq p.two_le, one_product (p.lucas_lt _ _)]

/-- What a pass over one digit answers, told from the coefficient of the digit: it ends with zero where that is zero. -/
def passed (p : Prime) (result : ℕ) (c : ℕ) : Option ℕ := if c = 0 then none else some (p.product result c)

theorem digitPass_eq {l : List ℕ} (ht : t < p.val) (hresult : result < p.val) :
    digitPass p t result l = (p.digitMultinomial t l).map (passed p result) := by
  induction l generalizing t result with
  | nil => rw [digitPass, digitMultinomial, Option.map_some, passed, if_neg (by decide), product_one hresult]
  | cons n l ih =>
    have hdigit := Nat.mod_lt n p.pos
    simp only [digitPass, digitMultinomial, Option.bind_eq_bind]
    rw [mod?_of_pos p.pos, Option.bind_some]
    by_cases hword : maxWord < t + n % p.val
    · rw [if_pos hword, fit, if_neg (by omega)]
      rfl
    · rw [if_neg hword, fit_of_le (by omega), Option.bind_some]
      by_cases hcarry : p.val ≤ t + n % p.val
      · rw [if_pos hcarry, if_pos hcarry]
        rfl
      · -- The coefficient of this digit is not zero, so the product is zero exactly where the pass over the others ends with zero.
        have hne := digitBinomial_ne_zero (p := p) (k := n % p.val) (not_le.mp hcarry) (by omega)
        rw [if_neg hcarry, if_neg hcarry, digitBinomial_eq (not_le.mp hcarry) (by omega), Option.bind_some,
          product_eq (le_maxWord hresult.le) (le_maxWord (digitBinomial_lt _ _).le), Option.bind_some, ih (not_le.mp hcarry) (p.product_lt _ _)]
        cases hrest : p.digitMultinomial (t + n % p.val) l with
        | none => rfl
        | some e =>
          rw [Option.map_some, Option.map_some, Option.map_some, passed, passed]
          by_cases he : e = 0
          · rw [if_pos he, he, product_zero, if_pos rfl]
          · have hproduct := product_ne_zero (digitBinomial_lt _ _) (digitMultinomial_lt hrest) hne he
            rw [if_neg he, if_neg hproduct, product_assoc]

theorem multinomialLoop_eq {l : List ℕ} (hresult : result < p.val) :
    multinomialLoop p result l = (p.multinomial? l).map (p.product result) := by
  induction hs : total l using Nat.strong_induction_on generalizing l result with
  | h s ih =>
    rw [multinomialLoop, Prime.multinomial?]
    by_cases h : l.any (0 < ·) = true
    · rw [dif_pos h, dif_pos h, digitPass_eq p.pos hresult]
      cases hdigit : p.digitMultinomial 0 l with
      | none => rfl
      | some c =>
        rw [Option.map_some, passed]
        cases c with
        | zero =>
          rw [if_pos rfl]
          simp only [Option.map_some, product_zero]
        | succ c =>
          rw [if_neg (Nat.succ_ne_zero c)]
          simp only
          rw [ih _ (hs ▸ p.total_dropDigit_lt h) (p.product_lt _ _) rfl, Option.map_map]
          congr 1
          funext e
          exact product_assoc result (c + 1) e
    · rw [dif_neg h, dif_neg h, Option.map_some, product_one hresult]

theorem multinomial_eq (l : List ℕ) : multinomial p l = p.multinomial? l := by
  rw [multinomial, multinomialLoop_eq p.two_le]
  cases h : p.multinomial? l with
  | none => rfl
  | some c => rw [Option.map_some, one_product (multinomial?_lt h)]

end Coefficients

section Range

variable {p} {a b : ℕ} {n k : ℤ} {l : List ℕ}

/-- The words of the way suffice, and the answer is a residue below the prime. -/
def Yields (p : Prime) (answer : Option ℕ) (residue : ℕ) : Prop := answer = some residue ∧ residue < p.val

/-- A multinomial coefficient of words is a residue, unless the total of the lowest digits overflows. -/
theorem multinomial_yields (hl : ∀ m ∈ l, m ≤ maxWord) (h : ¬Overflows p 0 l) :
    ∃ c, p.multinomial? l = some c ∧ Yields p (multinomial p l) c := by
  obtain ⟨c, hc⟩ := Option.ne_none_iff_exists'.mp (mt (multinomial?_eq_none_iff hl).mp h)
  exact ⟨c, hc, (multinomial_eq l).trans hc, multinomial?_lt hc⟩

theorem multinomial_eq_none (hl : ∀ m ∈ l, m ≤ maxWord) (h : Overflows p 0 l) : multinomial p l = none :=
  (multinomial_eq l).trans ((multinomial?_eq_none_iff hl).mpr h)

/-- The arithmetic of residues stays in the words and answers below the prime, for all primes and words, with one exception: the running total
of the digits of a multinomial coefficient overflows for the described lists, and for primes above the 31st power of 2 only. -/
theorem arithmetic_in_words (ha : a ≤ maxWord) (hb : b ≤ maxWord) (hn : isSigned n = true) (hk : isSigned k = true) (hl : ∀ m ∈ l, m ≤ maxWord) :
    Yields p (sum p a b) (p.sum a b) ∧ Yields p (product p a b) (p.product a b) ∧ Yields p (negate p a) (p.negate a) ∧
    Yields p (power p a b) (p.power a b) ∧ (¬p.val ∣ a → Yields p (inverse p a) (p.inverse a)) ∧ Yields p (sign p n) (p.sign n) ∧
    Yields p (binomial p n k) (p.binomial n k) ∧
    (¬Overflows p 0 l → ∃ c, p.multinomial? l = some c ∧ Yields p (multinomial p l) c) ∧
    (Overflows p 0 l → 2 ^ 31 < p.val ∧ p.multinomial? l = none ∧ multinomial p l = none) := by
  refine ⟨⟨sum_eq ha hb, p.sum_lt a b⟩, ⟨product_eq ha hb, p.product_lt a b⟩, ⟨negate_eq a, p.negate_lt a⟩, ⟨power_eq a b, p.power_lt a b⟩,
    fun h => ⟨inverse_eq h, p.power_lt a _⟩, ⟨sign_eq n, p.sign_lt n⟩, ⟨binomial_eq hn hk, binomial_lt n k⟩, multinomial_yields hl, fun h => ?_⟩
  exact ⟨h.two_pow_lt, (multinomial?_eq_none_iff hl).mpr h, multinomial_eq_none hl h⟩

/-- A prime with little room for words above it. -/
def large : Prime := ⟨4293918721, isPrime?_of_prime prime_4293918721 (by decide)⟩

/-- The largest words, and digits whose total is the largest word. -/
theorem arithmetic_in_words_large : maxWord ≤ maxWord ∧ isSigned maxSigned = true ∧ isSigned (-2147483648) = true ∧
    (∀ m ∈ [4293918720, 1048575], m ≤ maxWord) ∧ ¬large.val ∣ maxWord ∧ ¬Overflows large 0 [4293918720, 1048575] ∧
    Yields large (sum large maxWord maxWord) 2097148 ∧ Yields large (product large maxWord maxWord) 264240900 ∧
    Yields large (inverse large maxWord) (large.inverse maxWord) ∧
    ∃ c, large.multinomial? [4293918720, 1048575] = some c ∧ Yields large (multinomial large [4293918720, 1048575]) c := by
  have hsigned : isSigned maxSigned = true := by decide
  have hnegative : isSigned (-2147483648) = true := by decide
  have hlist : ∀ m ∈ [4293918720, 1048575], m ≤ maxWord := by decide
  have hdvd : ¬large.val ∣ maxWord := by decide
  have hfits : ¬Overflows large 0 [4293918720, 1048575] := mt (digitMultinomial_eq_none_iff large.pos).mpr (by decide)
  obtain ⟨hsum, hproduct, _, _, hinverse, _, _, hmultinomial, _⟩ :=
    arithmetic_in_words (p := large) (le_refl maxWord) (le_refl maxWord) hsigned hnegative hlist
  exact ⟨le_refl maxWord, hsigned, hnegative, hlist, hdvd, hfits, hsum, hproduct, hinverse hdvd, hmultinomial hfits⟩

/-- The multinomial coefficient of these two words is zero, since their digits carry, but the total of the digits overflows by one. -/
theorem multinomial_leaves_words : large.val = 4293918721 ∧ (∀ m ∈ [1048576, 4293918720], m ≤ maxWord) ∧
    large.val ∣ Steenrod.multinomial [1048576, 4293918720] ∧ multinomial large [1048576, 4293918720] = none ∧
    large.multinomial? [1048576, 4293918720] = none := by
  have hlist : ∀ m ∈ [1048576, 4293918720], m ≤ maxWord := by decide
  have hoverflows : Overflows large 0 [1048576, 4293918720] := ⟨[1048576], 4293918720, [], rfl, by decide, by decide⟩
  have hzero : ((4294967296 : ℕ).choose 1048576 : large.Field) = 0 := by
    rw [large.cast_choose, Nat.choose_eq_zero_of_lt (by decide), Nat.cast_zero, zero_mul]
  have htotal : 1048576 + total [4293918720] = 4294967296 := by decide
  have hdvd : large.val ∣ Steenrod.multinomial [1048576, 4293918720] := by
    rw [Steenrod.multinomial, htotal]
    exact Dvd.dvd.mul_right ((ZMod.natCast_eq_zero_iff _ _).mp hzero) _
  exact ⟨rfl, hlist, hdvd, multinomial_eq_none hlist hoverflows, (multinomial?_eq_none_iff hlist).mpr hoverflows⟩

end Range

end Checked

end Prime
end Steenrod
