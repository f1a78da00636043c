import Steenrod.Proofs.Prime.Field
import Steenrod.Proofs.Text.Printed
import Steenrod.Prime.Text
/-!
Which words are found to be prime. Trial division answers for every word but the primes above the square of 65535, for which the square of
the next divisor is no word. Main statement: a number, its decimal text and its document are all taken for a prime if and only if the number
is one, those primes apart.
-/
namespace Steenrod

section TrialDivision

variable {n d fuel : ℕ}

theorem exists_dvd_of_trialDivision (h : trialDivision n d fuel = some false) : ∃ m, d ≤ m ∧ m * m ≤ n ∧ m ∣ n := by
  induction fuel generalizing d with
  | zero => cases h
  | succ fuel ih =>
    rw [trialDivision] at h
    split at h
    · cases h
    · next hsquare =>
      split at h
      · next hmod => exact ⟨d, le_rfl, not_lt.mp hsquare, Nat.dvd_of_mod_eq_zero hmod⟩
      · obtain ⟨m, hm, hrest⟩ := ih h
        exact ⟨m, by omega, hrest⟩

theorem exists_lt_of_trialDivision (h : trialDivision n d fuel = some true) : ∃ m < d + fuel, n < m * m := by
  induction fuel generalizing d with
  | zero => cases h
  | succ fuel ih =>
    rw [trialDivision] at h
    split at h
    · next hsquare => exact ⟨d, by omega, hsquare⟩
    · split at h
      · cases h
      · obtain ⟨m, hm, hsquare⟩ := ih h
        exact ⟨m, by omega, hsquare⟩

/-- Where the divisors are used up, none of them divides the number, and the squares of all are within it. -/
theorem not_dvd_of_trialDivision (h : trialDivision n d fuel = none) : ∀ m, d ≤ m → m < d + fuel → m * m ≤ n ∧ ¬m ∣ n := by
  induction fuel generalizing d with
  | zero => intro m; omega
  | succ fuel ih =>
    intro m hm hlt
    rw [trialDivision] at h
    split at h
    · cases h
    · next hsquare =>
      split at h
      · cases h
      · next hmod =>
        rcases Nat.eq_or_lt_of_le hm with rfl | hgt
        · exact ⟨not_lt.mp hsquare, fun hdvd => hmod (Nat.mod_eq_zero_of_dvd hdvd)⟩
        · exact ih h m hgt (by omega)

theorem not_prime_of_trialDivision (h : trialDivision n 2 fuel = some false) : ¬n.Prime := by
  intro hprime
  obtain ⟨m, hm, hsquare, hdvd⟩ := exists_dvd_of_trialDivision h
  rcases (Nat.dvd_prime hprime).mp hdvd with rfl | rfl
  · omega
  · have := Nat.mul_le_mul_right m hm
    omega

theorem lt_of_trialDivision (h : trialDivision n 2 wordDivisors = some true) : n < 65535 ^ 2 := by
  obtain ⟨m, hm, hsquare⟩ := exists_lt_of_trialDivision h
  have hle : m ≤ 65535 := by unfold wordDivisors at hm; omega
  have := Nat.mul_le_mul hle hle
  omega

/-- A word that no divisor of the words decides is prime: its root is a divisor of the words. -/
theorem prime_of_trialDivision_eq_none (hn : n ≤ maxWord) (hlarge : 2 ≤ n) (h : trialDivision n 2 wordDivisors = none) :
    n.Prime ∧ 65535 ^ 2 < n := by
  have hnone := not_dvd_of_trialDivision h
  refine ⟨Nat.prime_def_le_sqrt.mpr ⟨hlarge, fun m hm hsqrt => (hnone m hm ?_).2⟩, ?_⟩
  · have hsquare := Nat.le_sqrt.mp hsqrt
    unfold wordDivisors maxWord at *
    by_contra hlt
    have := Nat.mul_le_mul (not_lt.mp hlt) (not_lt.mp hlt)
    omega
  · obtain ⟨hle, hdvd⟩ := hnone 65535 (by decide) (by decide)
    refine lt_of_le_of_ne (by omega) ?_
    rintro rfl
    exact hdvd (by decide)

/-- Trial division of a word finds a divisor, or finds none up to the root, or none up to 65535 where the root is larger. -/
theorem isPrime?_cases (hn : n ≤ maxWord) : (isPrime? n = some false ∧ ¬n.Prime) ∨ (isPrime? n = some true ∧ n.Prime ∧ n < 65535 ^ 2) ∨
    (isPrime? n = none ∧ n.Prime ∧ 65535 ^ 2 < n) := by
  by_cases hsmall : n < 2
  · exact .inl ⟨if_pos hsmall, fun hprime => absurd hprime.two_le (not_le.mpr hsmall)⟩
  · have hdivision : isPrime? n = trialDivision n 2 wordDivisors := if_neg hsmall
    rw [hdivision]
    cases h : trialDivision n 2 wordDivisors with
    | none => exact .inr (.inr ⟨rfl, prime_of_trialDivision_eq_none hn (not_lt.mp hsmall) h⟩)
    | some answer =>
      cases answer with
      | false => exact .inl ⟨rfl, not_prime_of_trialDivision h⟩
      | true => exact .inr (.inl ⟨rfl, Prime.prime ⟨n, hdivision.trans h⟩, lt_of_trialDivision h⟩)

theorem isPrime?_of_prime (hprime : n.Prime) (h : n < 65535 ^ 2) : isPrime? n = some true := by
  have hn : n ≤ maxWord := by unfold maxWord; omega
  rcases isPrime?_cases hn with ⟨_, hnot⟩ | ⟨htrue, _⟩ | ⟨_, _, hgt⟩
  · exact absurd hprime hnot
  · exact htrue
  · omega

end TrialDivision

section Documents

variable {n : ℕ}

/-- The decimal digits of a positive number do not begin with a zero. -/
theorem head_toDigits_ne_zero (hn : 0 < n) : (Nat.toDigits 10 n).head? ≠ some '0' := by
  induction n using Nat.strong_induction_on with
  | h n ih =>
    by_cases hlt : n < 10
    · rw [Nat.toDigits_of_lt_base hlt]
      interval_cases n <;> decide
    · rw [Nat.toDigits_of_base_le (by decide) (by omega), List.head?_append_of_ne_nil _ Nat.toDigits_ne_nil]
      exact ih (n / 10) (by omega) (by omega)

namespace Json

theorem digitsAhead_repr (n : ℕ) : digitsAhead n.repr.toList = n.repr.toList.map Text.digitValue := by
  have hdigits : ∀ c ∈ n.repr.toList, c.isDigit = true := fun c => Text.isDigit_of_mem_repr
  have htake : n.repr.toList.takeWhile Char.isDigit = n.repr.toList := List.takeWhile_eq_self_iff.mpr hdigits
  rw [digitsAhead, htake, ← List.filterMap_eq_map]
  refine List.filterMap_congr fun c hc => ?_
  rw [digitValue?, if_pos (hdigits c hc)]
  rfl

/-- The digits of a number are its numeral: they are not empty, and a zero in front stands alone. -/
theorem numeral_repr (n : ℕ) : numeral n.repr.toList = some (⟨n.repr.toList.map Text.digitValue, none, none⟩, []) := by
  have hdigits : ∀ c ∈ n.repr.toList, c.isDigit = true := fun c => Text.isDigit_of_mem_repr
  have hrest : n.repr.toList.dropWhile Char.isDigit = [] := List.dropWhile_eq_nil_iff.mpr hdigits
  have hzero : (n.repr.toList.map Text.digitValue).head? = some 0 → n = 0 := by
    intro h
    by_contra hpos
    rw [List.head?_map, Option.map_eq_some_iff] at h
    obtain ⟨c, hc, hvalue⟩ := h
    have hdigit := hdigits c (List.mem_of_head? hc)
    have hc0 : c = '0' := by
      simp only [Char.isDigit, Bool.and_eq_true, decide_eq_true_eq, ge_iff_le, UInt32.le_iff_toNat_le] at hdigit
      have hlow : 48 ≤ c.toNat := hdigit.1
      rw [Text.digitValue] at hvalue
      exact Char.toNat_inj.mp (by change c.toNat = 48; omega)
    rw [Nat.repr, String.toList_ofList, hc0] at hc
    exact head_toDigits_ne_zero (Nat.pos_of_ne_zero hpos) hc
  have hwhole : ¬((n.repr.toList.map Text.digitValue).isEmpty = true ∨
      ((n.repr.toList.map Text.digitValue).head? = some 0 ∧ 1 < (n.repr.toList.map Text.digitValue).length)) := by
    rintro (h | ⟨h, hlength⟩)
    · exact Text.repr_ne_nil n (List.map_eq_nil_iff.mp (List.isEmpty_iff.mp h))
    · obtain rfl := hzero h
      exact absurd hlength (by decide)
  rw [numeral, digitsAhead_repr, hrest]
  exact if_neg hwhole

/-- A whole number of 64 bits is read from its digits. -/
theorem number_repr (hn : n ≤ maxUnsigned64) : number false n.repr.toList = some (int n, []) := by
  have hvalue : (n.repr.toList.map Text.digitValue).foldl (fun n d => n * 10 + d) 0 = n := by
    rw [List.foldl_map]
    exact Text.decimal_repr n
  rw [number, numeral_repr, Option.bind_eq_bind, Option.bind_some]
  simp only
  rw [Numeral.value?]
  simp only
  rw [hvalue, if_neg (by simpa using hn)]
  rfl

theorem isGap_of_isDigit {c : Char} (h : c.isDigit = true) : isGap c = false := by
  have hne : ∀ d, Text.isNameChar d = false → (c == d) = false := fun d hd =>
    beq_eq_false_iff_ne.mpr (Text.ne_of_isNameChar (Text.isNameChar_of_isDigit h) hd)
  rw [isGap, hne ' ' (by decide), hne '\n' (by decide), hne '\t' (by decide), hne '\r' (by decide)]
  rfl

/-- The document that is written as the digits of a number is the number. -/
theorem first?_repr (hn : n ≤ maxUnsigned64) : first? n.repr.toList = some (int n, []) := by
  obtain ⟨c, cs, hcs, hc⟩ := Text.isDigit_head_repr n []
  rw [List.append_nil] at hcs
  have hgap : skipGap n.repr.toList = n.repr.toList := by
    rw [skipGap, hcs, List.dropWhile_cons_of_neg (by rw [isGap_of_isDigit hc]; decide)]
  change value (127 + 1) n.repr.toList = _
  rw [value, hgap, ← number_repr hn, hcs]
  split
  -- No other document begins with a digit.
  case h_8 => rfl
  all_goals
    next heq =>
      rw [(List.cons.inj heq).1] at hc
      exact absurd hc (by decide)

end Json

namespace Prime

theorem ofNat_of_true (h : isPrime? n = some true) : ofNat n = .ok (some ⟨n, h⟩) := by
  rw [ofNat]
  split
  · next h' => rw [h'] at h; cases h
  · next h' => rw [h'] at h; cases h
  · rfl

theorem ofNat_of_false (h : isPrime? n = some false) : ofNat n = .ok none := by
  rw [ofNat]
  split
  · next h' => rw [h'] at h; cases h
  · rfl
  · next h' => rw [h'] at h; cases h

theorem ofNat_of_none (h : isPrime? n = none) : ofNat n = breach := by
  rw [ofNat]
  split
  · rfl
  · next h' => rw [h'] at h; cases h
  · next h' => rw [h'] at h; cases h

theorem check_eq (n : ℕ) : check n = (ofNat n).map fun p => p.elim (.error ⟨n⟩) .ok := by
  rw [check]
  cases ofNat n with
  | error e => rfl
  | ok p => cases p <;> rfl

theorem ofText_repr (hn : n ≤ maxWord) : ofText n.repr = check n := by
  obtain ⟨c, cs, hcs, hc⟩ := Text.isDigit_head_repr n []
  rw [List.append_nil] at hcs
  have hdigits : ∀ c ∈ n.repr.toList, c.isDigit = true := fun c => Text.isDigit_of_mem_repr
  have htrim : Text.trim n.repr.toList = n.repr.toList :=
    Text.trim_eq_self (by rw [hcs]; simp) (fun c hc => Text.isBlank_of_isDigit (hdigits c (List.mem_of_head? hc)))
      fun c hc => Text.isBlank_of_isDigit (hdigits c (List.mem_of_getLast? hc))
  have hread : Text.digits (c :: cs) = some (n, []) := by
    rw [← hcs, ← List.append_nil n.repr.toList]
    exact Text.reads_digits.complete (Text.isNumeral_repr hn) (by simp)
  have hplus : ∀ rest, c :: cs = '+' :: rest → False := fun rest h =>
    Text.ne_of_isNameChar (Text.isNameChar_of_isDigit hc) (by decide) (List.cons.inj h).1
  have hword : Text.word? n.repr.toList = some n := by
    rw [hcs, Text.word?, hread]
    exact hplus
  rw [ofText, htrim, hword]

theorem ofJson_int (hn : n ≤ maxWord) : ofJson (.int n) = ofNat n := by
  have hword : (Json.int n).word? = some n := by
    rw [Json.word?, Json.integerIn?, if_pos ⟨Int.natCast_nonneg n, by exact_mod_cast hn⟩]
    rfl
  rw [ofJson, hword]

theorem ofDocument_repr (hn : n ≤ maxWord) : ofDocument n.repr = ofNat n := by
  have hlong : n ≤ Json.maxUnsigned64 := le_trans hn (by decide)
  rw [ofDocument, Json.first?_repr hlong]
  simp only
  rw [ofJson_int hn]
  cases ofNat n <;> rfl

/-- What the ways to make a prime of a number answer: the number itself, its decimal text and its document. -/
structure Answers (n : ℕ) (verdict : Result (Option Prime)) : Prop where
  ofNat : ofNat n = verdict
  check : check n = verdict.map fun p => p.elim (.error ⟨n⟩) .ok
  ofText : ofText n.repr = verdict.map fun p => p.elim (.error ⟨n⟩) .ok
  ofJson : ofJson (.int n) = verdict
  ofDocument : ofDocument n.repr = verdict

theorem answers_ofNat (hn : n ≤ maxWord) : Answers n (ofNat n) where
  ofNat := rfl
  check := check_eq n
  ofText := (ofText_repr hn).trans (check_eq n)
  ofJson := ofJson_int hn
  ofDocument := ofDocument_repr hn

/-- Exactly the prime words are taken for primes, the ones above the square of 65535 apart: trial division of these leaves the words. -/
theorem taken_iff_prime (hn : n ≤ maxWord) :
    (¬n.Prime ∧ isPrime? n = some false ∧ Answers n (.ok none)) ∨
    (n.Prime ∧ n < 65535 ^ 2 ∧ isPrime? n = some true ∧ ∃ p : Prime, p.val = n ∧ Answers n (.ok (some p))) ∨
    (n.Prime ∧ 65535 ^ 2 < n ∧ isPrime? n = none ∧ Answers n breach) := by
  have hanswers := answers_ofNat hn
  rcases isPrime?_cases hn with ⟨h, hnot⟩ | ⟨h, hprime, hlt⟩ | ⟨h, hprime, hgt⟩
  · rw [ofNat_of_false h] at hanswers
    exact .inl ⟨hnot, h, hanswers⟩
  · rw [ofNat_of_true h] at hanswers
    exact .inr (.inl ⟨hprime, hlt, h, ⟨n, h⟩, rfl, hanswers⟩)
  · rw [ofNat_of_none h] at hanswers
    exact .inr (.inr ⟨hprime, hgt, h, hanswers⟩)

/-- One more than 4095 times the twentieth power of 2 is prime: the powers of 19 are all residues but zero. -/
theorem prime_4293918721 : Nat.Prime 4293918721 := by
  have hfactors : ∀ q : ℕ, q.Prime → q ∣ 4293918721 - 1 → q = 2 ∨ q = 3 ∨ q = 5 ∨ q = 7 ∨ q = 13 := by
    intro q hq hdvd
    have hproduct : 4293918721 - 1 = 2 ^ 20 * (3 ^ 2 * (5 * (7 * 13))) := by norm_num
    rw [hproduct, hq.dvd_mul, hq.dvd_mul, hq.dvd_mul, hq.dvd_mul, hq.prime.dvd_pow_iff_dvd (by decide), hq.prime.dvd_pow_iff_dvd (by decide)] at hdvd
    simpa only [Nat.prime_dvd_prime_iff_eq hq Nat.prime_two, Nat.prime_dvd_prime_iff_eq hq Nat.prime_three,
      Nat.prime_dvd_prime_iff_eq hq Nat.prime_five, Nat.prime_dvd_prime_iff_eq hq Nat.prime_seven,
      Nat.prime_dvd_prime_iff_eq hq (by norm_num : Nat.Prime 13)] using hdvd
  refine lucas_primality 4293918721 19 (by reduce_mod_char) fun q hq hdvd => ?_
  rcases hfactors q hq hdvd with rfl | rfl | rfl | rfl | rfl
  all_goals
    reduce_mod_char
    decide +kernel

/-- A prime that is no signed word. -/
theorem taken_iff_prime_4293918721 : 4293918721 ≤ maxWord ∧ ∃ p : Prime, p.val = 4293918721 ∧ Answers 4293918721 (.ok (some p)) := by
  have hword : 4293918721 ≤ maxWord := by decide
  refine ⟨hword, ?_⟩
  rcases taken_iff_prime hword with ⟨hnot, _⟩ | ⟨_, _, _, h⟩ | ⟨_, hgt, _⟩
  · exact absurd prime_4293918721 hnot
  · exact h
  · omega

/-- The largest prime word: the powers of 2 are all residues but zero. -/
theorem prime_largest : Nat.Prime 4294967291 := by
  have hfactors : ∀ q : ℕ, q.Prime → q ∣ 4294967291 - 1 → q = 2 ∨ q = 5 ∨ q = 19 ∨ q = 22605091 := by
    intro q hq hdvd
    have hproduct : 4294967291 - 1 = 2 * (5 * (19 * 22605091)) := by norm_num
    rw [hproduct, hq.dvd_mul, hq.dvd_mul, hq.dvd_mul] at hdvd
    simpa only [Nat.prime_dvd_prime_iff_eq hq Nat.prime_two, Nat.prime_dvd_prime_iff_eq hq Nat.prime_five,
      Nat.prime_dvd_prime_iff_eq hq (by norm_num : Nat.Prime 19), Nat.prime_dvd_prime_iff_eq hq (by norm_num : Nat.Prime 22605091)] using hdvd
  refine lucas_primality 4294967291 2 (by reduce_mod_char) fun q hq hdvd => ?_
  rcases hfactors q hq hdvd with rfl | rfl | rfl | rfl
  all_goals
    reduce_mod_char
    decide +kernel

/-- Trial division of the largest prime word leaves the words, however the number is given. -/
theorem breach_of_largest : Nat.Prime 4294967291 ∧ 4294967291 ≤ maxWord ∧ isPrime? 4294967291 = none ∧ Answers 4294967291 breach := by
  have hword : 4294967291 ≤ maxWord := by decide
  have hnone : isPrime? 4294967291 = none := by
    rcases isPrime?_cases hword with ⟨_, hnot⟩ | ⟨_, _, hlt⟩ | ⟨h, _⟩
    · exact absurd prime_largest hnot
    · omega
    · exact h
  refine ⟨prime_largest, hword, hnone, ?_⟩
  rw [← ofNat_of_none hnone]
  exact answers_ofNat hword

end Prime

end Documents

end Steenrod
