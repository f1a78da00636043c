import Steenrod.Proofs.Milnor.Adem
import Steenrod.Proofs.Milnor.Enumeration
import Steenrod.Milnor.Generators
/-!
The terms of `P(n) P(S)`. Main statements: for `n = r + p s_1 + p^2 s_2 + …` the coefficient of `P(r, s_1, s_2, …)` is 1, and all other
terms have a greater sum of exponents; where `p` has the power `q` in `n`, the coefficient of `P(n)` in `P(q) P(n - q)` does not vanish.
-/
namespace Steenrod

section Trimmed

variable {S : List ℕ}

theorem Trimmed.tail {r : ℕ} (h : Trimmed (r :: S)) : Trimmed S := by
  rw [Trimmed, Milnor.trim] at h
  split at h
  · next hS =>
    split at h
    · simp at h
    · rw [Trimmed, hS]
      exact (List.cons.inj h).2
  · exact (List.cons.inj h).2

theorem Trimmed.index_ne_zero (hS : Trimmed S) (hne : S ≠ []) : index S ≠ 0 :=
  fun h => hne (hS.eq (show Trimmed [] from rfl) h)

theorem Trimmed.weight_pos {p : Prime} (hS : Trimmed S) (hne : S ≠ []) : 0 < Milnor.weight p (index S) :=
  Nat.pos_of_ne_zero fun h => hS.index_ne_zero hne (Milnor.index_of_weight h)

end Trimmed

namespace Milnor

variable {p : Prime}

theorem mem_matrices_row {n : ℕ} {S top : List ℕ} {below : List (List ℕ)} :
    (top, below) ∈ matrices p.val [n] S ↔ ∃ row, below = [row] ∧ top.length = S.length ∧ row.length = S.length + 1 ∧
      n = weigh p.val 1 (index row) ∧ index S = index row.tail + index top := by
  rw [mem_matrices p.pos]
  simp only [List.forall₂_cons_left_iff, List.forall₂_nil_left_iff]
  constructor
  · rintro ⟨htop, ⟨row, _, ⟨hlen, hn⟩, rfl, rfl⟩, hS⟩
    exact ⟨row, rfl, htop, hlen, hn, by simpa [taken] using hS⟩
  · rintro ⟨row, rfl, htop, hlen, hn, hS⟩
    exact ⟨htop, ⟨row, [], ⟨hlen, hn⟩, rfl, rfl⟩, by simpa [taken] using hS⟩

theorem place_row (top row : List ℕ) : (cells top [row]).mapDomain Slot.place = index top + index row := by
  have hzero : index ([[]].map total) = 0 := by simp [index_cons, raise]
  rw [← index_diagonals_cells, index_consEach, diagonals, diagonals, index_consEach, hzero, add_zero]

theorem powerSum_apply_eq_sum (hp : p.val ≤ 2147483648) (R S : List ℕ) (T : ℕ →₀ ℕ) : powerSum p (powerProduct p R S) T =
    ∑ m ∈ (matrices p.val R S).toFinset, if (cells m.1 m.2).mapDomain Slot.place = T then
      (multinomials (consEach m.1 (diagonals m.2)) : p.Field) else 0 := by
  rw [powerSum_powerProduct hp, List.sum_toFinset _ (matrices_nodup p.pos R S)]
  induction matrices p.val R S with
  | nil => rfl
  | cons m ms ih => rw [List.map_cons, List.sum_cons, Finsupp.add_apply, ih, List.map_cons, List.sum_cons, Finsupp.single_apply]

/-- The terms of `P(n) P(S)` have the sum of the exponents of `S` and of what is left of `n`. -/
theorem exists_row_of_powerSum_ne_zero (hp : p.val ≤ 2147483648) {n : ℕ} {S : List ℕ} {T : ℕ →₀ ℕ}
    (h : powerSum p (powerProduct p [n] S) T ≠ 0) : ∃ top row : List ℕ, T = index top + index row ∧
      row.length = S.length + 1 ∧ n = weigh p.val 1 (index row) ∧ index S = index row.tail + index top := by
  rw [powerSum_apply_eq_sum hp] at h
  obtain ⟨⟨top, below⟩, hm, hne⟩ := Finset.exists_ne_zero_of_sum_ne_zero h
  obtain ⟨row, rfl, _, hlen, hn, hS⟩ := mem_matrices_row.mp (List.mem_toFinset.mp hm)
  refine ⟨top, row, ?_, hlen, hn, hS⟩
  have hplace : (cells top [row]).mapDomain Slot.place = T := by
    by_contra hT
    exact hne (if_neg hT)
  rw [← hplace, place_row]

theorem weigh_eq_zero {w : ℕ} (hw : 0 < w) {T : ℕ →₀ ℕ} (h : weigh p.val w T = 0) : T = 0 := by
  ext j
  by_contra hne
  have hle := Finset.single_le_sum (f := fun j => w * p.val ^ j * T j) (fun _ _ => Nat.zero_le _) (Finsupp.mem_support_iff.mpr hne)
  have hpos := Nat.mul_pos (Nat.mul_pos hw (Nat.pow_pos p.pos : 0 < p.val ^ j)) (Nat.pos_of_ne_zero hne)
  have hsum : weigh p.val w T = ∑ j ∈ T.support, w * p.val ^ j * T j := rfl
  omega

section Row

variable {r : ℕ} {S top row : List ℕ} (hlen : row.length = S.length + 1)
  (hn : weigh p.val 1 (index (r :: S)) = weigh p.val 1 (index row)) (hS : index S = index row.tail + index top)

include hlen hn hS

/-- A matrix with nothing left over at the top is the leading one. -/
theorem index_row_eq (htop : index top = 0) : index row = index (r :: S) := by
  obtain ⟨x, xs, rfl⟩ := List.exists_cons_of_length_eq_add_one hlen
  rw [List.tail_cons, htop, add_zero] at hS
  rw [weigh_index_cons, weigh_index_cons, hS, Nat.one_mul, Nat.one_mul, Nat.one_mul] at hn
  rw [index_cons, index_cons, hS]
  congr 2
  omega

theorem degree_lt_of_row (htop : index top ≠ 0) : (index (r :: S)).degree < (index top + index row).degree := by
  obtain ⟨x, xs, rfl⟩ := List.exists_cons_of_length_eq_add_one hlen
  rw [List.tail_cons] at hS
  rw [weigh_index_cons, weigh_index_cons, hS, weigh_add, Nat.one_mul, Nat.one_mul, Nat.one_mul] at hn
  have hpos : 0 < weigh p.val p.val (index top) := Nat.pos_of_ne_zero fun hzero => htop (weigh_eq_zero p.pos hzero)
  simp only [index_cons, hS, map_add, raise, Finsupp.degree_mapDomain, Finsupp.degree_single]
  omega

end Row

/-- The other terms of the product have a greater sum of exponents. -/
theorem degree_lt_of_powerSum_ne_zero (hp : p.val ≤ 2147483648) {r : ℕ} {S : List ℕ} {T : ℕ →₀ ℕ}
    (h : powerSum p (powerProduct p [weigh p.val 1 (index (r :: S))] S) T ≠ 0) (hT : T ≠ index (r :: S)) :
    (index (r :: S)).degree < T.degree := by
  obtain ⟨top, row, rfl, hlen, hn, hS⟩ := exists_row_of_powerSum_ne_zero hp h
  refine degree_lt_of_row hlen hn hS fun htop => hT ?_
  rw [htop, zero_add, index_row_eq hlen hn hS htop]

/-- The coefficient of the leading term is 1. -/
theorem powerSum_leading (hp : p.val ≤ 2147483648) (r : ℕ) (S : List ℕ) :
    powerSum p (powerProduct p [weigh p.val 1 (index (r :: S))] S) (index (r :: S)) = 1 := by
  have hzeros : index (List.replicate S.length 0) = 0 := Finsupp.ext fun i => by
    simp [index_apply, List.getElem?_replicate]
    split <;> rfl
  have hmem : (List.replicate S.length 0, [r :: S]) ∈ (matrices p.val [weigh p.val 1 (index (r :: S))] S).toFinset :=
    List.mem_toFinset.mpr (mem_matrices_row.mpr ⟨r :: S, rfl, by simp, by simp, rfl, by simp [hzeros]⟩)
  rw [powerSum_apply_eq_sum hp, Finset.sum_eq_single_of_mem _ hmem]
  · have hplace : (cells (List.replicate S.length 0) [r :: S]).mapDomain Slot.place = index (r :: S) := by
      rw [place_row, hzeros, zero_add]
    have hcells : factorials (cells (List.replicate S.length 0) [r :: S]) = factorials (index (r :: S)) := by
      have hrow : Function.Injective fun j : ℕ => ((0, j) : ℕ × ℕ) := fun a b h => congrArg Prod.snd h
      rw [cells, hzeros, Finsupp.mapDomain_zero, zero_add, factorials_mapDomain Sum.inr_injective, entries, entries,
        Finsupp.mapDomain_zero, add_zero, factorials_mapDomain hrow]
    have hone := multinomials_mul_entryFactorials (consEach (List.replicate S.length 0) (diagonals [r :: S]))
    rw [index_diagonals_cells, hplace, ← factorials_cells, hcells] at hone
    rw [if_pos hplace, Nat.eq_of_mul_eq_mul_right (factorials_pos _) (hone.trans (Nat.one_mul _).symm), Nat.cast_one]
  · rintro ⟨top, below⟩ hm hne
    obtain ⟨row, rfl, htop, hlen, hn, hS⟩ := mem_matrices_row.mp (List.mem_toFinset.mp hm)
    refine if_neg fun hplace => hne ?_
    rw [place_row] at hplace
    have hzero : index top = 0 := by
      by_contra hne
      exact absurd (hplace ▸ degree_lt_of_row hlen hn hS hne) (lt_irrefl _)
    rw [index_injective (by simpa using htop) (hzero.trans hzeros.symm),
      index_injective (by simpa using hlen) (index_row_eq hlen hn hS hzero)]

/-- The largest power of the prime in a number. -/
theorem powerIn_spec {n : ℕ} (hn : 0 < n) : (∃ v, powerIn p n = p.val ^ v) ∧ powerIn p n ∣ n ∧
    (n.choose (powerIn p n) : p.Field) ≠ 0 := by
  induction n using powerIn.induct p with
  | case1 => exact absurd hn (lt_irrefl 0)
  | case2 n hne hmod ih =>
    obtain ⟨m, rfl⟩ := Nat.dvd_of_mod_eq_zero hmod
    rw [Nat.mul_div_cancel_left m p.pos] at ih
    obtain ⟨⟨v, hv⟩, hdvd, hchoose⟩ := ih (Nat.pos_of_mul_pos_left hn)
    have hpow : powerIn p (p.val * m) = p.val * powerIn p m := by
      rw [powerIn, if_neg hne, if_pos hmod, Nat.mul_div_cancel_left m p.pos]
    refine ⟨⟨v + 1, by rw [hpow, hv, pow_succ']⟩, hpow ▸ Nat.mul_dvd_mul_left p.val hdvd, ?_⟩
    rw [hpow, p.cast_choose, Nat.mul_mod_right, Nat.mul_mod_right, Nat.choose_self, Nat.cast_one, one_mul,
      Nat.mul_div_cancel_left _ p.pos, Nat.mul_div_cancel_left _ p.pos]
    exact hchoose
  | case3 n hne hmod =>
    have hpow : powerIn p n = 1 := by rw [powerIn, if_neg hne, if_neg hmod]
    refine ⟨⟨0, by rw [hpow, pow_zero]⟩, hpow ▸ one_dvd n, ?_⟩
    rw [hpow, Nat.choose_one_right, Ne, ZMod.natCast_eq_zero_iff]
    exact fun h => hmod (Nat.mod_eq_zero_of_dvd h)

/-- Below the power of the prime in `n` the binomial coefficients vanish. -/
theorem choose_eq_zero_of_lt_powerIn {n j : ℕ} (hj : 0 < j) (hlt : j < powerIn p n) : (n.choose j : p.Field) = 0 := by
  have hn : 0 < n := by
    rcases Nat.eq_zero_or_pos n with rfl | hn
    · rw [powerIn, if_pos rfl] at hlt
      omega
    · exact hn
  obtain ⟨⟨v, hv⟩, hdvd, _⟩ := powerIn_spec (p := p) hn
  rw [ZMod.natCast_eq_zero_iff]
  by_contra hcoprime
  have hcop : Nat.Coprime (powerIn p n) (n.choose j) := hv ▸ (Nat.Coprime.pow_left v ((p.prime.coprime_iff_not_dvd).mpr hcoprime))
  obtain ⟨m, rfl⟩ := Nat.exists_eq_add_one.mpr hn
  obtain ⟨k, rfl⟩ := Nat.exists_eq_add_one.mpr hj
  have hdiv : powerIn p (m + 1) ∣ (m + 1).choose (k + 1) * (k + 1) := by
    rw [← Nat.add_one_mul_choose_eq]
    exact hdvd.mul_right _
  exact absurd (Nat.le_of_dvd hj (hcop.dvd_of_dvd_mul_left hdiv)) (not_le.mpr hlt)

theorem index_pair_one (x y : ℕ) : index [x, y] 1 = y := rfl

theorem weigh_index_pair (x y : ℕ) : weigh p.val 1 (index [x, y]) = x + p.val * y := by
  rw [weigh_index_cons, weigh_index_cons]
  simp [weigh]

theorem exists_pair_of_powerSum_ne_zero (hp : p.val ≤ 2147483648) {a b : ℕ} {T : ℕ →₀ ℕ}
    (h : powerSum p (powerProduct p [a] [b]) T ≠ 0) : T 1 ≤ min (a / p.val) b ∧ T = index [a - p.val * T 1 + (b - T 1), T 1] := by
  rw [powerSum_single hp, Finsupp.finsetSum_apply] at h
  obtain ⟨i, hi, hne⟩ := Finset.exists_ne_zero_of_sum_ne_zero h
  have hT : index [a - p.val * i + (b - i), i] = T := by
    by_contra hT
    exact hne (Finsupp.single_eq_of_ne (Ne.symm hT))
  subst hT
  exact ⟨Nat.le_of_lt_succ (Finset.mem_range.mp hi), rfl⟩

/-- The coefficient of `P(a + b)` in `P(a) P(b)`. -/
theorem powerSum_single_add (hp : p.val ≤ 2147483648) (a b : ℕ) :
    powerSum p (powerProduct p [a] [b]) (index [a + b]) = ((a + b).choose b : p.Field) := by
  have hzero : index [a - p.val * 0 + (b - 0), 0] = index [a + b] := by
    rw [Nat.mul_zero, Nat.sub_zero, Nat.sub_zero, index_cons, index_cons (a + b)]
    simp [index_cons, raise]
  rw [powerSum_single hp, Finsupp.finsetSum_apply, Finset.sum_eq_single_of_mem 0 (by simp)]
  · rw [hzero, Finsupp.single_eq_same, Nat.mul_zero, Nat.sub_zero, Nat.sub_zero]
  · intro i _ hi
    refine Finsupp.single_eq_of_ne fun h => hi ?_
    have h₁ := DFunLike.congr_fun h 1
    exact h₁.symm

theorem weight_of_powerSum_ne_zero {R S : List ℕ} {T : ℕ →₀ ℕ} (h : powerSum p (powerProduct p R S) T ≠ 0) :
    weight p T = weight p (index R) + weight p (index S) := by
  have hmem : ∃ t ∈ powerProduct p R S, index t.2 = T := by
    by_contra hnone
    refine h ?_
    have hlist : ∀ l : List (ℕ × List ℕ), (∀ t ∈ l, index t.2 ≠ T) → powerSum p l T = 0 := by
      intro l hl
      induction l with
      | nil => rfl
      | cons t l ih =>
        rw [powerSum_cons, Finsupp.add_apply, Finsupp.single_eq_of_ne (Ne.symm (hl t (by simp))), zero_add,
          ih fun u hu => hl u (by simp [hu])]
    exact hlist _ fun t ht hT => hnone ⟨t, ht, hT⟩
  obtain ⟨t, ht, rfl⟩ := hmem
  exact weight_of_mem_powerProduct ht

theorem weight_raise (T : ℕ →₀ ℕ) : weight p (raise T) = weigh p.val p.val T + weight p T := by
  have hraise : weight p (raise T) = T.sum fun i r => r * placeWeight p (i + 1) :=
    Finsupp.sum_mapDomain_index (fun _ => Nat.zero_mul _) fun _ _ _ => Nat.add_mul _ _ _
  rw [hraise, weigh, weight, Finsupp.sum, Finsupp.sum, Finsupp.sum, ← Finset.sum_add_distrib]
  refine Finset.sum_congr rfl fun i _ => ?_
  rw [placeWeight_succ]
  ring

/-- The weight of a sequence is that of its two factors. -/
theorem weight_index_cons (r : ℕ) (S : List ℕ) :
    weight p (index (r :: S)) = weigh p.val 1 (index (r :: S)) + weight p (index S) := by
  rw [index_cons, weight_add, weight_single, weight_raise, ← index_cons, weigh_index_cons]
  simp [placeWeight]
  ring

theorem degree_le_weight (T : ℕ →₀ ℕ) : T.degree ≤ weight p T :=
  Finset.sum_le_sum fun i _ => Nat.le_mul_of_pos_right _ (placeWeight_pos i)

theorem foldr_eq_weigh (w : ℕ) (R : List ℕ) : w * R.foldr (fun r acc => r + p.val * acc) 0 = weigh p.val w (index R) := by
  induction R generalizing w with
  | nil => simp [weigh]
  | cons r R ih => rw [List.foldr_cons, Nat.mul_add, ← Nat.mul_assoc, ih, weigh_index_cons]

theorem weight_index_pair (r j : ℕ) : weight p (index [r, j]) = r + (p.val + 1) * j := by
  rw [weight_index_cons, weigh_index_pair, weight_index_single]
  ring

/-- The exponents of the two factors in whose product `P(R)` is the leading term; nothing for a generator. -/
def factors (p : Prime) : List ℕ → Option (ℕ × List ℕ)
  | [] => none
  | [n] => if n = powerIn p n then none else some (powerIn p n, [n - powerIn p n])
  | r :: rest => some ((r :: rest).foldr (fun r acc => r + p.val * acc) 0, rest)

/-- How late a sequence of weight `n` comes when others are solved for: first those that occur together with the power of the
prime in `n`, then `n` itself, then the others by the sum of their exponents. -/
noncomputable def lateness (p : Prime) (n : ℕ) (T : ℕ →₀ ℕ) : ℕ :=
  if T = Finsupp.single 0 n then n + 1
  else if 0 < T 1 ∧ T 1 ≤ powerIn p n / p.val ∧ T = index [n - (p.val + 1) * T 1, T 1] then T 1
  else 2 * n + 2 - T.degree

theorem eq_single_of_powerIn {n : ℕ} (hn : 0 < n) (h : n = powerIn p n) : ∃ v, n = p.val ^ v := by
  obtain ⟨⟨v, hv⟩, _, _⟩ := powerIn_spec (p := p) hn
  exact ⟨v, h.trans hv⟩

theorem powerIn_le {n : ℕ} (hn : 0 < n) : powerIn p n ≤ n := Nat.le_of_dvd hn (powerIn_spec (p := p) hn).2.1

/-- What is to be solved for before `P(R)` comes earlier, and is no generator. -/
structure SolvedBefore (p : Prime) (R : List ℕ) (a : ℕ) (S : List ℕ) : Prop where
  ne_zero : powerSum p (powerProduct p [a] S) (index R) ≠ 0
  lateness_lt : ∀ T, powerSum p (powerProduct p [a] S) T ≠ 0 → T ≠ index R →
    lateness p (weight p (index R)) T < lateness p (weight p (index R)) (index R)
  ne_single : ∀ T, powerSum p (powerProduct p [a] S) T ≠ 0 → T ≠ index R → ∀ v, T ≠ Finsupp.single 0 (p.val ^ v)

theorem solvedBefore_single (hp : p.val ≤ 2147483648) {n : ℕ} (hn : 0 < n) :
    SolvedBefore p [n] (powerIn p n) [n - powerIn p n] := by
  have hle := powerIn_le (p := p) hn
  have hsum : powerIn p n + (n - powerIn p n) = n := Nat.add_sub_cancel' hle
  have hpair : ∀ T, powerSum p (powerProduct p [powerIn p n] [n - powerIn p n]) T ≠ 0 → T ≠ index [n] →
      0 < T 1 ∧ T 1 ≤ powerIn p n / p.val ∧ T = index [n - (p.val + 1) * T 1, T 1] := by
    intro T hT hTn
    obtain ⟨hmin, heq⟩ := exists_pair_of_powerSum_ne_zero hp hT
    have hdiv : T 1 ≤ powerIn p n / p.val := hmin.trans (min_le_left _ _)
    have hmul : p.val * T 1 ≤ powerIn p n := by
      rw [Nat.mul_comm]
      exact (Nat.le_div_iff_mul_le p.pos).mp hdiv
    have hright : T 1 ≤ n - powerIn p n := hmin.trans (min_le_right _ _)
    have hentry : powerIn p n - p.val * T 1 + (n - powerIn p n - T 1) = n - (p.val + 1) * T 1 := by
      rw [Nat.add_one_mul]
      omega
    rw [hentry] at heq
    refine ⟨Nat.pos_of_ne_zero fun hzero => hTn ?_, hdiv, heq⟩
    rw [heq, hzero, Nat.mul_zero, Nat.sub_zero, index_cons, index_cons n]
    simp [index_cons, raise]
  have hsingle : index [n] 1 = 0 := rfl
  refine ⟨?_, fun T hT hTn => ?_, fun T hT hTn v heq => ?_⟩
  · have hadd := powerSum_single_add hp (powerIn p n) (n - powerIn p n)
    rw [hsum, Nat.choose_symm hle] at hadd
    rw [hadd]
    exact (powerIn_spec hn).2.2
  · obtain ⟨hpos, hdiv, heq⟩ := hpair T hT hTn
    have hne : T ≠ Finsupp.single 0 n := fun h => hTn (h.trans (index_single n).symm)
    rw [weight_index_single, lateness, if_neg hne, if_pos ⟨hpos, hdiv, heq⟩, lateness, if_pos (index_single n)]
    have := Nat.div_le_self (powerIn p n) p.val
    omega
  · obtain ⟨hpos, _, _⟩ := hpair T hT hTn
    rw [heq, Finsupp.single_eq_of_ne (by omega)] at hpos
    exact absurd hpos (lt_irrefl 0)

theorem trimmed_pair (r : ℕ) {j : ℕ} (hj : 0 < j) : Trimmed [r, j] := by
  simp [Trimmed, trim, Nat.ne_of_gt hj]

/-- The terms of the product of two powers, other than the leading one and the power of one number. -/
theorem pair_of_powerSum_ne_zero (hp : p.val ≤ 2147483648) {r j n : ℕ} (hn : n = r + (p.val + 1) * j) {T : ℕ →₀ ℕ}
    (h : powerSum p (powerProduct p [weigh p.val 1 (index [r, j])] [j]) T ≠ 0) (hT : T ≠ index [r, j])
    (hsingle : T ≠ Finsupp.single 0 n) : 0 < T 1 ∧ T 1 < j ∧ T = index [n - (p.val + 1) * T 1, T 1] := by
  rw [weigh_index_pair] at h
  obtain ⟨hmin, heq⟩ := exists_pair_of_powerSum_ne_zero hp h
  have hle : T 1 ≤ j := hmin.trans (min_le_right _ _)
  have hmul := Nat.mul_le_mul_left p.val hle
  have hentry : r + p.val * j - p.val * T 1 + (j - T 1) = n - (p.val + 1) * T 1 := by
    rw [hn, Nat.add_one_mul, Nat.add_one_mul]
    omega
  rw [hentry] at heq
  refine ⟨Nat.pos_of_ne_zero fun hzero => hsingle ?_, lt_of_le_of_ne hle fun hj => hT ?_, heq⟩
  · rw [heq, hzero, Nat.mul_zero, Nat.sub_zero, index_cons]
    simp [index_cons, raise]
  · rw [heq, hj, hn, Nat.add_sub_cancel]

section Cons

variable {r : ℕ} {S : List ℕ} (hR : Trimmed (r :: S)) (hS : S ≠ [])

include hR hS

theorem index_cons_ne_single (n : ℕ) : index (r :: S) ≠ Finsupp.single 0 n := fun h =>
  hR.tail.index_ne_zero hS (Finsupp.ext fun i => by
    have hi := DFunLike.congr_fun h (i + 1)
    rwa [Finsupp.single_eq_of_ne (by omega)] at hi)

/-- A power of one number occurs only in the product of two of them. -/
theorem eq_pair_of_powerSum_single (hp : p.val ≤ 2147483648) {m : ℕ}
    (h : powerSum p (powerProduct p [weigh p.val 1 (index (r :: S))] S) (Finsupp.single 0 m) ≠ 0) :
    ∃ j, S = [j] ∧ 0 < j ∧ m = r + p.val * j + j ∧ (m.choose j : p.Field) ≠ 0 := by
  obtain ⟨top, row, hT, hlen, _, hsum⟩ := exists_row_of_powerSum_ne_zero hp h
  obtain ⟨x, xs, rfl⟩ := List.exists_cons_of_length_eq_add_one hlen
  have hzero : ∀ i, index top (i + 1) = 0 ∧ index xs i = 0 := fun i => by
    have hi := DFunLike.congr_fun hT (i + 1)
    rw [Finsupp.single_eq_of_ne (by omega), Finsupp.add_apply] at hi
    exact Nat.add_eq_zero_iff.mp hi.symm
  have hS₀ : index S = index [index S 0] := by
    refine ext_raise rfl fun i => ?_
    rw [hsum, List.tail_cons, Finsupp.add_apply, (hzero i).1, (hzero (i + 1)).2]
    rfl
  have hj : 0 < index S 0 := Nat.pos_of_ne_zero fun hzero => hR.tail.index_ne_zero hS (by
    rw [hS₀, hzero, index_single, Finsupp.single_zero])
  obtain ⟨j, hj'⟩ : ∃ j, j = index S 0 := ⟨_, rfl⟩
  rw [← hj'] at hS₀ hj
  obtain rfl : S = [j] := hR.tail.eq (by simp [Trimmed, trim, Nat.ne_of_gt hj]) hS₀
  have hweigh := weigh_index_pair (p := p) r j
  have hm : m = r + p.val * j + j := by
    have hweight := weight_of_powerSum_ne_zero h
    rw [weight_single, weight_index_single, weight_index_single, hweigh] at hweight
    simpa [placeWeight] using hweight
  rw [hweigh, hm, ← index_single, powerSum_single_add hp, ← hm] at h
  exact ⟨j, rfl, hj, hm, h⟩

theorem solvedBefore_cons (hp : p.val ≤ 2147483648) : SolvedBefore p (r :: S) (weigh p.val 1 (index (r :: S))) S := by
  have hweight := weight_index_cons (p := p) r S
  refine ⟨by rw [powerSum_leading hp]; exact one_ne_zero, fun T hne hTR => ?_, fun T hne _ v hv => ?_⟩
  · have hdegree := degree_lt_of_powerSum_ne_zero hp hne hTR
    have hTn := degree_le_weight (p := p) T
    rw [weight_of_powerSum_ne_zero hne, weight_index_single, ← hweight] at hTn
    obtain ⟨n, hn⟩ : ∃ n, n = weight p (index (r :: S)) := ⟨_, rfl⟩
    rw [← hn] at hTn ⊢
    have hpos : 0 < n := by omega
    have hpow := powerIn_le (p := p) hpos
    have hRsingle := index_cons_ne_single hR hS n
    by_cases hTsingle : T = Finsupp.single 0 n
    · obtain ⟨j, rfl, hj, _, hchoose⟩ := eq_pair_of_powerSum_single hR hS hp (hTsingle ▸ hne)
      have hlarge : powerIn p n ≤ j := by
        by_contra hlt
        exact hchoose (choose_eq_zero_of_lt_powerIn hj (not_le.mp hlt))
      have hdiv : powerIn p n / p.val < powerIn p n :=
        Nat.div_lt_self (Nat.pos_of_dvd_of_pos (powerIn_spec hpos).2.1 hpos) p.two_le
      have hlate : ¬(0 < index [r, j] 1 ∧ index [r, j] 1 ≤ powerIn p n / p.val ∧
          index [r, j] = index [n - (p.val + 1) * index [r, j] 1, index [r, j] 1]) := by
        rw [index_pair_one]
        omega
      rw [lateness, if_pos hTsingle, lateness, if_neg hRsingle, if_neg hlate]
      omega
    · rw [lateness, if_neg hTsingle, lateness, if_neg hRsingle]
      have hdiv := Nat.div_le_self (powerIn p n) p.val
      by_cases hR₁ : 0 < index (r :: S) 1 ∧ index (r :: S) 1 ≤ powerIn p n / p.val ∧
          index (r :: S) = index [n - (p.val + 1) * index (r :: S) 1, index (r :: S) 1]
      · obtain ⟨j, hj⟩ : ∃ j, j = index (r :: S) 1 := ⟨_, rfl⟩
        rw [if_pos hR₁]
        rw [← hj] at hR₁ ⊢
        obtain ⟨rfl, rfl⟩ := List.cons.inj (hR.eq (trimmed_pair _ hR₁.1) hR₁.2.2)
        rw [weight_index_pair] at hn
        obtain ⟨hpos₁, hlt, heq⟩ := pair_of_powerSum_ne_zero hp hn hne hTR hTsingle
        rw [if_pos ⟨hpos₁, hlt.le.trans hR₁.2.1, heq⟩]
        exact hlt
      · rw [if_neg hR₁]
        split <;> omega
  · obtain ⟨j, _, hj, hm, hchoose⟩ := eq_pair_of_powerSum_single hR hS hp (hv ▸ hne)
    have hpos := Nat.mul_pos p.pos hj
    exact hchoose ((ZMod.natCast_eq_zero_iff _ _).mpr (p.prime.dvd_choose_pow (by omega) (by omega)))

end Cons

end Milnor
end Steenrod
