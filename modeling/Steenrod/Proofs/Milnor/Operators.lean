import Steenrod.Proofs.Milnor.Degree
/-!
Operators that multiply as the elements `Q_k` and `P(R)` do. Main statement: the products of such operators for all
elements `Q(E) P(R)` are given by the product of basis elements.
-/
namespace Steenrod
namespace Milnor

variable {p : Prime}

theorem sum_filterMap {α β K : Type} [AddCommMonoid K] (f : α → Option β) (g : β → K) (l : List α) :
    ((l.filterMap f).map g).sum = (l.map fun i => ((f i).map g).getD 0).sum := by
  induction l with
  | nil => rfl
  | cons a l ih => cases h : f a <;> simp [h, ih]

theorem sum_flatMap {α β K : Type} [AddCommMonoid K] (f : α → List β) (g : β → K) (l : List α) :
    ((l.flatMap f).map g).sum = (l.map fun a => ((f a).map g).sum).sum := by
  induction l with
  | nil => rfl
  | cons a l ih => simp [ih]

theorem sum_powerSum {K : Type} [AddCommGroup K] [Module p.Field K] (f : (ℕ →₀ ℕ) → K) (terms : List (ℕ × List ℕ)) :
    ((powerSum p terms).sum fun T c => c • f T) = (terms.map fun t => (t.1 : p.Field) • f (index t.2)).sum := by
  induction terms with
  | nil => rfl
  | cons t terms ih =>
    have hsingle : ((Finsupp.single (index t.2) (t.1 : p.Field)).sum fun T c => c • f T) = (t.1 : p.Field) • f (index t.2) :=
      Finsupp.sum_single_index (zero_smul _ _)
    have hadd : ((Finsupp.single (index t.2) (t.1 : p.Field) + powerSum p terms).sum fun T c => c • f T) =
        ((Finsupp.single (index t.2) (t.1 : p.Field)).sum fun T c => c • f T) + (powerSum p terms).sum fun T c => c • f T :=
      Finsupp.sum_add_index' (fun _ => zero_smul _ _) fun _ _ _ => add_smul _ _ _
    rw [powerSum_cons, hadd, ih, hsingle, List.map_cons, List.sum_cons]

/-- Operators that multiply as the elements `Q_k` and `P(R)` do, in degrees below a bound. -/
structure Operators (p : Prime) (bound : ℕ) (K : Type) [Ring K] [Module p.Field K] where
  exterior : ℕ → K
  power : (ℕ →₀ ℕ) → K
  power_zero : power 0 = 1
  power_mul : ∀ R S : List ℕ, step p * (weight p (index R) + weight p (index S)) < bound →
    power (index R) * power (index S) = (powerSum p (powerProduct p R S)).sum fun T c => c • power T
  exterior_mul : p.isOdd → ∀ j k, tauDegree p j + tauDegree p k < bound →
    exterior j * exterior k = -(exterior k * exterior j)
  power_mul_exterior : p.isOdd → ∀ R k, step p * weight p R + tauDegree p k < bound →
    power R * exterior k = exterior k * power R +
      ∑ i ∈ R.support, if p.val ^ k ≤ R i then exterior (k + i + 1) * power (R - Finsupp.single i (p.val ^ k)) else 0

namespace Operators

variable {bound : ℕ} {K : Type} [Ring K] [Module p.Field K]

theorem exterior_mul_self (O : Operators p bound K) (hodd : p.isOdd) {k : ℕ} (h : 2 * tauDegree p k < bound) :
    O.exterior k * O.exterior k = 0 := by
  have hanti := O.exterior_mul hodd k k (by omega)
  have htwo : ((2 : ℕ) : p.Field) ≠ 0 := by
    have hne : p.val ≠ 2 := by simpa [Prime.isOdd] using hodd
    have := p.two_le
    rw [Ne, p.cast_eq_zero_iff (by omega)]
    omega
  have hsum : ((2 : ℕ) : p.Field) • (O.exterior k * O.exterior k) = 0 := by
    rw [Nat.cast_smul_eq_nsmul, two_nsmul]
    exact add_eq_zero_iff_eq_neg.mpr hanti
  exact (smul_eq_zero.mp hsum).resolve_left htwo

/-- `Q(E)` for a list of indices. -/
def exteriors (O : Operators p bound K) (ks : List ℕ) : K := (ks.map O.exterior).prod

/-- `Q(E) P(R)`. -/
noncomputable def element (O : Operators p bound K) (x : MilnorElement) : K :=
  O.exteriors (members x.exterior) * O.power (index x.exponents)

noncomputable def value (O : Operators p bound K) (x : Monomial) : K :=
  (x.coefficient : p.Field) • O.element ⟨x.exterior, x.exponents⟩

@[simp] theorem exteriors_nil (O : Operators p bound K) : O.exteriors [] = 1 := rfl

@[simp] theorem exteriors_cons (O : Operators p bound K) (k : ℕ) (ks : List ℕ) :
    O.exteriors (k :: ks) = O.exterior k * O.exteriors ks := by simp [exteriors]

theorem exteriors_append (O : Operators p bound K) (ks ls : List ℕ) :
    O.exteriors (ks ++ ls) = O.exteriors ks * O.exteriors ls := by simp [exteriors]

variable [SMulCommClass p.Field K K]

theorem exteriors_mul_exterior (O : Operators p bound K) (hodd : p.isOdd) {ks : List ℕ} {j : ℕ}
    (h : ∀ k ∈ ks, tauDegree p k + tauDegree p j < bound) :
    O.exteriors ks * O.exterior j = (-1 : p.Field) ^ ks.length • (O.exterior j * O.exteriors ks) := by
  induction ks with
  | nil => simp
  | cons k ks ih =>
    calc O.exteriors (k :: ks) * O.exterior j
        = O.exterior k * (O.exteriors ks * O.exterior j) := by rw [exteriors_cons, mul_assoc]
      _ = (-1 : p.Field) ^ ks.length • (O.exterior k * O.exterior j * O.exteriors ks) := by
          rw [ih fun l hl => h l (by simp [hl]), mul_smul_comm, mul_assoc]
      _ = (-1 : p.Field) ^ ks.length • (-(O.exterior j * O.exteriors (k :: ks))) := by
          rw [O.exterior_mul hodd k j (h k (by simp)), neg_mul, exteriors_cons, mul_assoc]
      _ = (-1 : p.Field) ^ (k :: ks).length • (O.exterior j * O.exteriors (k :: ks)) := by
          rw [List.length_cons, pow_succ, mul_neg_one, neg_smul, smul_neg]

theorem exteriors_mul_of_mem (O : Operators p bound K) (hodd : p.isOdd) {ks : List ℕ} {j : ℕ} (hj : j ∈ ks)
    (h : ∀ k ∈ ks, tauDegree p k + tauDegree p j < bound) : O.exteriors ks * O.exterior j = 0 := by
  obtain ⟨left, right, rfl⟩ := List.append_of_mem hj
  have hself := h j hj
  rw [exteriors_append, exteriors_cons, mul_assoc, mul_assoc,
    O.exteriors_mul_exterior hodd fun k hk => h k (by simp [hk]), mul_smul_comm, ← mul_assoc (O.exterior j),
    O.exterior_mul_self hodd (by omega), zero_mul, smul_zero, mul_zero]

/-- Moving `Q_j` to its place among factors in increasing order. -/
theorem exteriors_mul_insert (O : Operators p bound K) (hodd : p.isOdd) {l : List ℕ} (hl : l.Pairwise (· < ·))
    {s t : ℕ → Bool} {j : ℕ} (hj : j ∈ l) (hs : s j = false) (ht : ∀ k, t k = (s k || decide (j = k)))
    (h : ∀ k ∈ l.filter s, tauDegree p k + tauDegree p j < bound) :
    O.exteriors (l.filter s) * O.exterior j =
      (-1 : p.Field) ^ ((l.filter s).filter (j < ·)).length • O.exteriors (l.filter t) := by
  induction l with
  | nil => simp at hj
  | cons k l ih =>
    obtain ⟨hk, hl⟩ := List.pairwise_cons.mp hl
    rcases List.mem_cons.mp hj with rfl | hj
    · -- All that follows is above `j`.
      have habove : (l.filter s).filter (j < ·) = l.filter s :=
        List.filter_eq_self.mpr fun i hi => by simpa using hk i (List.mem_of_mem_filter hi)
      have hsame : l.filter t = l.filter s := List.filter_congr fun i hi => by
        have := hk i hi
        rw [ht, decide_eq_false (by omega), Bool.or_false]
      rw [List.filter_cons_of_neg (by simp [hs]), List.filter_cons_of_pos (by simp [ht]), habove, hsame, exteriors_cons]
      exact O.exteriors_mul_exterior hodd fun i hi => h i (by rwa [List.filter_cons_of_neg (by simp [hs])])
    · have hlt : k < j := hk j hj
      have hkt : t k = s k := by rw [ht, decide_eq_false (by omega), Bool.or_false]
      by_cases hks : s k
      · rw [List.filter_cons_of_pos hks, List.filter_cons_of_pos (hkt.trans hks), exteriors_cons, exteriors_cons, mul_assoc,
          ih hl hj fun i hi => h i (by rw [List.filter_cons_of_pos hks]; exact List.mem_cons_of_mem k hi), mul_smul_comm,
          List.filter_cons_of_neg (by simp; omega)]
      · have hks' : ¬t k = true := by rwa [hkt]
        rw [List.filter_cons_of_neg hks, List.filter_cons_of_neg hks']
        exact ih hl hj fun i hi => h i (by rwa [List.filter_cons_of_neg hks])

variable [IsScalarTower p.Field K K]

theorem value_wedge (O : Operators p bound K) (hodd : p.isOdd) {x : Monomial} {j : ℕ} (hj : j < 32)
    (h : ∀ k ∈ members x.exterior, tauDegree p k + tauDegree p j < bound) (R : List ℕ) :
    (((x.wedge p j R).map O.value).getD 0) =
      (x.coefficient : p.Field) • (O.exteriors (members x.exterior) * O.exterior j * O.power (index R)) := by
  unfold Monomial.wedge
  by_cases hbit : x.exterior.testBit j
  · rw [if_pos hbit, O.exteriors_mul_of_mem hodd (mem_members.mpr ⟨hj, hbit⟩) h]
    simp
  · rw [if_neg hbit]
    have hmove : O.exteriors (members x.exterior) * O.exterior j =
        (-1 : p.Field) ^ countAbove x.exterior j • O.exteriors (members (x.exterior ||| 1 <<< j)) :=
      O.exteriors_mul_insert hodd List.pairwise_lt_range (List.mem_range.mpr hj) (by simpa using hbit)
        (testBit_insert x.exterior j) h
    have hsign : (((if countAbove x.exterior j % 2 = 0 then x.coefficient else p.negate x.coefficient : ℕ)) : p.Field) =
        x.coefficient * (-1) ^ countAbove x.exterior j := by
      split
      · next heven => rw [(Nat.even_iff.mpr heven).neg_one_pow, mul_one]
      · next hne => rw [Prime.cast_negate, (Nat.odd_iff.mpr (by omega)).neg_one_pow, mul_neg_one]
    simp only [Option.map_some, Option.getD_some, value, element, hsign, index_trim]
    rw [hmove, smul_mul_assoc, mul_smul]

theorem sum_toList {M : Type} [AddCommMonoid M] {α : Type} (f : α → M) (x : Option α) :
    (x.toList.map f).sum = (x.map f).getD 0 := by
  cases x <;> simp

/-- The terms of `x Q_k` add up to the product. -/
theorem sum_timesExterior (O : Operators p bound K) (hodd : p.isOdd) (hbound : bound ≤ 2 ^ 32) {x : Monomial} {k : ℕ}
    (h : x.degree p + tauDegree p k < bound) :
    ((x.timesExterior p k).map O.value).sum = O.value x * O.exterior k := by
  unfold Monomial.degree degreeOf at h
  have hroom : ∀ j, tauDegree p j ≤ tauDegree p k + step p * weight p (index x.exponents) →
      j < 32 ∧ ∀ i ∈ members x.exterior, tauDegree p i + tauDegree p j < bound := by
    intro j hj
    refine ⟨lt_of_tauDegree_lt (p := p) (by omega), fun i hi => ?_⟩
    have := List.single_le_sum (fun _ _ => Nat.zero_le _) _ (List.mem_map_of_mem (f := tauDegree p) hi)
    omega
  let c : p.Field := x.coefficient
  let E := O.exteriors (members x.exterior)
  let R := index x.exponents
  -- What `Q_k` leaves behind as it passes entry `i`.
  let F : ℕ → K := fun i =>
    if p.val ^ k ≤ R i then O.exterior (k + i + 1) * O.power (R - Finsupp.single i (p.val ^ k)) else 0
  have hterm : ∀ i < x.exponents.length,
      ((((lower? (Nat.pow p.val k) i x.exponents).bind (x.wedge p (k + i + 1))).map O.value).getD 0) = c • (E * F i) := by
    intro i hi
    by_cases hle : p.val ^ k ≤ R i
    · obtain ⟨S, hS, hindex⟩ := lower?_eq_some hi hle
      have hdim : tauDegree p (k + i + 1) + step p * weight p (index x.exponents - Finsupp.single i (p.val ^ k)) =
          tauDegree p k + step p * weight p (index x.exponents) := tauDegree_add_weight hodd hle
      obtain ⟨hlt, hmem⟩ := hroom (k + i + 1) (by omega)
      rw [Nat.pow_eq, hS, Option.bind_some, O.value_wedge hodd hlt hmem, hindex, mul_assoc]
      simp only [F, if_pos hle, c, E, R]
    · rw [Nat.pow_eq, lower?_eq_none (not_le.mp hle)]
      simp [F, hle]
  have hrange : ∑ i ∈ R.support, F i = ∑ i ∈ Finset.range x.exponents.length, F i := by
    refine Finset.sum_subset (fun i hi => ?_) fun i _ hi => ?_
    · rw [Finset.mem_range]
      by_contra hle
      exact Finsupp.mem_support_iff.mp hi (index_of_length_le (not_lt.mp hle))
    · rw [Finsupp.notMem_support_iff] at hi
      have hpos : 0 < p.val ^ k := Nat.pow_pos p.pos
      exact if_neg (by rw [hi]; omega)
  obtain ⟨hlt, hmem⟩ := hroom k (by omega)
  calc ((x.timesExterior p k).map O.value).sum
      = c • (E * O.exterior k * O.power R) + ((List.range x.exponents.length).map fun i => c • (E * F i)).sum := by
        rw [Monomial.timesExterior, List.map_append, List.sum_append, sum_toList, sum_filterMap,
          O.value_wedge hodd hlt hmem]
        congr 2
        exact List.map_congr_left fun i hi => hterm i (List.mem_range.mp hi)
    _ = c • (E * O.exterior k * O.power R) + c • (E * ∑ i ∈ R.support, F i) := by
        rw [hrange, Finset.mul_sum, Finset.smul_sum, ← List.sum_toFinset _ List.nodup_range, List.toFinset_range]
    _ = c • (E * (O.exterior k * O.power R + ∑ i ∈ R.support, F i)) := by rw [← smul_add, mul_add, mul_assoc]
    _ = O.value x * O.exterior k := by
        rw [← O.power_mul_exterior hodd R k (by simp only [R]; omega), value, element, smul_mul_assoc, mul_assoc]

theorem sum_foldl_timesExterior (O : Operators p bound K) (hodd : p.isOdd) (hbound : bound ≤ 2 ^ 32) {ks : List ℕ} {d : ℕ}
    (h : d + (ks.map (tauDegree p)).sum < bound) {xs : List Monomial} (hxs : ∀ x ∈ xs, x.LiesIn p d) :
    ((ks.foldl (fun xs k => xs.flatMap (Monomial.timesExterior p · k)) xs).map O.value).sum =
      (xs.map O.value).sum * O.exteriors ks := by
  induction ks generalizing d xs with
  | nil => simp
  | cons k ks ih =>
    rw [List.map_cons, List.sum_cons] at h
    have hsum : ((xs.flatMap (Monomial.timesExterior p · k)).map O.value).sum = (xs.map O.value).sum * O.exterior k := by
      rw [sum_flatMap, ← List.sum_map_mul_right]
      congr 1
      exact List.map_congr_left fun x hx => O.sum_timesExterior hodd hbound (by rw [(hxs x hx).degree_eq]; omega)
    rw [List.foldl_cons, ih (by omega) (liesIn_of_mem_flatMap hodd (by omega) hxs), hsum, exteriors_cons, mul_assoc]

theorem sum_timesExteriors (O : Operators p bound K) (hbound : bound ≤ 2 ^ 32) {a b : MilnorElement} (ha : a.Proper p)
    (hb : b.Proper p) (h : a.degree p + ((members b.exterior).map (tauDegree p)).sum < bound) :
    ((Monomial.timesExteriors p ⟨1, a.exterior, a.exponents⟩ b.exterior).map O.value).sum =
      O.element a * O.exteriors (members b.exterior) := by
  have hone : O.value ⟨1, a.exterior, a.exponents⟩ = O.element a := by rw [value, Nat.cast_one, one_smul]
  have hstart : Monomial.LiesIn p (a.degree p) ⟨1, a.exterior, a.exponents⟩ := ⟨rfl, ha.exterior_lt⟩
  cases hodd : p.isOdd with
  | true =>
    rw [Monomial.timesExteriors, O.sum_foldl_timesExterior hodd hbound h (by simpa using hstart), List.map_singleton,
      List.sum_singleton, hone]
  | false =>
    have hnone : members 0 = [] := by decide
    rw [hb.exterior_eq_zero hodd, timesExteriors_zero, hnone]
    simp [hone]

/-- Milnor's product formula for all basis elements. -/
theorem sum_product (O : Operators p bound K) (hbound : bound ≤ 2 ^ 32) {a b : MilnorElement} (ha : a.Proper p)
    (hb : b.Proper p) (h : a.degree p + b.degree p < bound) :
    ((product p a b).map fun t => (t.1 : p.Field) • O.element t.2).sum = O.element a * O.element b := by
  have hdegree : b.degree p = ((members b.exterior).map (tauDegree p)).sum + step p * weight p (index b.exponents) := rfl
  have hterm : ∀ x ∈ Monomial.timesExteriors p ⟨1, a.exterior, a.exponents⟩ b.exterior,
      ((((powerProduct p x.exponents b.exponents).map fun t => (p.product x.coefficient t.1,
        (⟨x.exterior, t.2⟩ : MilnorElement))).map fun t => (t.1 : p.Field) • O.element t.2).sum) =
        O.value x * O.power (index b.exponents) := by
    intro x hx
    have hx : ((members x.exterior).map (tauDegree p)).sum + step p * weight p (index x.exponents) =
        a.degree p + ((members b.exterior).map (tauDegree p)).sum :=
      (liesIn_of_mem_timesExteriors ha hb (by omega) x hx).degree_eq
    have hpower := O.power_mul x.exponents b.exponents (by rw [Nat.mul_add]; omega)
    rw [value, element, smul_mul_assoc, mul_assoc, hpower, sum_powerSum, ← List.sum_map_mul_left, List.smul_sum,
      List.map_map, List.map_map]
    congr 1
    refine List.map_congr_left fun t _ => ?_
    simp only [Function.comp_apply, Prime.cast_product, element]
    rw [mul_smul, mul_smul_comm]
  rw [product, sum_flatMap, List.map_congr_left hterm, List.sum_map_mul_right, O.sum_timesExteriors hbound ha hb (by omega),
    element, element, mul_assoc]

end Operators

end Milnor
end Steenrod
