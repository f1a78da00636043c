import Steenrod.Proofs.Milnor.Dual
/-!
Degrees of the elements `Q(E) P(R)`. Main statement: the terms of a product are basis elements
in the degree of the product.
-/
namespace Steenrod
namespace Milnor

variable {p : Prime}

/-- The degree of `Q_k`. -/
def tauDegree (p : Prime) (k : ℕ) : ℕ := 2 * p.val ^ k - 1

/-- The degree of `ξ_{i+1}` divided by `q`. -/
def placeWeight (p : Prime) (i : ℕ) : ℕ := ∑ j ∈ Finset.range (i + 1), p.val ^ j

/-- The degree of `P(R)` divided by `q`. -/
noncomputable def weight (p : Prime) (R : ℕ →₀ ℕ) : ℕ := R.sum fun i r => r * placeWeight p i

/-- The degree of `P(1)`. -/
def step (p : Prime) : ℕ := if p.isOdd then 2 * p.val - 2 else 1

theorem weight_add (R S : ℕ →₀ ℕ) : weight p (R + S) = weight p R + weight p S :=
  Finsupp.sum_add_index' (fun _ => Nat.zero_mul _) fun _ _ _ => Nat.add_mul _ _ _

theorem weight_single (i r : ℕ) : weight p (Finsupp.single i r) = r * placeWeight p i :=
  Finsupp.sum_single_index (Nat.zero_mul _)

theorem weight_zero : weight p 0 = 0 := rfl

theorem placeWeight_add (i j : ℕ) :
    placeWeight p (i + j) = p.val ^ j * placeWeight p i + ∑ k ∈ Finset.range j, p.val ^ k := by
  rw [placeWeight, (by omega : i + j + 1 = j + (i + 1)), Finset.sum_range_add, placeWeight, Finset.mul_sum, Nat.add_comm]
  congr 1
  exact Finset.sum_congr rfl fun k _ => pow_add _ _ _

/-- The sums of the diagonals of a matrix have the weight of its rows and columns together. -/
theorem weight_place (Z : Slot →₀ ℕ) :
    weight p (Z.mapDomain Slot.place) = weight p (rowSum p.val Z) + weight p (columnSum Z) := by
  induction Z using Finsupp.induction_linear with
  | zero => simp [rowSum, columnSum, weight]
  | add Y Z hY hZ =>
    rw [Finsupp.mapDomain_add, weight_add, hY, hZ, rowSum_add, columnSum_add, weight_add, weight_add]
    omega
  | single x k =>
    rw [Finsupp.mapDomain_single, weight_single]
    rcases x with l | ⟨i, _ | j⟩
    · rw [rowSum_single_inl, columnSum_single_inl, weight_single, weight_zero, Nat.zero_add]
      rfl
    · rw [rowSum_single_inr, columnSum_single_zero, weight_single, weight_zero, pow_zero, Nat.one_mul]
      rfl
    · rw [rowSum_single_inr, columnSum_single_succ, weight_single, weight_single]
      have h : placeWeight p (i + (j + 1)) = p.val ^ (j + 1) * placeWeight p i + placeWeight p j := placeWeight_add i (j + 1)
      simp only [Slot.place, Sum.elim_inr, h]
      ring

theorem weight_of_mem_powerProduct {R S : List ℕ} {t : ℕ × List ℕ} (h : t ∈ powerProduct p R S) :
    weight p (index t.2) = weight p (index R) + weight p (index S) := by
  obtain ⟨⟨top, below⟩, hm, ht⟩ := List.mem_filterMap.mp h
  have hds : (diagonals ((0 :: top) :: below)).drop 1 = consEach top (diagonals below) := rfl
  simp only [hds, Option.ite_none_left_eq_some, Option.some.injEq] at ht
  obtain ⟨_, rfl⟩ := ht
  rw [index_trim, index_diagonals_cells, weight_place, rowSum_of_mem p.pos hm, columnSum_of_mem p.pos hm]

theorem trimmed_of_mem_powerProduct {R S : List ℕ} {t : ℕ × List ℕ} (h : t ∈ powerProduct p R S) : Trimmed t.2 := by
  obtain ⟨⟨top, below⟩, _, ht⟩ := List.mem_filterMap.mp h
  simp only [Option.ite_none_left_eq_some, Option.some.injEq] at ht
  obtain ⟨_, rfl⟩ := ht
  exact trimmed_trim _

/-- The degree of `Q(E) P(R)`. -/
noncomputable def degreeOf (p : Prime) (mask : ℕ) (exponents : List ℕ) : ℕ :=
  ((members mask).map (tauDegree p)).sum + step p * weight p (index exponents)

noncomputable def Monomial.degree (p : Prime) (x : Monomial) : ℕ := degreeOf p x.exterior x.exponents

end Milnor

namespace MilnorElement

noncomputable def degree (p : Prime) (x : MilnorElement) : ℕ := Milnor.degreeOf p x.exterior x.exponents

/-- The elements in their canonical form, of which the bases consist. -/
structure Proper (p : Prime) (x : MilnorElement) : Prop where
  trimmed : Trimmed x.exponents
  exterior_lt : x.exterior < 2 ^ 32
  exterior_eq_zero : p.isOdd = false → x.exterior = 0

end MilnorElement

namespace Milnor

variable {p : Prime}

theorem mem_members {mask k : ℕ} : k ∈ members mask ↔ k < 32 ∧ mask.testBit k = true := by
  simp [members]

/-- There are exterior factors at odd primes only. -/
theorem isOdd_of_mem {x : MilnorElement} (hx : x.Proper p) {k : ℕ} (hk : k ∈ members x.exterior) : p.isOdd := by
  by_contra heven
  have hbit := (mem_members.mp hk).2
  rw [hx.exterior_eq_zero (by simpa using heven), Nat.zero_testBit] at hbit
  cases hbit

theorem testBit_insert (mask j k : ℕ) : (mask ||| 1 <<< j).testBit k = (mask.testBit k || decide (j = k)) := by
  rw [Nat.testBit_or, Nat.one_shiftLeft, Nat.testBit_two_pow]

theorem three_le (hodd : p.isOdd) : 3 ≤ p.val := by
  have hne : p.val ≠ 2 := by simpa [Prime.isOdd] using hodd
  have := p.two_le
  omega

theorem step_of_isOdd (hodd : p.isOdd) : step p = 2 * p.val - 2 := if_pos hodd

/-- The degrees on the two sides of `P(R) Q_k = Q_k P(R) + Σ_i Q_{k+i+1} P(R - p^k e_i)`. -/
theorem tauDegree_add (hodd : p.isOdd) (k i : ℕ) :
    tauDegree p k + step p * (p.val ^ k * placeWeight p i) = tauDegree p (k + i + 1) := by
  obtain ⟨x, hx⟩ : ∃ x, p.val = x + 1 := ⟨p.val - 1, by have := p.two_le; omega⟩
  have hgeom := geom_sum_mul_add x (i + 1)
  have hpos : 0 < (x + 1) ^ k := Nat.pow_pos (by omega)
  rw [step_of_isOdd hodd, tauDegree, tauDegree, placeWeight, hx, Nat.add_assoc k, pow_add, ← hgeom,
    (by omega : 2 * (x + 1) - 2 = 2 * x)]
  generalize ∑ j ∈ Finset.range (i + 1), (x + 1) ^ j = G
  have hring : 2 * ((x + 1) ^ k * (G * x + 1)) = 2 * (x + 1) ^ k + 2 * x * ((x + 1) ^ k * G) := by ring
  omega

theorem two_pow_le_tauDegree (p : Prime) (k : ℕ) : 2 ^ k ≤ tauDegree p k := by
  have hle : 2 ^ k ≤ p.val ^ k := Nat.pow_le_pow_left p.two_le k
  have hpos : 0 < 2 ^ k := Nat.pow_pos (by decide)
  unfold tauDegree
  omega

theorem lower?_eq_none {n i : ℕ} {xs : List ℕ} (h : index xs i < n) : lower? n i xs = none := by
  induction xs generalizing i with
  | nil => cases i <;> rfl
  | cons x xs ih =>
    cases i with
    | zero => exact if_pos h
    | succ i => rw [lower?, ih h, Option.map_none]

theorem lower?_eq_some {n i : ℕ} {xs : List ℕ} (hi : i < xs.length) (h : n ≤ index xs i) :
    ∃ ys, lower? n i xs = some ys ∧ index ys = index xs - Finsupp.single i n := by
  induction xs generalizing i with
  | nil => simp at hi
  | cons x xs ih =>
    cases i with
    | zero =>
      refine ⟨(x - n) :: xs, if_neg (not_lt.mpr h), ext_raise ?_ fun i => ?_⟩
      · simp [index_apply]
      · simp [index_apply]
    | succ i =>
      obtain ⟨ys, hys, hindex⟩ := ih (by simpa using hi) h
      refine ⟨x :: ys, by rw [lower?, hys, Option.map_some], ext_raise ?_ fun k => ?_⟩
      · simp [index_apply]
      · have hk := DFunLike.congr_fun hindex k
        simpa [index_apply, Finsupp.single_apply] using hk

theorem sum_members (f : ℕ → ℕ) (mask : ℕ) :
    ((members mask).map f).sum = ∑ k ∈ Finset.range 32, if mask.testBit k then f k else 0 := by
  rw [← Finset.sum_filter, members, ← List.sum_toFinset f (List.nodup_range.filter _), List.toFinset_filter,
    List.toFinset_range]

theorem sum_members_insert (f : ℕ → ℕ) {mask j : ℕ} (hj : j < 32) (hbit : mask.testBit j = false) :
    ((members (mask ||| 1 <<< j)).map f).sum = ((members mask).map f).sum + f j := by
  rw [sum_members, sum_members, ← Finset.sum_erase_add _ _ (Finset.mem_range.mpr hj),
    ← Finset.sum_erase_add (a := j) (s := Finset.range 32) (f := fun k => if mask.testBit k then f k else 0) (Finset.mem_range.mpr hj)]
  simp only [testBit_insert, hbit]
  simp
  refine Finset.sum_congr rfl fun k hk => ?_
  have hne := Finset.ne_of_mem_erase hk
  simp [hne.symm]

theorem weight_sub_single {R : ℕ →₀ ℕ} {i n : ℕ} (h : n ≤ R i) :
    weight p (R - Finsupp.single i n) + n * placeWeight p i = weight p R := by
  rw [← weight_single, ← weight_add, tsub_add_cancel_of_le (Finsupp.single_le_iff.mpr h)]

theorem lt_of_tauDegree_lt {j : ℕ} (h : tauDegree p j < 2 ^ 32) : j < 32 :=
  (Nat.pow_lt_pow_iff_right (by decide)).mp (lt_of_le_of_lt (two_pow_le_tauDegree p j) h)

/-- What is lowered for `Q_{k+i+1}` makes room for its degree. -/
theorem tauDegree_add_weight (hodd : p.isOdd) {R : ℕ →₀ ℕ} {i k : ℕ} (h : p.val ^ k ≤ R i) :
    tauDegree p (k + i + 1) + step p * weight p (R - Finsupp.single i (p.val ^ k)) =
      tauDegree p k + step p * weight p R := by
  rw [← tauDegree_add hodd, ← weight_sub_single h, Nat.mul_add]
  omega

/-- The terms of `x Q_k` arise by putting in one more exterior factor, without changing the degree. -/
theorem exists_wedge_of_mem {x y : Monomial} {k : ℕ} (hodd : p.isOdd) (h : y ∈ x.timesExterior p k) :
    ∃ j R, y ∈ x.wedge p j R ∧
      tauDegree p j + step p * weight p (index R) = tauDegree p k + step p * weight p (index x.exponents) := by
  rcases List.mem_append.mp h with h | h
  · exact ⟨k, x.exponents, Option.mem_toList.mp h, rfl⟩
  · obtain ⟨i, hi, h⟩ := List.mem_filterMap.mp h
    obtain ⟨R, hR, h⟩ := Option.bind_eq_some_iff.mp h
    have hle : p.val ^ k ≤ index x.exponents i := by
      by_contra hlt
      rw [Nat.pow_eq, lower?_eq_none (not_le.mp hlt)] at hR
      simp at hR
    obtain ⟨R', hR', hindex⟩ := lower?_eq_some (List.mem_range.mp hi) hle
    obtain rfl : R' = R := Option.some.inj (hR'.symm.trans hR)
    exact ⟨k + i + 1, R', h, by rw [hindex, tauDegree_add_weight hodd hle]⟩

/-- A monomial of degree `d` whose exterior factors are members of its mask. -/
structure Monomial.LiesIn (p : Prime) (d : ℕ) (x : Monomial) : Prop where
  degree_eq : x.degree p = d
  exterior_lt : x.exterior < 2 ^ 32

theorem liesIn_of_mem_timesExterior {x y : Monomial} {k d : ℕ} (hodd : p.isOdd) (hx : x.LiesIn p d)
    (hd : d + tauDegree p k < 2 ^ 32) (h : y ∈ x.timesExterior p k) : y.LiesIn p (d + tauDegree p k) := by
  obtain ⟨j, R, hy, hdegree⟩ := exists_wedge_of_mem hodd h
  have hx₁ : ((members x.exterior).map (tauDegree p)).sum + step p * weight p (index x.exponents) = d := hx.degree_eq
  have hj : j < 32 := lt_of_tauDegree_lt (p := p) (by omega)
  unfold Monomial.wedge at hy
  split at hy
  · simp at hy
  · next hbit =>
    obtain rfl := Option.some.inj hy
    refine ⟨?_, Nat.or_lt_two_pow hx.exterior_lt (by rw [Nat.one_shiftLeft]; exact Nat.pow_lt_pow_right (by decide) hj)⟩
    rw [Monomial.degree, degreeOf, sum_members_insert _ hj (by simpa using hbit), index_trim]
    omega

theorem liesIn_of_mem_flatMap {k d : ℕ} {xs : List Monomial} (hodd : p.isOdd) (hd : d + tauDegree p k < 2 ^ 32)
    (hxs : ∀ x ∈ xs, x.LiesIn p d) : ∀ y ∈ xs.flatMap (Monomial.timesExterior p · k), y.LiesIn p (d + tauDegree p k) := by
  intro y hy
  obtain ⟨x, hx, hy⟩ := List.mem_flatMap.mp hy
  exact liesIn_of_mem_timesExterior hodd (hxs x hx) hd hy

theorem liesIn_of_mem_foldl {ks : List ℕ} {d : ℕ} {xs : List Monomial} (hodd : p.isOdd)
    (h : d + (ks.map (tauDegree p)).sum < 2 ^ 32) (hxs : ∀ x ∈ xs, x.LiesIn p d) :
    ∀ y ∈ ks.foldl (fun xs k => xs.flatMap (Monomial.timesExterior p · k)) xs,
      y.LiesIn p (d + (ks.map (tauDegree p)).sum) := by
  induction ks generalizing d xs with
  | nil => simpa using hxs
  | cons k ks ih =>
    rw [List.map_cons, List.sum_cons] at h ⊢
    rw [List.foldl_cons, ← Nat.add_assoc]
    exact ih (by omega) (liesIn_of_mem_flatMap hodd (by omega) hxs)

theorem timesExteriors_zero (x : Monomial) : x.timesExteriors p 0 = [x] := by
  have hnone : members 0 = [] := by decide
  rw [Monomial.timesExteriors, hnone, List.foldl_nil]

theorem liesIn_of_mem_timesExteriors {a b : MilnorElement} (ha : a.Proper p) (hb : b.Proper p)
    (h : a.degree p + ((members b.exterior).map (tauDegree p)).sum < 2 ^ 32) :
    ∀ y ∈ Monomial.timesExteriors p ⟨1, a.exterior, a.exponents⟩ b.exterior,
      y.LiesIn p (a.degree p + ((members b.exterior).map (tauDegree p)).sum) := by
  have hstart : Monomial.LiesIn p (a.degree p) ⟨1, a.exterior, a.exponents⟩ := ⟨rfl, ha.exterior_lt⟩
  cases hodd : p.isOdd with
  | true => exact liesIn_of_mem_foldl hodd h (by simpa using hstart)
  | false =>
    have hnone : members 0 = [] := by decide
    rw [hb.exterior_eq_zero hodd, timesExteriors_zero, hnone]
    simpa using hstart

/-- The terms of a product are basis elements in the degree of the product. -/
theorem proper_of_mem_product {a b : MilnorElement} (ha : a.Proper p) (hb : b.Proper p)
    (h : a.degree p + b.degree p < 2 ^ 32) {t : ℕ × MilnorElement} (ht : t ∈ product p a b) :
    t.2.Proper p ∧ t.2.degree p = a.degree p + b.degree p := by
  obtain ⟨x, hx, ht⟩ := List.mem_flatMap.mp ht
  obtain ⟨⟨c, T⟩, hT, rfl⟩ := List.mem_map.mp ht
  have hdegree : b.degree p = ((members b.exterior).map (tauDegree p)).sum + step p * weight p (index b.exponents) := rfl
  have hlies := liesIn_of_mem_timesExteriors ha hb (by omega) x hx
  have hxdegree : ((members x.exterior).map (tauDegree p)).sum + step p * weight p (index x.exponents) =
      a.degree p + ((members b.exterior).map (tauDegree p)).sum := hlies.degree_eq
  refine ⟨⟨trimmed_of_mem_powerProduct hT, hlies.exterior_lt, fun heven => ?_⟩, ?_⟩
  · rw [hb.exterior_eq_zero heven, timesExteriors_zero] at hx
    rw [List.mem_singleton.mp hx]
    exact ha.exterior_eq_zero heven
  · calc MilnorElement.degree p ⟨x.exterior, T⟩
        = ((members x.exterior).map (tauDegree p)).sum + step p * weight p (index T) := rfl
      _ = a.degree p + b.degree p := by rw [weight_of_mem_powerProduct hT, Nat.mul_add]; omega

end Milnor
end Steenrod
