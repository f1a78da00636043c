import Steenrod.Proofs.Milnor.Denotation
/-!
Products of basis elements in the degrees where all generators of the dual are tracked. Main statements: every product
that the computed basis has room for is answered; multiplication is associative and has a unit.
-/
namespace Steenrod
namespace Milnor

variable {p : Prime}

theorem proper_one : (⟨0, []⟩ : MilnorElement).Proper p := ⟨rfl, by norm_num, fun _ => rfl⟩

theorem eq_one_of_degree {x : MilnorElement} (hx : x.Proper p) (h : x.degree p = 0) : x = ⟨0, []⟩ := by
  have hdegree : ((members x.exterior).map (tauDegree p)).sum + step p * weight p (index x.exponents) = 0 := h
  have hmembers : members x.exterior = members 0 := by
    refine List.eq_nil_iff_forall_not_mem.mpr fun k hk => ?_
    have := tauDegree_le_of_mem (p := p) hk (d := 0) (by omega)
    have := two_pow_le_tauDegree p k
    have : 0 < 2 ^ k := Nat.pow_pos (by decide)
    omega
  have hweight : weight p (index x.exponents) = 0 := by
    have := step_pos p
    rcases Nat.mul_eq_zero.mp (Nat.eq_zero_of_add_eq_zero_left hdegree) with h | h <;> omega
  exact proper_eq hx proper_one (index_of_weight hweight) hmembers

section Laws

variable {bound : ℕ} {K : Type} [Ring K] [Module p.Field K]

theorem Operators.element_one (O : Operators p bound K) : O.element ⟨0, []⟩ = 1 := by
  have hnone : members 0 = [] := by decide
  rw [Operators.element, hnone, Operators.exteriors_nil, index_nil, O.power_zero, one_mul]

theorem Operators.operator_one (O : Operators p bound K) : O.operator ⟨0, 0⟩ = 1 := by
  rw [O.operator_of_element? (element?_zero p), O.element_one]

end Laws

/-- Below the tracked bound the structure constants are those of an associative algebra with unit. -/
theorem lawfulBelow_tracked (hp : p.val < 1073741824) : LawfulBelow p trackedBelow := by
  let O : Operators p trackedBelow (Faithful p) := Faithful.operators (by omega) trackedBelow
  have hone := Operation.isBasis_one p
  have heq : ∀ {d : ℤ} {f g : ℕ → p.Field}, d < trackedBelow → f ∈ p.space (dim p d) → g ∈ p.space (dim p d) →
      O.denote d f = O.denote d g → f = g := by
    intro d f g hd hf hg h
    have hzero : O.denote d (f - g) = 0 := by rw [map_sub, h, sub_self]
    exact sub_eq_zero.mp (Faithful.denote_injective hp hd (Submodule.sub_mem _ hf hg) hzero)
  refine ⟨fun _ => dim_zero p, fun b hb hlt => ?_, fun b hb hlt => ?_, fun a b c ha hb hc hlt => ?_⟩
  · have hmul := O.denote_mul hp le_rfl hone hb (by simpa using hlt)
    have hmem := mul_mem p ⟨0, 0⟩ b
    simp only [zero_add] at hmul hmem
    refine heq hlt hmem (space_single hb) ?_
    rw [hmul, O.operator_one, one_mul, O.denote_single hb]
  · have hmul := O.denote_mul hp le_rfl hb hone (by simpa using hlt)
    have hmem := mul_mem p b ⟨0, 0⟩
    simp only [add_zero] at hmul hmem
    refine heq hlt hmem (space_single hb) ?_
    rw [hmul, O.operator_one, mul_one, O.denote_single hb]
  · have ha₀ := ha.nonneg
    have hb₀ := hb.nonneg
    have hc₀ := hc.nonneg
    have hdegree : a.degree + b.degree + c.degree = a.degree + (b.degree + c.degree) := by omega
    have hleft := O.denote_combine_left hp le_rfl (show 0 ≤ a.degree + b.degree by omega) hc hlt (mul p a b)
    have hright := O.denote_combine_right hp le_rfl (show 0 ≤ b.degree + c.degree by omega) ha (by omega) (mul p b c)
    rw [O.denote_mul hp le_rfl ha hb (by omega)] at hleft
    rw [O.denote_mul hp le_rfl hb hc (by omega), ← hdegree] at hright
    refine heq hlt ?_ ?_ (hleft.trans ((mul_assoc _ _ _).trans hright.symm))
    · exact combine_mem (fun k _ => mul_mem p ⟨a.degree + b.degree, k⟩ c) _
    · rw [hdegree]
      exact combine_mem (fun k _ => mul_mem p a ⟨b.degree + c.degree, k⟩) _

end Milnor

def Prime.three : Prime := ⟨3, by decide⟩

namespace Algebra

open Vec Milnor

variable {A : Algebra}

theorem foldlM_exists {α : Type} {step : Vec → α → Result Vec} (l : List α) (h : ∀ x ∈ l, ∀ w, ∃ r, step w x = .ok r) (w : Vec) :
    ∃ r, l.foldlM step w = .ok r := by
  induction l generalizing w with
  | nil => exact ⟨w, rfl⟩
  | cons x l ih =>
    obtain ⟨r, hr⟩ := h x (by simp) w
    obtain ⟨s, hs⟩ := ih (fun y hy => h y (by simp [hy])) r
    exact ⟨s, by rw [List.foldlM_cons, hr]; exact hs⟩

/-- Every term of a product of degrees below the tracked bound is found in the basis. -/
theorem exists_multiply_tracked (hp : A.prime.val < 1073741824) {a b : Operation} (ha : a.IsBasis A.prime)
    (hb : b.IsBasis A.prime) (h : a.degree + b.degree < A.computed) (ht : a.degree + b.degree < trackedBelow) (c : ℕ) :
    ∃ u, A.multiply c a b = .ok u := by
  have ha₀ := ha.nonneg
  have hb₀ := hb.nonneg
  obtain ⟨x, hx, hx'⟩ := element_of_isBasis ha (by omega)
  obtain ⟨y, hy, hy'⟩ := element_of_isBasis hb (by omega)
  obtain ⟨hxp, hxd⟩ := proper_of_element? hp hx' (by omega)
  obtain ⟨hyp, hyd⟩ := proper_of_element? hp hy' (by omega)
  have htracked : trackedBelow < 2 ^ 32 := by decide
  rw [multiply, multiplyModulo, hx, hy, dimension_of_lt h]
  refine foldlM_exists (product A.prime x y) (fun t hmem w => ?_) _
  obtain ⟨hproper, hdegree⟩ := proper_of_mem_product hxp hyp (by omega) hmem
  obtain ⟨i, hi⟩ := exists_element?_eq hp hproper (by omega)
  have hcast : a.degree + b.degree = t.2.degree A.prime := by omega
  have hindex : A.indexIn (a.degree + b.degree) t.2 = .ok i := by
    rw [hcast] at h ht ⊢
    exact indexIn_of_index? (index?_of_element? hp hi ht) h
  exact ⟨w.addAt A.prime i (A.prime.product c t.1), Result.bind_eq_ok.mpr ⟨i, hindex, rfl⟩⟩

theorem exists_multiplyBy (hp : A.prime.val < 1073741824) {d : ℤ} {y : Vec} {b : Operation}
    (hy : Proper A.prime (dim A.prime d) y) (hd : 0 ≤ d) (hb : b.IsBasis A.prime) (h : d + b.degree < A.computed)
    (ht : d + b.degree < trackedBelow) :
    ∃ w, A.multiplyBy d y b = .ok w ∧ Proper A.prime (dim A.prime (d + b.degree)) w ∧
      w.coords A.prime = combine (dim A.prime d) (fun k => mul A.prime ⟨d, k⟩ b) (y.coords A.prime) := by
  rw [multiplyBy, dimension_of_lt h, ← hy.size_eq]
  obtain ⟨w, hw, hproper, hcoords⟩ : ∃ w, y.nonzero.foldlM (fun v ie => do
      let w ← A.multiply ie.2 ⟨d, ie.1⟩ b
      (Except.ok (v.add A.prime 1 w) : Result Vec)) (Vec.zero (dim A.prime (d + b.degree))) = .ok w ∧
      Proper A.prime (dim A.prime (d + b.degree)) w ∧ w.coords A.prime =
        (Vec.zero (dim A.prime (d + b.degree))).coords A.prime +
          combine y.size (fun k => mul A.prime ⟨d, k⟩ b) (y.coords A.prime) := by
    refine foldlM_nonzero (fun i x hi v hv => ?_) Proper.zero
    have hlt := lt_size_of_mem_nonzero hi
    rw [hy.size_eq] at hlt
    obtain ⟨u, hu⟩ := exists_multiply_tracked hp (a := ⟨d, i⟩) ⟨hd, hlt⟩ hb h ht x
    obtain ⟨_, _, _, hup, huc⟩ := multiply_eq_ok hu
    refine ⟨v.add A.prime 1 u, by rw [hu]; rfl, hv.add 1 u, ?_⟩
    rw [hv.coords_add 1 hup, huc, Nat.cast_one, one_smul]
  exact ⟨w, hw, hproper, by rw [hcoords, coords_zero, zero_add]⟩

theorem exists_multiplyElement (hp : A.prime.val < 1073741824) {d : ℤ} {y : Vec} {a : Operation}
    (hy : Proper A.prime (dim A.prime d) y) (hd : 0 ≤ d) (ha : a.IsBasis A.prime) (h : a.degree + d < A.computed)
    (ht : a.degree + d < trackedBelow) :
    ∃ w, A.multiplyElement 1 a d y = .ok w ∧ Proper A.prime (dim A.prime (a.degree + d)) w ∧
      w.coords A.prime = combine (dim A.prime d) (fun k => mul A.prime a ⟨d, k⟩) (y.coords A.prime) := by
  rw [multiplyElement, dimension_of_lt h, ← hy.size_eq]
  obtain ⟨w, hw, hproper, hcoords⟩ : ∃ w, y.nonzero.foldlM (fun v ie => do
      let w ← A.multiply (A.prime.product 1 ie.2) a ⟨d, ie.1⟩
      (Except.ok (v.add A.prime 1 w) : Result Vec)) (Vec.zero (dim A.prime (a.degree + d))) = .ok w ∧
      Proper A.prime (dim A.prime (a.degree + d)) w ∧ w.coords A.prime =
        (Vec.zero (dim A.prime (a.degree + d))).coords A.prime +
          combine y.size (fun k => mul A.prime a ⟨d, k⟩) (y.coords A.prime) := by
    refine foldlM_nonzero (fun i x hi v hv => ?_) Proper.zero
    have hlt := lt_size_of_mem_nonzero hi
    rw [hy.size_eq] at hlt
    obtain ⟨u, hu⟩ := exists_multiply_tracked hp ha (b := ⟨d, i⟩) ⟨hd, hlt⟩ h ht (A.prime.product 1 x)
    obtain ⟨_, _, _, hup, huc⟩ := multiply_eq_ok hu
    refine ⟨v.add A.prime 1 u, by rw [hu]; rfl, hv.add 1 u, ?_⟩
    rw [hv.coords_add 1 hup, huc, Nat.cast_one, one_smul, Prime.cast_product, Nat.cast_one, one_mul]
  exact ⟨w, hw, hproper, by rw [hcoords, coords_zero, zero_add]⟩

/-- The two ways to multiply three basis elements give the same vector. -/
theorem exists_assoc (hp : A.prime.val < 1073741824) {a b c : Operation} (ha : a.IsBasis A.prime)
    (hb : b.IsBasis A.prime) (hc : c.IsBasis A.prime) (h : a.degree + b.degree + c.degree < A.computed)
    (ht : a.degree + b.degree + c.degree < trackedBelow) :
    ∃ u v w, A.multiply 1 a b = .ok u ∧ A.multiplyBy (a.degree + b.degree) u c = .ok w ∧
      A.multiply 1 b c = .ok v ∧ A.multiplyElement 1 a (b.degree + c.degree) v = .ok w := by
  have ha₀ := ha.nonneg
  have hb₀ := hb.nonneg
  have hc₀ := hc.nonneg
  obtain ⟨u, hu⟩ := exists_multiply_tracked hp ha hb (by omega) (by omega) 1
  obtain ⟨v, hv⟩ := exists_multiply_tracked hp hb hc (by omega) (by omega) 1
  obtain ⟨_, _, _, hup, huc⟩ := multiply_eq_ok hu
  obtain ⟨_, _, _, hvp, hvc⟩ := multiply_eq_ok hv
  obtain ⟨w, hw, hwp, hwc⟩ := exists_multiplyBy hp hup (by omega) hc h ht
  obtain ⟨w', hw', hwp', hwc'⟩ := exists_multiplyElement hp hvp (by omega) ha (by omega) (by omega)
  rw [← add_assoc] at hwp'
  have hassoc := (lawfulBelow_tracked hp).assoc a b c ha hb hc ht
  rw [Nat.cast_one, one_smul] at huc hvc
  have hsame : w = w' := hwp.ext hwp' (by rw [hwc, hwc', huc, hvc, hassoc])
  exact ⟨u, v, w, hu, hw, hv, hsame ▸ hw'⟩

theorem multiply_one_left (hp : A.prime.val < 1073741824) {b : Operation} (hb : b.IsBasis A.prime)
    (h : b.degree < A.computed) (ht : b.degree < trackedBelow) :
    A.multiply 1 ⟨0, 0⟩ b = .ok (Vec.unit (dim A.prime b.degree) b.index) := by
  have hone := Operation.isBasis_one A.prime
  obtain ⟨u, hu⟩ := exists_multiply_tracked hp hone hb (by simpa using h) (by simpa using ht) 1
  obtain ⟨_, _, _, hup, huc⟩ := multiply_eq_ok hu
  rw [Nat.cast_one, one_smul, (lawfulBelow_tracked hp).one_mul b hb ht] at huc
  simp only [zero_add] at hup
  rw [hu, hup.ext (proper_unit _ _) (by rw [huc, coords_unit hb.index_lt])]

theorem multiply_one_right (hp : A.prime.val < 1073741824) {b : Operation} (hb : b.IsBasis A.prime)
    (h : b.degree < A.computed) (ht : b.degree < trackedBelow) :
    A.multiply 1 b ⟨0, 0⟩ = .ok (Vec.unit (dim A.prime b.degree) b.index) := by
  have hone := Operation.isBasis_one A.prime
  obtain ⟨u, hu⟩ := exists_multiply_tracked hp hb hone (by simpa using h) (by simpa using ht) 1
  obtain ⟨_, _, _, hup, huc⟩ := multiply_eq_ok hu
  rw [Nat.cast_one, one_smul, (lawfulBelow_tracked hp).mul_one b hb ht] at huc
  simp only [add_zero] at hup
  rw [hu, hup.ext (proper_unit _ _) (by rw [huc, coords_unit hb.index_lt])]

theorem isAssociative_of_computed_le (hp : A.prime.val < 1073741824) (h : A.computed ≤ trackedBelow) : A.IsAssociative where
  assoc _ _ _ ha hb hc hlt := exists_assoc hp ha hb hc hlt (by omega)

theorem isUnital_of_computed_le (hp : A.prime.val < 1073741824) (h : A.computed ≤ trackedBelow) : A.IsUnital where
  dimension_zero hpos := by rw [dimension_of_lt (by exact_mod_cast hpos), dim_zero]
  one_mul _ hb hlt := multiply_one_left hp hb hlt (by omega)
  mul_one _ hb hlt := multiply_one_right hp hb hlt (by omega)

/-- Multiplication is associative and has a unit, in all degrees that are computed and below the tracked bound. -/
theorem multiply_associative_unital (hp : A.prime.val < 2 ^ 30) (a b c : Operation) (ha : a.IsBasis A.prime)
    (hb : b.IsBasis A.prime) (hc : c.IsBasis A.prime) (h : a.degree + b.degree + c.degree < A.computed)
    (ht : a.degree + b.degree + c.degree < 2 ^ 25 - 1) :
    (∃ u v w, A.multiply 1 a b = .ok u ∧ A.multiplyBy (a.degree + b.degree) u c = .ok w ∧
      A.multiply 1 b c = .ok v ∧ A.multiplyElement 1 a (b.degree + c.degree) v = .ok w) ∧
    A.multiply 1 ⟨0, 0⟩ a = .ok (Vec.unit (dim A.prime a.degree) a.index) ∧
    A.multiply 1 a ⟨0, 0⟩ = .ok (Vec.unit (dim A.prime a.degree) a.index) := by
  have htracked : ((2 : ℤ) ^ 25 - 1) = trackedBelow := by decide
  have ha₀ := ha.nonneg
  have hb₀ := hb.nonneg
  have hc₀ := hc.nonneg
  rw [htracked] at ht
  exact ⟨exists_assoc hp ha hb hc h ht, multiply_one_left hp ha (by omega) (by omega),
    multiply_one_right hp ha (by omega) (by omega)⟩

/-- `(Q_0 Q_1 P(1)) Q_1 = Q_0 Q_1 (P(1) Q_1)` at the prime 3. -/
theorem multiply_associative_unital_exteriors :
    let A := (Algebra.new Prime.three none).extend 15
    (∃ u v w, A.multiply 1 ⟨6, 0⟩ ⟨4, 0⟩ = .ok u ∧ A.multiplyBy 10 u ⟨5, 1⟩ = .ok w ∧
      A.multiply 1 ⟨4, 0⟩ ⟨5, 1⟩ = .ok v ∧ A.multiplyElement 1 ⟨6, 0⟩ 9 v = .ok w) ∧
    A.multiply 1 ⟨0, 0⟩ ⟨6, 0⟩ = .ok (Vec.unit (dim A.prime 6) 0) ∧
    A.multiply 1 ⟨6, 0⟩ ⟨0, 0⟩ = .ok (Vec.unit (dim A.prime 6) 0) := by
  have hsix : dim Prime.three 6 = 1 := by decide +kernel
  have hfour : dim Prime.three 4 = 1 := by decide +kernel
  have hfive : dim Prime.three 5 = 2 := by decide +kernel
  have hprime : ((Algebra.new Prime.three none).extend 15).prime = Prime.three := prime_extend _ _
  have hcomputed : ((Algebra.new Prime.three none).extend 15).computed = 16 := by
    rw [computed_extend]
    rfl
  exact multiply_associative_unital (A := (Algebra.new Prime.three none).extend 15) (by rw [hprime]; decide)
    ⟨6, 0⟩ ⟨4, 0⟩ ⟨5, 1⟩ ⟨by decide, by rw [hprime, hsix]; decide⟩ ⟨by decide, by rw [hprime, hfour]; decide⟩
    ⟨by decide, by rw [hprime, hfive]; decide⟩ (by rw [hcomputed]; decide) (by decide)

end Algebra
end Steenrod
