import Steenrod.Proofs.Milnor.Coproduct
import Steenrod.Proofs.Milnor.Presented
/-!
Operators from what presents the algebra. Main statement: elements of a ring for which the decompositions and the relations between
generators hold come from operators that multiply as the elements `Q_k` and `P(R)` do. In each degree they are the values of a linear map
at the operators on polynomials, and it carries the laws of those over.
-/
namespace Steenrod
namespace Milnor

variable {p : Prime} {E : Type} [Ring E] [Module p.Field E] {x y : Operation → E}

theorem powerAt_congr {R S : List ℕ} (h : index R = index S) : powerAt p R = powerAt p S := by
  rw [← powerAt_trim, trim_eq_of_index_eq h, powerAt_trim]

theorem powerAt_singleton (n : ℕ) : powerAt p [n] = letter p 0 n := by
  rw [powerAt, weight_index_single]
  rfl

/-- `P(R)` for a sequence that is given by its entries. -/
noncomputable def powerOf (p : Prime) (R : ℕ →₀ ℕ) : Operation := powerAt p (exists_index R).choose

theorem powerOf_index (R : List ℕ) : powerOf p (index R) = powerAt p R := powerAt_congr (exists_index (index R)).choose_spec

@[simp] theorem degree_powerOf (R : ℕ →₀ ℕ) : (powerOf p R).degree = (step p * weight p R : ℕ) := by
  rw [powerOf, degree_powerAt, (exists_index R).choose_spec]

theorem isBasis_powerOf (hp : p.val < 1073741824) {R : ℕ →₀ ℕ} (h : step p * weight p R < trackedBelow) : (powerOf p R).IsBasis p := by
  obtain ⟨l, rfl⟩ := exists_index R
  rw [powerOf_index]
  exact (mem_basis_of_element? (element?_powerAt hp h)).1

theorem Operators.operator_powerOf {bound : ℕ} {K : Type} [Ring K] [Module p.Field K] (O : Operators p bound K) (hp : p.val < 1073741824)
    {R : ℕ →₀ ℕ} (h : step p * weight p R < trackedBelow) : O.operator (powerOf p R) = O.power R := by
  obtain ⟨l, rfl⟩ := exists_index R
  rw [powerOf_index, O.operator_powerAt hp h]

theorem isBasis_exteriorAt (hp : p.val < 1073741824) (hodd : p.isOdd) {k : ℕ} (h : tauDegree p k < trackedBelow) :
    (exteriorAt p k).IsBasis p :=
  (mem_basis_of_element? (element?_exteriorAt h hodd hp)).1

variable [SMulCommClass p.Field E E]

/-- In every degree there is a linear map that sends the operators on polynomials, and their products, to the elements. -/
theorem Checked.exists_linear (h : Checked p trackedBelow x) (hp : p.val < 1073741824) {D : ℤ} (hD : D < trackedBelow) :
    ∃ φ : Faithful p →ₗ[p.Field] E,
      (∀ a, a.IsBasis p → a.degree = D → φ ((Faithful.operators (Prime.le_signedWords hp) trackedBelow).operator a) = x a) ∧
      ∀ a b, a.IsBasis p → b.IsBasis p → a.degree + b.degree = D →
        φ ((Faithful.operators (Prime.le_signedWords hp) trackedBelow).operator a *
          (Faithful.operators (Prime.le_signedWords hp) trackedBelow).operator b) = x a * x b := by
  let O : Operators p trackedBelow (Faithful p) := Faithful.operators (by omega) trackedBelow
  let ι := O.denote D ∘ₗ (p.space (dim p D)).subtype
  have hker : LinearMap.ker ι = ⊥ := by
    refine (LinearMap.ker_eq_bot').mpr fun f hf => Subtype.ext ?_
    exact Faithful.denote_injective hp hD f.2 hf
  obtain ⟨g, hg⟩ := ι.exists_leftInverse_of_injective hker
  let φ := combine (dim p D) (fun k => x ⟨D, k⟩) ∘ₗ (p.space (dim p D)).subtype ∘ₗ g
  have hφ : ∀ f ∈ p.space (dim p D), φ (O.denote D f) = combine (dim p D) (fun k => x ⟨D, k⟩) f := by
    intro f hf
    have hback : g (O.denote D f) = ⟨f, hf⟩ := LinearMap.congr_fun hg ⟨f, hf⟩
    simp only [φ, LinearMap.comp_apply, hback, Submodule.subtype_apply]
  refine ⟨φ, fun a ha hdegree => ?_, fun a b ha hb hdegree => ?_⟩
  · subst hdegree
    rw [← Operators.denote_single _ ha, hφ _ (space_single ha), combine_single ha.index_lt, one_smul]
  · subst hdegree
    rw [← Operators.denote_mul _ hp le_rfl ha hb hD, hφ _ (Milnor.mul_mem p a b), h.mul_eq hp le_rfl ha hb hD]

/-- The elements `Q_k` and `P(R)` among elements for which the decompositions and the relations hold. -/
noncomputable def Operators.ofChecked (h : Checked p trackedBelow x) (hp : p.val < 1073741824) : Operators p trackedBelow E where
  exterior k := x (exteriorAt p k)
  power R := x (powerOf p R)
  power_zero := by
    rw [show (0 : ℕ →₀ ℕ) = index [] from rfl, powerOf_index, powerAt_nil hp]
    exact h.one
  power_mul R S hlt := by
    have hsum := Nat.mul_add (step p) (weight p (index R)) (weight p (index S))
    have hR : step p * weight p (index R) < trackedBelow := by omega
    have hS : step p * weight p (index S) < trackedBelow := by omega
    obtain ⟨φ, hφ, hmul⟩ := h.exists_linear hp
      (show ((step p * (weight p (index R) + weight p (index S)) : ℕ) : ℤ) < trackedBelow by exact_mod_cast hlt)
    rw [← hmul _ _ (isBasis_powerOf hp hR) (isBasis_powerOf hp hS)
      (by rw [degree_powerOf, degree_powerOf, Nat.mul_add, Nat.cast_add]), Operators.operator_powerOf _ hp hR,
      Operators.operator_powerOf _ hp hS, Operators.power_mul _ R S hlt, sum_powerSum, sum_powerSum, map_list_sum, List.map_map]
    refine congrArg List.sum (List.map_congr_left fun t ht => ?_)
    have hweight := weight_of_mem_powerProduct ht
    have ht' : step p * weight p (index t.2) < trackedBelow := by rwa [hweight]
    rw [Function.comp_apply, map_smul, ← Operators.operator_powerOf _ hp ht', hφ _ (isBasis_powerOf hp ht')
      (by rw [degree_powerOf, hweight])]
  exterior_mul hodd j k hlt := by
    have hj := isBasis_exteriorAt hp hodd (show tauDegree p j < trackedBelow by omega)
    have hk := isBasis_exteriorAt hp hodd (show tauDegree p k < trackedBelow by omega)
    obtain ⟨φ, _, hmul⟩ := h.exists_linear hp (show ((tauDegree p j + tauDegree p k : ℕ) : ℤ) < trackedBelow by exact_mod_cast hlt)
    rw [← hmul _ _ hj hk (by simp only [degree_exteriorAt, Nat.cast_add]),
      ← hmul _ _ hk hj (by simp only [degree_exteriorAt, Nat.cast_add, add_comm]), Operators.operator_exteriorAt (by omega) hodd _ hp,
      Operators.operator_exteriorAt (by omega) hodd _ hp, Operators.exterior_mul _ hodd j k hlt, map_neg]
  power_mul_exterior hodd R k hlt := by
    have hR : step p * weight p R < trackedBelow := by omega
    have hk : tauDegree p k < trackedBelow := by omega
    obtain ⟨φ, _, hmul⟩ := h.exists_linear hp (show ((step p * weight p R + tauDegree p k : ℕ) : ℤ) < trackedBelow by exact_mod_cast hlt)
    have hleft := hmul _ _ (isBasis_powerOf hp hR) (isBasis_exteriorAt hp hodd hk)
      (by simp only [degree_exteriorAt, degree_powerOf, Nat.cast_add])
    have hright : ∀ j S, tauDegree p j + step p * weight p S = step p * weight p R + tauDegree p k →
        φ (Faithful.exterior p j * Faithful.power p S) = x (exteriorAt p j) * x (powerOf p S) := by
      intro j S hdegree
      have hj : tauDegree p j < trackedBelow := by omega
      have hS : step p * weight p S < trackedBelow := by omega
      rw [← hmul _ _ (isBasis_exteriorAt hp hodd hj) (isBasis_powerOf hp hS)
        (by rw [degree_exteriorAt, degree_powerOf]; exact_mod_cast hdegree), Operators.operator_exteriorAt hj hodd _ hp,
        Operators.operator_powerOf _ hp hS]
      rfl
    rw [← hleft, Operators.operator_powerOf _ hp hR, Operators.operator_exteriorAt hk hodd _ hp,
      Operators.power_mul_exterior _ hodd R k hlt, map_add, map_sum]
    refine congrArg₂ (· + ·) (hright k R (add_comm _ _)) (Finset.sum_congr rfl fun i _ => ?_)
    split
    · next hle => exact hright _ _ ((tauDegree_add_weight hodd hle).trans (add_comm _ _))
    · exact map_zero φ

omit [SMulCommClass p.Field E E] in
/-- Elements for which the decompositions hold are determined by the generators. -/
theorem Checked.eq_of_generators {bound : ℕ} (hx : Checked p bound x) (hy : Checked p bound y) (hp : p.val < 1073741824)
    (hbound : bound ≤ trackedBelow) (hgen : ∀ a, IsGenerator p a → a.degree < (bound : ℤ) → x a = y a) {a : Operation}
    (ha : a.IsBasis p) (hlt : a.degree < (bound : ℤ)) : x a = y a := by
  -- Both factors of the terms of a decomposition have smaller degree.
  induction hn : a.degree.toNat using Nat.strong_induction_on generalizing a with
  | _ n ih =>
    subst hn
    by_cases hzero : a.degree = 0
    · rw [ha.eq_one hzero, hx.one, hy.one]
    by_cases hgenerator : IsGenerator p a
    · exact hgen a hgenerator hlt
    · have hpos : 0 < a.degree := lt_of_le_of_ne ha.nonneg (Ne.symm hzero)
      have hdecomposes := decomposes_decomposition hp ha hpos (by omega)
      rw [← hx.decomposed a ha hpos hlt hgenerator, ← hy.decomposed a ha hpos hlt hgenerator, termSum, termSum]
      refine congrArg List.sum (List.map_congr_left fun t ht => ?_)
      obtain ⟨hleft, hright, hsum⟩ := hdecomposes.liesIn t ht
      obtain ⟨hposleft, hposright⟩ := hdecomposes.smaller hgenerator t ht
      rw [ih _ (by omega) hleft (by omega) rfl, ih _ (by omega) hright (by omega) rfl]

/-- The operators of all basis elements are the elements that were given. -/
theorem Operators.operator_ofChecked [IsScalarTower p.Field E E] (h : Checked p trackedBelow x) (hp : p.val < 1073741824) {a : Operation}
    (ha : a.IsBasis p) (ht : a.degree < trackedBelow) : (ofChecked h hp).operator a = x a := by
  refine ((ofChecked h hp).checked hp le_rfl).eq_of_generators h hp le_rfl (fun b hb hlt => ?_) ha ht
  rcases hb with ⟨hodd, rfl⟩ | ⟨v, rfl⟩
  · rw [← exteriorAt_zero, operator_exteriorAt (by rw [← exteriorAt_zero, degree_exteriorAt] at hlt; exact_mod_cast hlt) hodd _ hp]
    rfl
  · rw [← powerAt_singleton, ← powerOf_index, operator_powerOf _ hp (by
      rw [← powerAt_singleton, degree_powerAt] at hlt
      exact_mod_cast hlt)]
    rfl

end Milnor
end Steenrod
