import Steenrod.Proofs.Milnor.Enumeration
import Steenrod.Proofs.Milnor.Faithful
/-!
The operators of the basis elements of the algebra and of their combinations. Main statements: the coordinates of a
product are those of the product of the operators; on polynomials with exterior coefficients no combination of the basis
elements of a degree vanishes unless its coordinates do.
-/
namespace Steenrod
namespace Milnor

variable {p : Prime}

theorem members_injective {m n : ℕ} (hm : m < 2 ^ 32) (hn : n < 2 ^ 32) (h : members m = members n) : m = n := by
  refine Nat.eq_of_testBit_eq fun k => ?_
  have hbit : ∀ {m : ℕ}, m < 2 ^ 32 → (m.testBit k = true ↔ k ∈ members m) := fun hm =>
    ⟨fun hk => mem_members.mpr ⟨lt_two_pow_iff.mp hm k hk, hk⟩, fun hk => (mem_members.mp hk).2⟩
  rw [Bool.eq_iff_iff, hbit hm, hbit hn, h]

theorem element?_eq_some {a : Operation} (ha : a.IsBasis p) : ∃ x, element? p a = some x ∧ x ∈ basis p a.degree.toNat := by
  have h₀ := ha.nonneg
  have hi := ha.index_lt
  rw [dim, if_neg (by omega)] at hi
  refine ⟨(basis p a.degree.toNat)[a.index], ?_, Array.getElem_mem hi⟩
  rw [element?, if_neg (by omega), Array.getElem?_eq_getElem hi]

theorem mem_basis_of_element? {a : Operation} {x : MilnorElement} (h : element? p a = some x) :
    a.IsBasis p ∧ x ∈ basis p a.degree.toNat := by
  unfold element? at h
  split at h
  · simp at h
  · next h₀ =>
    obtain ⟨hi, rfl⟩ := Array.getElem?_eq_some_iff.mp h
    exact ⟨⟨not_lt.mp h₀, by rwa [dim, if_neg h₀]⟩, Array.getElem_mem hi⟩

theorem proper_of_element? (hp : p.val < 1073741824) {a : Operation} {x : MilnorElement} (h : element? p a = some x)
    (ha : a.degree < trackedBelow) : x.Proper p ∧ (x.degree p : ℤ) = a.degree := by
  obtain ⟨hbasis, hx⟩ := mem_basis_of_element? h
  have h₀ := hbasis.nonneg
  obtain ⟨hproper, hdegree⟩ := (mem_basis hp (by omega) x).mp hx
  exact ⟨hproper, by omega⟩

theorem index?_of_element? (hp : p.val < 1073741824) {a : Operation} {x : MilnorElement} (h : element? p a = some x)
    (ha : a.degree < trackedBelow) : index? p a.degree x = some a.index := by
  have h₀ := (mem_basis_of_element? h).1.nonneg
  have hnodup := nodup_basis hp (d := a.degree.toNat) (by omega)
  rw [element?, if_neg (by omega)] at h
  obtain ⟨hi, hx⟩ := Array.getElem?_eq_some_iff.mp h
  rw [index?, if_neg (by omega), idxOf?_eq_some]
  refine ⟨hi, hx, fun j hj heq => ?_⟩
  have hi' : a.index < (basis p a.degree.toNat).toList.length := by simpa using hi
  have hj' : j < (basis p a.degree.toNat).toList.length := by omega
  have hsame : (basis p a.degree.toNat).toList[j] = (basis p a.degree.toNat).toList[a.index] := by
    simp only [Array.getElem_toList]
    rw [heq, hx]
  exact absurd ((List.Nodup.getElem_inj_iff hnodup).mp hsame) (by omega)

theorem exists_element?_eq (hp : p.val < 1073741824) {x : MilnorElement} (hx : x.Proper p) (hd : x.degree p < trackedBelow) :
    ∃ i, element? p ⟨x.degree p, i⟩ = some x := by
  obtain ⟨i, hi, hget⟩ := Array.mem_iff_getElem.mp ((mem_basis hp hd x).mpr ⟨hx, rfl⟩)
  refine ⟨i, ?_⟩
  rw [element?, if_neg (by simp)]
  simp only [Int.toNat_natCast]
  rw [Array.getElem?_eq_getElem hi, hget]

theorem proper_eq {x y : MilnorElement} (hx : x.Proper p) (hy : y.Proper p) (hindex : index x.exponents = index y.exponents)
    (hmembers : members x.exterior = members y.exterior) : x = y := by
  obtain ⟨mask, r⟩ := x
  obtain ⟨mask', r'⟩ := y
  rw [MilnorElement.mk.injEq]
  exact ⟨members_injective hx.exterior_lt hy.exterior_lt hmembers, hx.trimmed.eq hy.trimmed hindex⟩

theorem space_single {b : Operation} (hb : b.IsBasis p) : (Pi.single b.index 1 : ℕ → p.Field) ∈ p.space (dim p b.degree) := by
  intro i hi
  have := hb.index_lt
  rw [Pi.single_eq_of_ne (by omega)]

namespace Operators

variable {bound : ℕ} {K : Type} [Ring K] [Module p.Field K]

/-- The operator of a basis element of the algebra. -/
noncomputable def operator (O : Operators p bound K) (a : Operation) : K :=
  match element? p a with
  | some x => O.element x
  | none => 0

theorem operator_of_element? (O : Operators p bound K) {a : Operation} {x : MilnorElement} (h : element? p a = some x) :
    O.operator a = O.element x := by
  rw [operator, h]

/-- The operator with the given coordinates in a degree. -/
noncomputable def denote (O : Operators p bound K) (d : ℤ) : (ℕ → p.Field) →ₗ[p.Field] K :=
  combine (dim p d) fun k => O.operator ⟨d, k⟩

theorem denote_single (O : Operators p bound K) {a : Operation} (ha : a.IsBasis p) :
    O.denote a.degree (Pi.single a.index 1) = O.operator a := by
  rw [denote, combine_single ha.index_lt, one_smul]

theorem denote_coordsOf (O : Operators p bound K) (hp : p.val < 1073741824) {x : MilnorElement} (hx : x.Proper p)
    (hd : x.degree p < trackedBelow) : O.denote (x.degree p) (coordsOf p (x.degree p) x) = O.element x := by
  obtain ⟨i, helement⟩ := exists_element?_eq hp hx hd
  rw [coordsOf, index?_of_element? hp helement (show ((x.degree p : ℕ) : ℤ) < trackedBelow by exact_mod_cast hd)]
  exact (O.denote_single (mem_basis_of_element? helement).1).trans (O.operator_of_element? helement)

variable [IsScalarTower p.Field K K] [SMulCommClass p.Field K K]

/-- The coordinates of a product are those of the product of the operators. -/
theorem denote_mul (O : Operators p bound K) (hp : p.val < 1073741824) (hbound : bound ≤ trackedBelow) {a b : Operation}
    (ha : a.IsBasis p) (hb : b.IsBasis p) (h : a.degree + b.degree < bound) :
    O.denote (a.degree + b.degree) (mul p a b) = O.operator a * O.operator b := by
  obtain ⟨x, hx, _⟩ := element?_eq_some ha
  obtain ⟨y, hy, _⟩ := element?_eq_some hb
  have ha₀ := ha.nonneg
  have hb₀ := hb.nonneg
  obtain ⟨hxp, hxd⟩ := proper_of_element? hp hx (by omega)
  obtain ⟨hyp, hyd⟩ := proper_of_element? hp hy (by omega)
  have htracked : trackedBelow < 2 ^ 32 := by decide
  have hterm : ∀ t ∈ product p x y, O.denote (a.degree + b.degree) (coordsOf p (a.degree + b.degree) t.2) = O.element t.2 := by
    intro t ht
    obtain ⟨hproper, hdegree⟩ := proper_of_mem_product hxp hyp (by omega) ht
    have hcast : a.degree + b.degree = t.2.degree p := by omega
    rw [hcast]
    exact O.denote_coordsOf hp hproper (by omega)
  rw [O.operator_of_element? hx, O.operator_of_element? hy, ← O.sum_product (by omega) hxp hyp (by omega), mul, hx, hy]
  simp only [sumCoords]
  rw [map_list_sum, List.map_map]
  congr 1
  refine List.map_congr_left fun t ht => ?_
  rw [Function.comp_apply, map_smul, hterm t ht]

theorem denote_combine_left (O : Operators p bound K) (hp : p.val < 1073741824) (hbound : bound ≤ trackedBelow) {d : ℤ}
    {c : Operation} (hd : 0 ≤ d) (hc : c.IsBasis p) (h : d + c.degree < bound) (f : ℕ → p.Field) :
    O.denote (d + c.degree) (combine (dim p d) (fun k => mul p ⟨d, k⟩ c) f) = O.denote d f * O.operator c := by
  have hmul : ∀ k < dim p d, O.denote (d + c.degree) (mul p ⟨d, k⟩ c) = O.operator ⟨d, k⟩ * O.operator c := fun k hk =>
    O.denote_mul (a := ⟨d, k⟩) hp hbound ⟨hd, hk⟩ hc h
  rw [map_combine, combine_congr hmul fun _ _ => rfl, denote, combine_apply, combine_apply, Finset.sum_mul]
  exact Finset.sum_congr rfl fun k _ => (smul_mul_assoc _ _ _).symm

theorem denote_combine_right (O : Operators p bound K) (hp : p.val < 1073741824) (hbound : bound ≤ trackedBelow) {d : ℤ}
    {a : Operation} (hd : 0 ≤ d) (ha : a.IsBasis p) (h : a.degree + d < bound) (f : ℕ → p.Field) :
    O.denote (a.degree + d) (combine (dim p d) (fun k => mul p a ⟨d, k⟩) f) = O.operator a * O.denote d f := by
  have hmul : ∀ k < dim p d, O.denote (a.degree + d) (mul p a ⟨d, k⟩) = O.operator a * O.operator ⟨d, k⟩ := fun k hk =>
    O.denote_mul (b := ⟨d, k⟩) hp hbound ha ⟨hd, hk⟩ h
  rw [map_combine, combine_congr hmul fun _ _ => rfl, denote, combine_apply, combine_apply, Finset.mul_sum]
  exact Finset.sum_congr rfl fun k _ => (mul_smul_comm _ _ _).symm

end Operators

namespace Faithful

/-- The operators of the elements of a degree are independent. -/
theorem denote_injective (hp : p.val < 1073741824) {bound : ℕ} {d : ℤ} (hd : d < trackedBelow) {f : ℕ → p.Field}
    (hf : f ∈ p.space (dim p d)) (h : (operators (by omega) bound : Operators p bound (Faithful p)).denote d f = 0) : f = 0 := by
  funext i
  by_cases hi : i < dim p d
  · have hd₀ : 0 ≤ d := by
      by_contra hneg
      simp [dim_of_neg (not_le.mp hneg)] at hi
    obtain ⟨x, hx, _⟩ := element?_eq_some (p := p) (a := ⟨d, i⟩) ⟨hd₀, hi⟩
    have hxp := (proper_of_element? hp hx hd).1
    obtain ⟨φ, hone, hzero⟩ := exists_coordinate (p := p) (by omega) bound x
    -- The coordinate reads off the one for `x`.
    have hread : ∀ k < dim p d, φ ((operators (by omega) bound : Operators p bound (Faithful p)).operator ⟨d, k⟩) =
        if k = i then 1 else 0 := by
      intro k hk
      obtain ⟨y, hy, _⟩ := element?_eq_some (p := p) (a := ⟨d, k⟩) ⟨hd₀, hk⟩
      rw [Operators.operator_of_element? _ hy]
      by_cases hki : k = i
      · subst hki
        obtain rfl : y = x := Option.some.inj (hy.symm.trans hx)
        rw [if_pos rfl, hone]
      · rw [if_neg hki]
        refine hzero y fun hsame => hki ?_
        obtain rfl : y = x := proper_eq (proper_of_element? hp hy hd).1 hxp hsame.1 hsame.2
        exact Option.some.inj ((index?_of_element? hp hy hd).symm.trans (index?_of_element? hp hx hd))
    have hsum := congrArg φ h
    rw [Operators.denote, map_combine, combine_congr hread fun _ _ => rfl, combine_apply, map_zero] at hsum
    simpa [hi] using hsum
  · exact hf i (not_lt.mp hi)

end Faithful

end Milnor
end Steenrod
