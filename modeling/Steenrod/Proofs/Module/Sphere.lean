import Steenrod.Proofs.Module.Finite
/-!
The smallest case: the algebra at the prime 2 through degree 1, and the module of dimension one. Main statements: they
are an algebra, a module and a homomorphism, so that what is proved of these is not empty.
-/
namespace Steenrod

open Vec

/-- The algebra at the prime 2 through degree 1: the unit and `Sq1`. -/
def Algebra.first : Algebra := (Algebra.new Prime.two none).extend 1

namespace Algebra

theorem computed_first : first.computed = 2 := rfl

/-- There is one basis element in each of the degrees 0 and 1. -/
theorem basis_first {a : Operation} (ha : a.IsBasis first.prime) (hlt : a.degree < first.computed) :
    a = ⟨0, 0⟩ ∨ a = ⟨1, 0⟩ := by
  obtain ⟨d, i⟩ := a
  have h₀ := ha.nonneg
  have hi := ha.index_lt
  simp only [computed_first] at h₀ hi hlt
  obtain rfl | rfl : d = 0 ∨ d = 1 := by omega
  · have hdim : Milnor.dim first.prime 0 = 1 := by decide +kernel
    exact .inl (by rw [hdim] at hi; rw [Nat.lt_one_iff.mp hi])
  · have hdim : Milnor.dim first.prime 1 = 1 := by decide +kernel
    exact .inr (by rw [hdim] at hi; rw [Nat.lt_one_iff.mp hi])

theorem isUnital_first : first.IsUnital where
  dimension_zero _ := rfl
  one_mul b hb hlt := by
    obtain rfl | rfl := basis_first hb hlt <;> decide +kernel
  mul_one b hb hlt := by
    obtain rfl | rfl := basis_first hb hlt <;> decide +kernel

theorem isAssociative_first : first.IsAssociative where
  assoc a b c ha hb hc hlt := by
    have ha₀ := ha.nonneg
    have hb₀ := hb.nonneg
    have hc₀ := hc.nonneg
    have hcomputed : (first.computed : ℤ) = 2 := congrArg Nat.cast computed_first
    -- The degrees add up to 1 at most, so all vectors that occur are of size 1.
    refine ⟨Vec.unit 1 0, Vec.unit 1 0, Vec.unit 1 0, ?_⟩
    obtain rfl | rfl := basis_first ha (by omega) <;> obtain rfl | rfl := basis_first hb (by omega) <;>
      obtain rfl | rfl := basis_first hc (by omega) <;> simp only at hlt
    all_goals first
      | exact absurd hlt (by omega)
      | decide +kernel

end Algebra

namespace FiniteModule

/-- The module of dimension one, in degree 0. -/
def sphere : FiniteModule := ⟨"S", Graded.ofList 0 [1], Graded.ofList 0 [["x0"]], Graded.ofList 0 [Graded.ofList 0 []]⟩

theorem dimension_sphere {d : ℤ} (hd : d ≠ 0) : sphere.dimension d = 0 := by
  have hnone : (Graded.ofList 0 [1] : Graded ℕ).get? d = none := by
    refine Option.not_isSome_iff_eq_none.mp fun h => ?_
    have hrange : 0 ≤ d ∧ d < 1 := (Graded.get?_isSome_iff _ d).mp h
    omega
  rw [dimension, show sphere.dims = Graded.ofList 0 [1] from rfl, hnone, Option.getD_none]

theorem storedBelow_sphere (p : Prime) (n : ℤ) : sphere.StoredBelow p n := by
  intro a d i ha hpos _ hi hdim
  by_cases hd : d = 0
  · rw [dimension_sphere (by omega)] at hdim
    exact absurd hdim (lt_irrefl 0)
  · rw [dimension_sphere hd] at hi
    exact absurd hi (Nat.not_lt_zero i)

/-- A vector of the sphere, or its image, is zero unless all degrees are 0. -/
theorem space_sphere {p : Prime} {d : ℤ} (hd : d ≠ 0) {v : ℕ → p.Field} (hv : v ∈ p.space (sphere.dimension d)) :
    v = 0 := by
  rw [dimension_sphere hd, space_zero] at hv
  exact hv

theorem isModule_sphere : sphere.IsModule Algebra.first where
  stored := storedBelow_sphere _ _
  assoc a b d x ha hb hlt hx := by
    have ha₀ := ha.nonneg
    have hb₀ := hb.nonneg
    obtain ⟨z, hz⟩ := Algebra.exists_multiply Algebra.isAssociative_first ha hb hlt 1
    refine exists_act_twice (storedBelow_sphere _ _) hz hx ?_
    by_cases hd : d = 0
    · subst hd
      by_cases hsum : a.degree + b.degree = 0
      · -- Both operations are the unit.
        have hdeg : a.degree = 0 ∧ b.degree = 0 := by omega
        obtain rfl : a = ⟨0, 0⟩ := by
          obtain rfl | rfl := Algebra.basis_first ha (by omega)
          · rfl
          · exact absurd hdeg.1 one_ne_zero
        obtain rfl : b = ⟨0, 0⟩ := by
          obtain rfl | rfl := Algebra.basis_first hb (by omega)
          · rfl
          · exact absurd hdeg.2 one_ne_zero
        have hlaw := Algebra.lawfulBelow Algebra.isAssociative_first Algebra.isUnital_first
        have hone := hlaw.one_mul ⟨0, 0⟩ hb (by simpa using hlt)
        have hdim := hlaw.dim_zero (by simpa using hlt)
        simp only [add_zero] at hone ⊢
        rw [rep_one_act hx.coords_mem, rep_one_act hx.coords_mem, hone, combine_single (hdim ▸ Nat.one_pos), one_smul,
          rep_one_act hx.coords_mem]
      · have hright : ∀ l, (sphere.rep Algebra.first.prime).act ⟨a.degree + b.degree, l⟩ 0 = 0 := fun l =>
          rep_act_eq_zero (dimension_sphere (by simpa using hsum))
        have hleft : (sphere.rep Algebra.first.prime).act a (0 + b.degree)
            ((sphere.rep Algebra.first.prime).act b 0 (x.coords Algebra.first.prime)) = 0 := by
          by_cases hb' : b.degree = 0
          · rw [rep_act_eq_zero (a := a) (dimension_sphere (by omega)), LinearMap.zero_apply]
          · rw [rep_act_eq_zero (a := b) (dimension_sphere (by omega)), LinearMap.zero_apply, map_zero]
        rw [hleft, combine_apply]
        exact (Finset.sum_eq_zero fun l _ => by rw [hright, LinearMap.zero_apply, smul_zero]).symm
    · rw [space_sphere hd hx.coords_mem, map_zero, map_zero, combine_apply]
      exact (Finset.sum_eq_zero fun l _ => by rw [map_zero, smul_zero]).symm

theorem shows_sphere (t : ℤ) : (sphere.toGraded Algebra.first).Shows (sphere.rep Algebra.first.prime) Algebra.first t :=
  shows (storedBelow_sphere _ _) t

theorem dimension_sphere_of_neg : ∀ d < sphere.minDegree, (sphere.rep Algebra.first.prime).dim d = 0 :=
  fun _ hd => dimension_of_lt hd

end FiniteModule
end Steenrod
