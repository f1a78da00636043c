import Steenrod.Proofs.Resolution.Exactness
/-!
The kernels and quasi-inverses that a resolution keeps. Main statement: after any run the kernel that is recorded for a bidegree is
that of the map out of the stage as it is now, new generators included, and the quasi-inverse finds a preimage of all that the map
hits.
-/
namespace Steenrod

open Vec

namespace ModuleMap

/-- What `Q` finds for `y`, from nothing in a space of dimension `n`, is an element of degree `d` that goes to `y`. -/
def PullsBack (p : Prime) (f : ModuleMap) (d : ℤ) (Q : QuasiInverse) (n : ℕ) (y : Vec) : Prop :=
  ∃ r, Q.pullBack? p p (Vec.zero n) 1 y = some r ∧ r ∈ f.source.elements p d ∧ f.apply 1 d r = .ok y

end ModuleMap

namespace Resolution
namespace Resolves

variable {m t : ℤ} {R : Resolution} {s : ℕ} {A : Algebra} {M : GradedModule} {X : Representation A.prime}
variable (h : R.Resolves X m) (h₁ : A.IsAssociative) (h₂ : A.IsUnital) (hn : R.next 0 - m ≤ A.computed)
variable (hM : M.Shows X A t) (ht : t < R.next s)

include h h₁ h₂ hn hM ht

/-- What is recorded as the kernel consists of the elements that go to zero. -/
theorem setOf_mem_kernel {K : Subspace}
    (hK : K.space A.prime = Mapped.kernel (R.target X s) (R.mappedAt s) t) :
    {v | Proper A.prime (Mapped.dim A.prime (R.mappedAt s) t) v ∧ v.coords A.prime ∈ K.space A.prime} =
      ((R.mappedAt s).2.toMap A (R.mappedAt s).1 (R.targetView A M s)).kernelAt A.prime t := by
  ext v
  rw [h.mem_kernelAt h₁ h₂ hn hM ht, ← hK]
  rfl

/-- The quasi-inverse of the matrix of the map pulls back what the map hits. -/
theorem pullsBack {N : Matrix} (hN : FreeMap.IsMatrixOf A.prime N (Mapped.dim A.prime (R.mappedAt s) t) ((R.target X s).dim t)
    (Mapped.linear (R.target X s) (R.mappedAt s) t)) {y : Vec}
    (hy : y ∈ ((R.mappedAt s).2.toMap A (R.mappedAt s).1 (R.targetView A M s)).imageAt A.prime t) :
    ((R.mappedAt s).2.toMap A (R.mappedAt s).1 (R.targetView A M s)).PullsBack A.prime t
      (Augmented.ofMatrix A.prime N).quasiInverse (Mapped.dim A.prime (R.mappedAt s) t) y := by
  obtain ⟨hyp, himage⟩ := (h.mem_imageAt h₁ h₂ hn hM ht).mp hy
  obtain ⟨r, hr, hrp, hrc⟩ := hN.pullBack?_eq hyp Proper.zero 1
  rw [coords_zero, zero_add, Nat.cast_one, one_smul] at hrc
  obtain ⟨w, hw, hwp, hwc⟩ := h.apply_eq h₁ h₂ hn hM ht hrp
  rw [hrc, hN.linear_expand himage] at hwc
  exact ⟨r, hr, (mem_elements rfl h hn ht).mpr hrp, hw.trans (congrArg _ (hwp.ext hyp hwc))⟩

end Resolves

variable {m t : ℤ} {R : Resolution} {s : ℕ} {A : Algebra} {M : GradedModule}

/-- In every state and every bidegree that is computed, the kernel that is recorded is that of the map out of the stage, and the
quasi-inverse pulls back what the map hits; for the augmentation that is every element of the module. Below the least degree a
stage is zero. -/
theorem Reachable.solved {p : Prime} {X : Representation p} (h : Reachable X m A R) (hX : ∀ d < m, X.dim d = 0)
    (h₁ : A.IsAssociative) (h₂ : A.IsUnital) (hM : M.Shows X A t) (hc : R.hasComputed s t = true) :
    ∃ f n, R.mapOut A M s = .ok f ∧ f.source.dimension t = .ok n ∧ (t < m → n = 0) ∧
      (m ≤ t → ∃ K Q, f.kernel? t = some K ∧ f.quasiInverse? t = some Q ∧ K.Echelon p ∧ K.columns = n ∧
        {v | Proper p n v ∧ v.coords p ∈ K.space p} = f.kernelAt p t ∧
        (∀ y ∈ f.imageAt p t, f.PullsBack p t Q n y) ∧ (s = 0 → ∀ y ∈ M.elements p t, f.PullsBack p t Q n y)) := by
  obtain ⟨rfl, hR, hn⟩ := h.resolves hX h₁ h₂
  obtain ⟨hs, ht⟩ := (hasComputed_iff hR).mp hc
  have hdim := (hR.knownThrough hn ht).dimension_of_prime_eq rfl (le_refl t)
  refine ⟨_, Mapped.dim A.prime (R.mappedAt s) t, mapOut_eq hs, hdim, fun hmt => hR.dim_eq_zero hmt s, fun hmt => ?_⟩
  have hsolved := (hR.computed s).solved t hmt ht
  obtain ⟨K, hget, hechelon, hcolumns, hspace⟩ := hsolved.kernel_eq
  obtain ⟨N, hN, hinverse⟩ := hsolved.inverse_eq
  have hpulls := fun y hy => hR.pullsBack h₁ h₂ hn hM ht hN (y := y) hy
  refine ⟨K, _, hget, hinverse, hechelon, hcolumns, hR.setOf_mem_kernel h₁ h₂ hn hM ht hspace, hpulls, fun hs0 y hy => hpulls y ?_⟩
  subst hs0
  obtain ⟨k, hk, hy⟩ := hy
  obtain rfl := Except.ok.inj ((hM.dimension_eq t (le_refl t)).symm.trans hk)
  rw [hR.mem_imageAt h₁ h₂ hn hM ht, hR.exact_through ht hX]
  exact ⟨hy, hy.coords_mem⟩

/-- The kernel of the differential in degree 1 of stage 1 of the resolution of the sphere, where `Sq1` is hit. -/
theorem solved_ofSphere : ofSphere.hasComputed 1 1 = true ∧ ∃ f n K Q,
    ofSphere.mapOut Algebra.first (FiniteModule.sphere.toGraded Algebra.first) 1 = .ok f ∧
      f.kernel? 1 = some K ∧ f.quasiInverse? 1 = some Q ∧
      {v | Proper Algebra.first.prime n v ∧ v.coords Algebra.first.prime ∈ K.space Algebra.first.prime} =
        f.kernelAt Algebra.first.prime 1 ∧
      ∀ y ∈ f.imageAt Algebra.first.prime 1, f.PullsBack Algebra.first.prime 1 Q n y := by
  obtain ⟨f, n, hf, _, _, hsolved⟩ := Reachable.solved reachable_ofSphere FiniteModule.dimension_sphere_of_neg
    Algebra.isAssociative_first Algebra.isUnital_first (FiniteModule.shows_sphere 1) hasComputed_ofSphere
  obtain ⟨K, Q, hK, hQ, _, _, hkernel, himage, _⟩ := hsolved (by decide)
  exact ⟨hasComputed_ofSphere, f, n, K, Q, hf, hK, hQ, hkernel, himage⟩

end Resolution
end Steenrod
