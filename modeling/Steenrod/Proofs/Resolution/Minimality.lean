import Steenrod.Proofs.Resolution.Exactness
import Steenrod.Proofs.Module.Generators
/-!
Minimality as it shows in what the maps of a resolution answer. Main statement: after any run the boundaries of
generators have no coefficient on generators, those of one bidegree are independent modulo the image of the lower
generators, and there are no more of them than that.
-/
namespace Steenrod

open Vec

/-- The span of the coordinates of some vectors. -/
def coordsSpan (p : Prime) (S : Set Vec) : Submodule p.Field (ℕ → p.Field) :=
  Submodule.span p.Field {f | ∃ v ∈ S, v.coords p = f}

/-- If the coordinates of some proper vectors are those in a subspace, they span it. -/
theorem coordsSpan_eq {p : Prime} {n : ℕ} {S : Set Vec} {V : Submodule p.Field (ℕ → p.Field)} (hV : V ≤ p.space n)
    (hS : ∀ v, v ∈ S ↔ Proper p n v ∧ v.coords p ∈ V) : coordsSpan p S = V := by
  refine le_antisymm (Submodule.span_le.mpr ?_) fun f hf => Submodule.subset_span ?_
  · rintro f ⟨v, hv, rfl⟩
    exact ((hS v).mp hv).2
  · obtain ⟨v, hv, rfl⟩ := exists_proper (hV hf)
    exact ⟨v, (hS v).mpr ⟨hv, hf⟩, rfl⟩

/-- The elements of degree `t` that the generators of less degree span. -/
def FreeModule.lowerElements (p : Prime) (A : Algebra) (F : FreeModule) (t : ℤ) : Set Vec :=
  {v | v ∈ (F.toGraded A).elements p t ∧
    ∀ i a g, F.elementAt A t i = .ok (a, g) → g.degree = t → v.entry i = 0}

/-- The images of the elements that the generators of degree less than `t` span. -/
def ModuleMap.lowerImageAt (p : Prime) (A : Algebra) (F : FreeModule) (f : ModuleMap) (t : ℤ) : Set Vec :=
  {w | ∃ v ∈ F.lowerElements p A t, f.apply 1 t v = .ok w}

/-- Vectors without relations modulo a space are independent modulo it. -/
theorem linearIndependent_mkQ_of_combine {p : Prime} {k : ℕ} {y : ℕ → ℕ → p.Field}
    {W : Submodule p.Field (ℕ → p.Field)} (h : ∀ a : ℕ → p.Field, combine k y a ∈ W → ∀ i < k, a i = 0) :
    LinearIndependent p.Field fun i : Fin k => W.mkQ (y i) := by
  refine Fintype.linearIndependent_iff.mpr fun a ha i => ?_
  have hextend : ∀ j : Fin k, (fun l => if hl : l < k then a ⟨l, hl⟩ else 0) j.val = a j := fun j => dif_pos j.isLt
  have hmem : combine k y (fun l => if hl : l < k then a ⟨l, hl⟩ else 0) ∈ W := by
    rw [← Submodule.Quotient.mk_eq_zero, ← Submodule.mkQ_apply, combine_apply, map_sum, ← ha,
      ← Fin.sum_univ_eq_sum_range fun l => W.mkQ ((if hl : l < k then a ⟨l, hl⟩ else 0) • y l)]
    refine Finset.sum_congr rfl fun j _ => ?_
    rw [map_smul, dif_pos j.isLt]
  rw [← hextend i]
  exact h _ hmem i.val i.isLt

namespace Mapped

variable {p : Prime} {T : Representation p} {x : Mapped} {t : ℤ}

theorem lower_le_dim (p : Prime) (x : Mapped) (t : ℤ) : lower p x t ≤ dim p x t := Nat.sub_le _ _

/-- The generators of a degree go to vectors that are independent modulo the image of the lower ones. -/
theorem eq_zero_of_combine_values {top : ℤ} (hT : T.LawfulThrough top)
    (hdef : x.2.DefinedThrough p x.1 T top) (hshift : x.2.shift = 0) (ht : t ≤ top)
    (hlower : ∀ v ∈ p.space (dim p x t), linear T x t v ∈ lowerImage T x t → v ∈ p.space (lower p x t))
    (a : ℕ → p.Field) (ha : combine (x.1.count t) (fun i => x.2.value p ⟨t, i⟩) a ∈ lowerImage T x t) :
    ∀ i < x.1.count t, a i = 0 := by
  have hgen : ∀ i < x.1.count t, ∃ j, j < dim p x t ∧
      FreeModule.locate? j (FreeModule.blocksOf p t x.1.generatorList) = some (0, ⟨t, i⟩) ∧
      linear T x t (Pi.single j 1) = x.2.value p ⟨t, i⟩ := fun i hi =>
    FreeMap.exists_generator hT hdef (g := ⟨t, i⟩) (FreeModule.mem_generatorList.mpr hi) ht
      (by rw [hshift]; simp only; omega)
  choose! place hlt hloc hvalue using hgen
  have hsum : combine (x.1.count t) (fun i => x.2.value p ⟨t, i⟩) a =
      linear T x t (combine (x.1.count t) (fun i => Pi.single (place i) 1) a) := by
    rw [map_combine]
    exact combine_congr (fun i hi => (hvalue i hi).symm) fun _ _ => rfl
  have hunit : ∀ i < x.1.count t, (Pi.single (place i) 1 : ℕ → p.Field) ∈ p.space (dim p x t) :=
    fun i hi j hj => Pi.single_eq_of_ne (Nat.ne_of_gt (lt_of_lt_of_le (hlt i hi) hj)) _
  rw [hsum] at ha
  have hmem := hlower _ (combine_mem hunit a) ha
  intro i hi
  have hzero := hmem (place i) ((FreeModule.degree_eq_iff_of_locate? (hloc i hi)).mp rfl)
  rw [combine_apply, Finset.sum_apply, Finset.sum_eq_single_of_mem i (Finset.mem_range.mpr hi)] at hzero
  · simpa using hzero
  · intro j hj hne
    have hplace : place i ≠ place j := by
      intro heq
      have h := (hloc i hi).symm.trans (heq ▸ hloc j (Finset.mem_range.mp hj))
      simp only [Option.some.injEq, Prod.mk.injEq, Generator.mk.injEq, true_and] at h
      exact hne h.symm
    simp [Pi.single_eq_of_ne hplace]

end Mapped

namespace Resolution

variable {m t : ℤ} {R : Resolution} {s : ℕ} {A : Algebra} {M : GradedModule} {X : Representation A.prime}

/-- The homomorphism out of stage `s`: the augmentation for stage 0, the differential for a later one. -/
def outOf (R : Resolution) (s : ℕ) : Result FreeMap :=
  if s = 0 then .ok R.augmentation else (R.stage s).map (·.differential)

theorem outOf_eq (hs : s < R.stages.size) : R.outOf s = .ok (R.mappedAt s).2 := by
  rw [outOf, mappedAt]
  split
  · rfl
  · rw [stage_eq hs]
    rfl

namespace Resolves

/-- Minimality in all degrees below the end of a stage, those below the least one included. -/
theorem minimal_through {p : Prime} {X : Representation p} (h : R.Resolves X m) (ht : t < R.next s) :
    (∀ v ∈ p.space (Mapped.dim p (R.mappedAt s) t), Mapped.linear (R.target X s) (R.mappedAt s) t v ∈
        Mapped.lowerImage (R.target X s) (R.mappedAt s) t → v ∈ p.space (Mapped.lower p (R.mappedAt s) t)) ∧
      Module.finrank p.Field (Mapped.lowerImage (R.target X s) (R.mappedAt s) t) + (R.mappedAt s).1.count t =
        Module.finrank p.Field (Mapped.image (R.target X s) (R.mappedAt s) t) := by
  by_cases hmt : m ≤ t
  · have hs := (h.computed s).solved t hmt ht
    exact ⟨hs.mem_lower, hs.finrank_eq⟩
  · have hmin := (h.computed s).source_min
    have hcount : (R.mappedAt s).1.count t = 0 := FreeModule.count_eq_zero_of_lt (by omega)
    have hlower : Mapped.lower p (R.mappedAt s) t = Mapped.dim p (R.mappedAt s) t := by
      rw [Mapped.lower, hcount, Nat.sub_zero]
    refine ⟨fun v hv _ => hlower.symm ▸ hv, ?_⟩
    rw [hcount, Nat.add_zero, Mapped.lowerImage, Mapped.image, hlower]

variable (h : R.Resolves X m) (h₁ : A.IsAssociative) (h₂ : A.IsUnital) (hn : R.next 0 - m ≤ A.computed)
variable (hM : M.Shows X A t) (ht : t < R.next s)

include h hn ht

/-- The place of a basis element says whether it is a generator. -/
theorem degree_eq_iff {i : ℕ} {a : Operation} {g : Generator} (hel : (R.mappedAt s).1.elementAt A t i = .ok (a, g))
    (hi : i < Mapped.dim A.prime (R.mappedAt s) t) :
    a.degree = t - g.degree ∧ (g.degree = t ↔ Mapped.lower A.prime (R.mappedAt s) t ≤ i) := by
  obtain ⟨k, g', hloc, hel'⟩ := (h.knownThrough hn ht).elementAt_eq (le_refl t) hi
  have heq := Except.ok.inj (hel.symm.trans hel')
  rw [Prod.mk.injEq] at heq
  obtain ⟨rfl, rfl⟩ := heq
  exact ⟨rfl, FreeModule.degree_eq_iff_of_locate? hloc⟩

theorem mem_lowerElements {v : Vec} : v ∈ (R.mappedAt s).1.lowerElements A.prime A t ↔
    Proper A.prime (Mapped.dim A.prime (R.mappedAt s) t) v ∧
      v.coords A.prime ∈ A.prime.space (Mapped.lower A.prime (R.mappedAt s) t) := by
  refine (and_congr_left' (mem_elements rfl h hn ht)).trans (and_congr_right fun hv => ?_)
  constructor
  · intro hzero i hi
    by_cases hlt : i < Mapped.dim A.prime (R.mappedAt s) t
    · obtain ⟨k, g, _, hel⟩ := (h.knownThrough hn ht).elementAt_eq (le_refl t) hlt
      have hdeg := (h.degree_eq_iff hn ht hel hlt).2.mpr hi
      exact (coords_eq_zero_iff hv.reduced).mpr (hzero i _ _ hel hdeg)
    · exact hv.coords_mem i (not_lt.mp hlt)
  · intro hmem i a g hel hdeg
    refine (coords_eq_zero_iff hv.reduced).mp ?_
    by_cases hlt : i < Mapped.dim A.prime (R.mappedAt s) t
    · exact hmem i ((h.degree_eq_iff hn ht hel hlt).2.mp hdeg)
    · exact hv.coords_mem i (not_lt.mp hlt)

include h₁ h₂ hM

theorem coordsSpan_lowerImageAt :
    coordsSpan A.prime (((R.mappedAt s).2.toMap A (R.mappedAt s).1 (R.targetView A M s)).lowerImageAt A.prime A
      (R.mappedAt s).1 t) = Mapped.lowerImage (R.target X s) (R.mappedAt s) t := by
  have hle : Mapped.lowerImage (R.target X s) (R.mappedAt s) t ≤ A.prime.space ((R.target X s).dim t) := by
    rintro f ⟨u, hu, rfl⟩
    obtain ⟨v, hv, rfl⟩ := exists_proper (n := Mapped.dim A.prime (R.mappedAt s) t)
      fun i hi => hu i ((Mapped.lower_le_dim _ _ _).trans hi)
    obtain ⟨w, _, hp, hc⟩ := h.apply_eq h₁ h₂ hn hM ht hv
    exact hc ▸ hp.coords_mem
  refine coordsSpan_eq hle fun w => ?_
  constructor
  · rintro ⟨v, hv, hw⟩
    obtain ⟨hv, hmem⟩ := (h.mem_lowerElements hn ht).mp hv
    obtain ⟨w', hw', hp, hc⟩ := h.apply_eq h₁ h₂ hn hM ht hv
    obtain rfl := Except.ok.inj (hw.symm.trans hw')
    exact ⟨hp, hc ▸ Submodule.mem_map_of_mem hmem⟩
  · rintro ⟨hp, u, hu, huw⟩
    obtain ⟨v, hv, rfl⟩ := exists_proper (n := Mapped.dim A.prime (R.mappedAt s) t)
      fun i hi => hu i ((Mapped.lower_le_dim _ _ _).trans hi)
    obtain ⟨w', hw', hp', hc⟩ := h.apply_eq h₁ h₂ hn hM ht hv
    obtain rfl := hp.ext hp' (huw.symm.trans hc.symm)
    exact ⟨v, (h.mem_lowerElements hn ht).mpr ⟨hv, hu⟩, hw'⟩

end Resolves

namespace Resolves

variable (h : R.Resolves X m) (h₁ : A.IsAssociative) (h₂ : A.IsUnital) (hn : R.next 0 - m ≤ A.computed)
variable (hX : ∀ d < m, X.dim d = 0) (hM : M.Shows X A t) (ht : t < R.next s)

include h h₁ h₂ hn hM ht

theorem coordsSpan_kernelAt :
    coordsSpan A.prime (((R.mappedAt s).2.toMap A (R.mappedAt s).1 (R.targetView A M s)).kernelAt A.prime t) =
      Mapped.kernel (R.target X s) (R.mappedAt s) t :=
  coordsSpan_eq inf_le_left fun _ => h.mem_kernelAt h₁ h₂ hn hM ht

include hX

theorem coordsSpan_lowerImageAt_le :
    coordsSpan A.prime (((R.mappedAt s).2.toMap A (R.mappedAt s).1 (R.targetView A M s)).lowerImageAt A.prime A
      (R.mappedAt s).1 t) ≤ R.cycles X s t := by
  refine Submodule.span_le.mpr ?_
  rintro _ ⟨w, ⟨v, hv, hw⟩, rfl⟩
  rw [← h.exact_through ht hX]
  exact ((h.mem_imageAt h₁ h₂ hn hM ht).mp ⟨v, hv.1, hw⟩).2

/-- The number of new generators. -/
theorem count_add_finrank :
    (R.mappedAt s).1.count t + Module.finrank A.prime.Field (coordsSpan A.prime
      (((R.mappedAt s).2.toMap A (R.mappedAt s).1 (R.targetView A M s)).lowerImageAt A.prime A
        (R.mappedAt s).1 t)) = Module.finrank A.prime.Field (R.cycles X s t) := by
  by_cases hmt : m ≤ t
  · have hle := next_le_zero h s
    rw [h.coordsSpan_lowerImageAt h₁ h₂ hn hM ht, ← h.exact_through ht hX, Nat.add_comm]
    exact (h.minimal_through ht).2
  · have hmin := (h.computed s).source_min
    have hcount : (R.mappedAt s).1.count t = 0 := FreeModule.count_eq_zero_of_lt (by omega)
    have hbot : R.cycles X s t = ⊥ := by
      rw [← h.exact_through ht hX, Mapped.image, h.dim_eq_zero (not_le.mp hmt), space_zero, Submodule.map_bot]
    have hle := h.coordsSpan_lowerImageAt_le h₁ h₂ hn hX hM ht
    rw [hbot] at hle ⊢
    rw [le_bot_iff.mp hle, hcount, Nat.zero_add]

omit hX in
theorem linearIndependent_boundaries {boundary : ℕ → Vec} (hboundary : ∀ i < (R.mappedAt s).1.count t,
      (boundary i).coords A.prime = (R.mappedAt s).2.value A.prime ⟨t, i⟩) :
    LinearIndependent A.prime.Field fun i : Fin ((R.mappedAt s).1.count t) =>
      (coordsSpan A.prime (((R.mappedAt s).2.toMap A (R.mappedAt s).1 (R.targetView A M s)).lowerImageAt A.prime A
        (R.mappedAt s).1 t)).mkQ ((boundary i).coords A.prime) := by
  refine linearIndependent_mkQ_of_combine (y := fun i => (boundary i).coords A.prime) fun a ha i hi => ?_
  have hx := h.computed s
  have hle := next_le_zero h s
  have hlow : m ≤ t := by
    by_contra hlt
    have := FreeModule.count_eq_zero_of_lt (F := (R.mappedAt s).1) (d := t) (by rw [hx.source_min]; omega)
    omega
  have hp := A.lawfulBelow h₁ h₂
  rw [combine_congr hboundary fun _ _ => rfl, h.coordsSpan_lowerImageAt h₁ h₂ hn hM ht] at ha
  exact Mapped.eq_zero_of_combine_values (h.target_lawful hp h.lawful (by omega) s) (hx.definedThrough _)
    hx.shift_eq (by omega) (h.minimal_through ht).1 a ha i hi

omit h₁ h₂ hM hX ht in
/-- The boundary of a generator has no coefficient on generators. -/
theorem value_apply_eq_zero (h₁ : A.IsAssociative) (h₂ : A.IsUnital) (ht : t < R.next (s + 1)) {j k : ℕ}
    {a : Operation} {b : Generator} (hj : j < (R.mappedAt (s + 1)).1.count t)
    (hel : (R.mappedAt s).1.elementAt A t k = .ok (a, b)) (hdeg : a.degree = 0) :
    (R.mappedAt (s + 1)).2.value A.prime ⟨t, j⟩ k = 0 := by
  have hg : (⟨t, j⟩ : Generator) ∈ (R.mappedAt (s + 1)).1.generatorList := FreeModule.mem_generatorList.mpr hj
  have hlow := FreeModule.minDegree_le hg
  rw [(h.computed (s + 1)).source_min] at hlow
  simp only at hlow
  have hle := next_le_zero h (s + 1)
  have hp := A.lawfulBelow h₁ h₂
  have ht' := lt_of_lt_of_le ht (h.next_succ_le s)
  obtain ⟨hmem, hzero⟩ := Mapped.mem_kernel.mp (h.value_mem_cycles hp hn hg)
  by_cases hk : k < Mapped.dim A.prime (R.mappedAt s) t
  · -- An element of the kernel below has the image zero, which is that of a lower element.
    have hlower := (h.minimal_through ht').1 _ hmem (hzero ▸ Submodule.zero_mem _)
    obtain ⟨hab, hiff⟩ := h.degree_eq_iff hn ht' hel hk
    exact hlower k (hiff.mp (by omega))
  · exact hmem k (not_lt.mp hk)

end Resolves

/-- In every state and every bidegree that is computed, the boundaries of the new generators are independent modulo
the image of the elements that lower generators span, and together with the dimension of that image their number
gives the dimension of what is to be hit: the module for stage 0, else the kernel of the map out of the stage
below. In the latter case the boundaries have no coefficient on generators. -/
theorem Reachable.minimal {p : Prime} {X : Representation p} (h : Reachable X m A R) (hX : ∀ d < m, X.dim d = 0)
    (h₁ : A.IsAssociative) (h₂ : A.IsUnital) (hM : M.Shows X A t) (hc : R.hasComputed s t = true) :
    ∃ (x : Stage) (out : FreeMap) (f : ModuleMap) (boundary : ℕ → Vec), R.stage s = .ok x ∧ R.outOf s = .ok out ∧ R.mapOut A M s = .ok f ∧
      (∀ i < x.module.count t, out.output x.module ⟨t, i⟩ = .ok (boundary i)) ∧
      (LinearIndependent p.Field fun i : Fin (x.module.count t) =>
        (coordsSpan p (f.lowerImageAt p A x.module t)).mkQ ((boundary i).coords p)) ∧
      (s = 0 → ∃ n, M.dimension t = .ok n ∧
        x.module.count t + Module.finrank p.Field (coordsSpan p (f.lowerImageAt p A x.module t)) = n) ∧
      ∀ i, s = i + 1 → ∃ y g, R.stage i = .ok y ∧ R.mapOut A M i = .ok g ∧
        x.module.count t + Module.finrank p.Field (coordsSpan p (f.lowerImageAt p A x.module t)) =
          Module.finrank p.Field (coordsSpan p (g.kernelAt p t)) ∧
        ∀ j < x.module.count t, ∀ k a b, y.module.elementAt A t k = .ok (a, b) → a.degree = 0 →
          (boundary j).entry k = 0 := by
  obtain ⟨rfl, hR, hn⟩ := h.resolves hX h₁ h₂
  obtain ⟨hs, ht⟩ := (hasComputed_iff hR).mp hc
  have hx := hR.computed s
  have hout : ∀ i, ∃ v, i < (R.mappedAt s).1.count t →
      (R.mappedAt s).2.output (R.mappedAt s).1 ⟨t, i⟩ = .ok v ∧ Proper A.prime ((R.target X s).dim t) v := by
    intro i
    by_cases hi : i < (R.mappedAt s).1.count t
    · have hg : (⟨t, i⟩ : Generator) ∈ (R.mappedAt s).1.generatorList := FreeModule.mem_generatorList.mpr hi
      have hlow := FreeModule.minDegree_le hg
      rw [hx.source_min, ← hx.map_min] at hlow
      obtain ⟨v, hv, hp⟩ := hx.definedThrough t _ hg (le_refl t) hlow
      rw [hx.shift_eq, sub_zero] at hp
      exact ⟨v, fun _ => ⟨hv, hp⟩⟩
    · exact ⟨Vec.zero 0, fun hlt => absurd hlt hi⟩
  choose boundary hboundary using hout
  refine ⟨_, _, _, boundary, stage_eq hs, outOf_eq hs, mapOut_eq hs, fun i hi => (hboundary i hi).1,
    hR.linearIndependent_boundaries h₁ h₂ hn hM ht fun i hi => (FreeMap.value_of_output (hboundary i hi).1).symm,
    fun hs0 => ?_, fun i hi => ?_⟩
  · subst hs0
    refine ⟨_, hM.dimension_eq t (le_refl t), ?_⟩
    rw [← finrank_space A.prime (X.dim t)]
    exact hR.count_add_finrank h₁ h₂ hn hX hM ht
  · subst hi
    have ht' := lt_of_lt_of_le ht (hR.next_succ_le i)
    refine ⟨_, _, stage_eq (by omega), mapOut_eq (by omega), ?_, fun j hj k a b hel hdeg => ?_⟩
    · rw [hR.coordsSpan_kernelAt h₁ h₂ hn hM ht']
      exact hR.count_add_finrank h₁ h₂ hn hX hM ht
    · obtain ⟨hv, hp⟩ := hboundary j hj
      refine (coords_eq_zero_iff hp.reduced).mp ?_
      rw [← FreeMap.value_of_output hv]
      exact hR.value_apply_eq_zero hn h₁ h₂ ht hj hel hdeg

/-- The one generator of stage 1 of the resolution of the sphere in degree 1 is needed. -/
theorem minimal_ofSphere : ofSphere.hasComputed 1 1 = true ∧ ∃ x f g, ofSphere.stage 1 = .ok x ∧
    ofSphere.mapOut Algebra.first (FiniteModule.sphere.toGraded Algebra.first) 1 = .ok f ∧
      ofSphere.mapOut Algebra.first (FiniteModule.sphere.toGraded Algebra.first) 0 = .ok g ∧
      x.module.count 1 + Module.finrank Algebra.first.prime.Field
          (coordsSpan Algebra.first.prime (f.lowerImageAt Algebra.first.prime Algebra.first x.module 1)) =
        Module.finrank Algebra.first.prime.Field
          (coordsSpan Algebra.first.prime (g.kernelAt Algebra.first.prime 1)) := by
  obtain ⟨x, _, f, _, hx, _, hf, _, _, _, hlater⟩ := Reachable.minimal reachable_ofSphere
    FiniteModule.dimension_sphere_of_neg Algebra.isAssociative_first Algebra.isUnital_first (FiniteModule.shows_sphere 1)
    hasComputed_ofSphere
  obtain ⟨_, g, _, hg, hcount, _⟩ := hlater 0 rfl
  exact ⟨hasComputed_ofSphere, x, f, g, hx, hf, hg, hcount⟩

end Resolution
end Steenrod
