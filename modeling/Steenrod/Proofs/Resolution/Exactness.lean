import Steenrod.Proofs.Resolution.Run
/-!
Exactness as it shows in what the maps of a resolution answer. Main statement: after any run the augmentation is
onto and the image of each differential is the kernel of the map before it, in all degrees that are computed.
-/
namespace Steenrod

open Vec

/-- The elements of degree `d`, by their coordinates modulo `p`. -/
def GradedModule.elements (p : Prime) (M : GradedModule) (d : ℤ) : Set Vec :=
  {v | ∃ n, M.dimension d = .ok n ∧ Proper p n v}

namespace ModuleMap

/-- The images of the elements of degree `d`. -/
def imageAt (p : Prime) (f : ModuleMap) (d : ℤ) : Set Vec :=
  {w | ∃ v ∈ f.source.elements p d, f.apply 1 d v = .ok w}

/-- The elements of degree `d` that go to zero. -/
def kernelAt (p : Prime) (f : ModuleMap) (d : ℤ) : Set Vec :=
  {v | v ∈ f.source.elements p d ∧ ∃ w, f.apply 1 d v = .ok w ∧ w.isZero = true}

/-- Every element of degree `d` has an image, which is an element of the target. -/
def AnswersAt (p : Prime) (f : ModuleMap) (d : ℤ) : Prop :=
  ∀ v ∈ f.source.elements p d, ∃ w, f.apply 1 d v = .ok w ∧ w ∈ f.target.elements p (d - f.shift)

end ModuleMap

namespace Resolution

/-- The map out of stage `s`: to the module for stage 0, to the stage below for a later one. -/
def mapOut (A : Algebra) (M : GradedModule) (R : Resolution) (s : ℕ) : Result ModuleMap :=
  if s = 0 then R.augmentationMap A M else R.differentialMap A s

variable {m t : ℤ} {R : Resolution} {s : ℕ} {A : Algebra} {M : GradedModule} {X : Representation A.prime}

/-- What the map out of stage `s` goes to, as seen through the algebra. -/
def targetView (A : Algebra) (M : GradedModule) (R : Resolution) : ℕ → GradedModule
  | 0 => M
  | s + 1 => (R.stageAt s).module.toGraded A

theorem mapOut_eq (hs : s < R.stages.size) :
    R.mapOut A M s = .ok ((R.mappedAt s).2.toMap A (R.mappedAt s).1 (R.targetView A M s)) := by
  have hstage : ∀ i < R.stages.size, R.stage i = .ok (R.stageAt i) := fun i hi => by
    rw [stage, getElem?_stages hi, Result.ofOption_some]
  cases s with
  | zero =>
    rw [mapOut, if_pos rfl, augmentationMap, hstage 0 hs]
    rfl
  | succ s =>
    rw [mapOut, if_neg (by omega), differentialMap, hstage (s + 1) hs, below, if_neg (by omega), Nat.add_sub_cancel,
      hstage s (by omega)]
    rfl

namespace Resolves

variable (h : R.Resolves X m) (h₁ : A.IsAssociative) (h₂ : A.IsUnital) (hn : R.next 0 - m ≤ A.computed)
variable (hM : M.Shows X A t) (ht : t < R.next s)

include h

omit h in
theorem knownThrough {p : Prime} {X : Representation p} (h : R.Resolves X m) (hn : R.next 0 - m ≤ A.computed)
    (ht : t < R.next s) : FreeModule.KnownThrough A (R.mappedAt s).1 t where
  lt_tableEnd := (h.computed s).table_end.symm ▸ ht
  tableEnd_le hm := (h.computed s).table_end.symm ▸ (h.computed s).end_le (by
    have := (h.computed s).source_min
    omega)
  lt_computed := by
    have := (h.computed s).source_min
    have := next_le_zero h s
    omega

include h₁ h₂ hn hM ht in
theorem shows_target : (R.targetView A M s).Shows (R.target X s) A t := by
  cases s with
  | zero => exact hM
  | succ s => exact (h.knownThrough hn (lt_of_lt_of_le ht (h.next_succ_le s))).shows h₁ h₂

include h₁ h₂ hn hM ht in
/-- What the map out of a stage answers. -/
theorem apply_eq {v : Vec} (hv : Proper A.prime (Mapped.dim A.prime (R.mappedAt s) t) v) :
    ∃ w, ((R.mappedAt s).2.toMap A (R.mappedAt s).1 (R.targetView A M s)).apply 1 t v = .ok w ∧
      Proper A.prime ((R.target X s).dim t) w ∧
      w.coords A.prime = Mapped.linear (R.target X s) (R.mappedAt s) t (v.coords A.prime) := by
  have hs := h.computed s
  have hshow := h.shows_target h₁ h₂ hn hM ht
  have hle := next_le_zero h s
  obtain ⟨w, hw, hwp, hwc⟩ := FreeMap.apply_eq (h.knownThrough hn ht) (T := R.target X s)
    (by rwa [hs.shift_eq, sub_zero]) (by rw [hs.map_min]; omega) (hs.definedThrough t) hv 1
  rw [hs.shift_eq, sub_zero] at hwp
  rw [Nat.cast_one, one_smul] at hwc
  exact ⟨w, hw, hwp, hwc⟩

omit h in
theorem apply_of_prime_eq {p : Prime} {X : Representation p} (hp : A.prime = p) (h : R.Resolves X m)
    (h₁ : A.IsAssociative) (h₂ : A.IsUnital) (hn : R.next 0 - m ≤ A.computed) (hM : M.Shows X A t) (ht : t < R.next s)
    {v : Vec} (hv : Proper p (Mapped.dim p (R.mappedAt s) t) v) :
    ∃ w, ((R.mappedAt s).2.toMap A (R.mappedAt s).1 (R.targetView A M s)).apply 1 t v = .ok w ∧
      Proper p ((R.target X s).dim t) w ∧ w.coords p = Mapped.linear (R.target X s) (R.mappedAt s) t (v.coords p) := by
  subst hp
  exact h.apply_eq h₁ h₂ hn hM ht hv

omit h in
theorem dim_eq_zero {p : Prime} {X : Representation p} (h : R.Resolves X m) (hmt : t < m) (i : ℕ) :
    Mapped.dim p (R.mappedAt i) t = 0 :=
  Representation.dim_free_eq_zero fun x hx => by
    obtain ⟨g, hg, rfl⟩ := List.mem_map.mp hx
    have hmin := (h.computed i).source_min
    have hle := FreeModule.minDegree_le hg
    exact lt_of_lt_of_le hmt (hmin ▸ hle)

omit h in
/-- In degrees below the least one image and cycles are zero. -/
theorem exact_through {p : Prime} {X : Representation p} (h : R.Resolves X m) (ht : t < R.next s)
    (hX : ∀ d < m, X.dim d = 0) :
    Mapped.image (R.target X s) (R.mappedAt s) t = R.cycles X s t := by
  by_cases hmt : m ≤ t
  · exact h.exact s t hmt ht
  · have hzero := h.dim_eq_zero (not_le.mp hmt)
    rw [Mapped.image, hzero s, space_zero, Submodule.map_bot]
    cases s with
    | zero => rw [cycles, hX t (not_le.mp hmt), space_zero]
    | succ s => rw [cycles, Mapped.kernel, hzero s, space_zero, bot_inf_eq]

omit h in
/-- The elements of a stage. -/
theorem mem_elements {p : Prime} {X : Representation p} (hp : A.prime = p) (h : R.Resolves X m)
    (hn : R.next 0 - m ≤ A.computed) (ht : t < R.next s) {v : Vec} :
    v ∈ ((R.mappedAt s).1.toGraded A).elements p t ↔ Proper p (Mapped.dim p (R.mappedAt s) t) v := by
  have hdim : ((R.mappedAt s).1.toGraded A).dimension t = .ok (Mapped.dim p (R.mappedAt s) t) :=
    (h.knownThrough hn ht).dimension_of_prime_eq hp (le_refl t)
  constructor
  · rintro ⟨n, hdimension, hv⟩
    obtain rfl := Except.ok.inj (hdim.symm.trans hdimension)
    exact hv
  · exact fun hv => ⟨_, hdim, hv⟩

include h h₁ h₂ hn hM ht

theorem mem_imageAt {w : Vec} :
    w ∈ ((R.mappedAt s).2.toMap A (R.mappedAt s).1 (R.targetView A M s)).imageAt A.prime t ↔
      Proper A.prime ((R.target X s).dim t) w ∧ w.coords A.prime ∈ Mapped.image (R.target X s) (R.mappedAt s) t := by
  constructor
  · rintro ⟨v, hv, hw⟩
    have hv := (mem_elements rfl h hn ht).mp hv
    obtain ⟨w', hw', hp, hc⟩ := h.apply_eq h₁ h₂ hn hM ht hv
    obtain rfl := Except.ok.inj (hw.symm.trans hw')
    exact ⟨hp, hc ▸ Submodule.mem_map_of_mem hv.coords_mem⟩
  · rintro ⟨hp, f, hf, hfw⟩
    obtain ⟨v, hv, rfl⟩ := exists_proper hf
    obtain ⟨w', hw', hp', hc⟩ := h.apply_eq h₁ h₂ hn hM ht hv
    obtain rfl := hp.ext hp' (hfw.symm.trans hc.symm)
    exact ⟨v, (mem_elements rfl h hn ht).mpr hv, hw'⟩

theorem mem_kernelAt {v : Vec} :
    v ∈ ((R.mappedAt s).2.toMap A (R.mappedAt s).1 (R.targetView A M s)).kernelAt A.prime t ↔
      Proper A.prime (Mapped.dim A.prime (R.mappedAt s) t) v ∧
        v.coords A.prime ∈ Mapped.kernel (R.target X s) (R.mappedAt s) t := by
  constructor
  · rintro ⟨hv, w, hw, hzero⟩
    have hv := (mem_elements rfl h hn ht).mp hv
    obtain ⟨w', hw', hp, hc⟩ := h.apply_eq h₁ h₂ hn hM ht hv
    obtain rfl := Except.ok.inj (hw.symm.trans hw')
    exact ⟨hv, Mapped.mem_kernel.mpr ⟨hv.coords_mem, hc ▸ (isZero_iff hp.reduced).mp hzero⟩⟩
  · rintro ⟨hv, hker⟩
    obtain ⟨w, hw, hp, hc⟩ := h.apply_eq h₁ h₂ hn hM ht hv
    refine ⟨(mem_elements rfl h hn ht).mpr hv, w, hw, (isZero_iff hp.reduced).mpr ?_⟩
    rw [hc]
    exact (Mapped.mem_kernel.mp hker).2

theorem answersAt : ((R.mappedAt s).2.toMap A (R.mappedAt s).1 (R.targetView A M s)).AnswersAt A.prime t := by
  intro v hv
  obtain ⟨w, hw, hp, _⟩ := h.apply_eq h₁ h₂ hn hM ht ((mem_elements rfl h hn ht).mp hv)
  have hshift : t - (R.mappedAt s).2.shift = t := by rw [(h.computed s).shift_eq, sub_zero]
  exact ⟨w, hw, _, hshift.symm ▸ (h.shows_target h₁ h₂ hn hM ht).dimension_eq t (le_refl t), hp⟩

end Resolves

/-- In every state and every bidegree that is computed, the map out of the stage answers for every element; the
augmentation hits every element of the module, and the elements that a differential hits are those that the map
before it sends to zero. -/
theorem Reachable.exact {p : Prime} {X : Representation p} (h : Reachable X m A R) (hX : ∀ d < m, X.dim d = 0)
    (h₁ : A.IsAssociative) (h₂ : A.IsUnital) (hM : M.Shows X A t) (hc : R.hasComputed s t = true) :
    ∃ f, R.mapOut A M s = .ok f ∧ f.AnswersAt p t ∧ (s = 0 → f.imageAt p t = M.elements p t) ∧
      ∀ i, s = i + 1 → ∃ g, R.mapOut A M i = .ok g ∧ g.AnswersAt p t ∧ f.imageAt p t = g.kernelAt p t := by
  obtain ⟨rfl, hR, hn⟩ := h.resolves hX h₁ h₂
  obtain ⟨hs, ht⟩ := (hasComputed_iff hR).mp hc
  have hexact := hR.exact_through ht hX
  refine ⟨_, mapOut_eq hs, hR.answersAt h₁ h₂ hn hM ht, fun hs0 => ?_, fun i hi => ?_⟩
  · subst hs0
    ext w
    rw [hR.mem_imageAt h₁ h₂ hn hM ht, hexact]
    have hdim := hM.dimension_eq t (le_refl t)
    constructor
    · exact fun hw => ⟨_, hdim, hw.1⟩
    · rintro ⟨n, hdimension, hw⟩
      obtain rfl := Except.ok.inj (hdim.symm.trans hdimension)
      exact ⟨hw, hw.coords_mem⟩
  · subst hi
    have ht' := lt_of_lt_of_le ht (hR.next_succ_le i)
    refine ⟨_, mapOut_eq (by omega), hR.answersAt h₁ h₂ hn hM ht', ?_⟩
    ext w
    rw [hR.mem_imageAt h₁ h₂ hn hM ht, hexact, hR.mem_kernelAt h₁ h₂ hn hM ht']
    rfl

/-- The resolution of the sphere is exact in degree 1 of stage 1, where `Sq1` is. -/
theorem exact_ofSphere : ofSphere.hasComputed 1 1 = true ∧ ∃ f g,
    ofSphere.mapOut Algebra.first (FiniteModule.sphere.toGraded Algebra.first) 1 = .ok f ∧
      ofSphere.mapOut Algebra.first (FiniteModule.sphere.toGraded Algebra.first) 0 = .ok g ∧
      f.imageAt Algebra.first.prime 1 = g.kernelAt Algebra.first.prime 1 := by
  obtain ⟨f, hf, _, _, hlater⟩ := Reachable.exact reachable_ofSphere FiniteModule.dimension_sphere_of_neg
    Algebra.isAssociative_first Algebra.isUnital_first (FiniteModule.shows_sphere 1) hasComputed_ofSphere
  obtain ⟨g, hg, _, himage⟩ := hlater 0 rfl
  exact ⟨hasComputed_ofSphere, f, g, hf, hg, himage⟩

end Resolution
end Steenrod
