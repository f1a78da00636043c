import Steenrod.Proofs.Resolution.Hit
/-!
What is true of a resolution at every moment: each stage is computed through a degree that does not increase with
the stage, and its image is what the stage below leaves over. Main statement: computing a bidegree keeps this.
-/
namespace Steenrod
namespace Resolution

open Vec

variable {p : Prime} {X : Representation p} {m t d : ℤ} {R R' : Resolution} {s i : ℕ}

/-- Stage `s`; one that does not exist yet is taken as it will be when it is made. -/
def stageAt (R : Resolution) (s : ℕ) : Stage := R.stages[s]?.getD (newStage s R.minDegree)

/-- Stage `s` with the map out of it, the augmentation for stage 0. -/
def mappedAt (R : Resolution) (s : ℕ) : Mapped :=
  ((R.stageAt s).module, if s = 0 then R.augmentation else (R.stageAt s).differential)

/-- What the map out of stage `s` goes to. -/
def target (X : Representation p) (R : Resolution) : ℕ → Representation p
  | 0 => X
  | s + 1 => (R.stageAt s).module.rep p

/-- The first degree in which stage `s` is not computed. -/
def next (R : Resolution) (s : ℕ) : ℤ := (R.stageAt s).module.nextDegree

/-- What the image of the map out of stage `s` has to be in degree `d`. -/
def cycles (X : Representation p) (R : Resolution) : ℕ → ℤ → Submodule p.Field (ℕ → p.Field)
  | 0, d => p.space (X.dim d)
  | s + 1, d => Mapped.kernel (R.target X s) (R.mappedAt s) d

/-- `R` resolves `X`, which is zero below degree `m`, as far as it is computed. -/
structure Resolves (X : Representation p) (m : ℤ) (R : Resolution) : Prop where
  minDegree_eq : R.minDegree = m
  zero_empty : R.zero.generatorList = []
  zero_end : R.zero.tableEnd = R.next 0
  computed : ∀ s, Mapped.Computed (R.target X s) m (R.next s) (R.mappedAt s)
  next_succ_le : ∀ s, R.next (s + 1) ≤ R.next s
  differential_next : (R.stageAt 0).differential.nextDegree = R.next 0
  lawful : X.LawfulThrough (R.next 0 - 1)
  exact : ∀ s d, m ≤ d → d < R.next s → Mapped.image (R.target X s) (R.mappedAt s) d = R.cycles X s d

theorem le_next (h : R.Resolves X m) (s : ℕ) : m ≤ R.next s := by
  rw [← (h.computed s).source_min, next, FreeModule.nextDegree, Graded.nextDegree]
  exact Int.le_add_of_nonneg_right (Int.natCast_nonneg _)

theorem next_anti (h : R.Resolves X m) (hle : i ≤ s) : R.next s ≤ R.next i :=
  antitone_nat_of_succ_le h.next_succ_le hle

theorem next_le_zero (h : R.Resolves X m) (s : ℕ) : R.next s ≤ R.next 0 := next_anti h (Nat.zero_le s)

theorem differential_nextDegree (h : R.Resolves X m) (s : ℕ) : (R.stageAt s).differential.nextDegree = R.next s := by
  cases s with
  | zero => exact h.differential_next
  | succ s => exact (h.computed (s + 1)).map_next

theorem getElem?_stages (hs : s < R.stages.size) : R.stages[s]? = some (R.stageAt s) := by
  rw [stageAt, Array.getElem?_eq_getElem hs, Option.getD_some]

theorem stage_eq (hs : s < R.stages.size) : R.stage s = .ok (R.stageAt s) := by
  rw [stage, getElem?_stages hs, Result.ofOption_some]

/-- A bidegree that is computed lies below the end of its stage. -/
theorem hasComputed_iff (h : R.Resolves X m) : R.hasComputed s t = true ↔ s < R.stages.size ∧ t < R.next s := by
  unfold hasComputed
  by_cases hs : s < R.stages.size
  · rw [getElem?_stages hs, Option.any_some, differential_nextDegree h]
    simp [hs]
  · rw [Array.getElem?_eq_none (not_lt.mp hs)]
    simp [hs]

namespace Resolves

variable (h : R.Resolves X m)

include h

theorem target_lawful {n : ℤ} (hp : Milnor.LawfulBelow p n) (hX : X.LawfulThrough t) (ht : t - m < n) (s : ℕ) :
    (R.target X s).LawfulThrough t := by
  cases s with
  | zero => exact hX
  | succ s =>
    have hlow : ∀ g ∈ (R.stageAt s).module.generatorList.map (·.degree), m ≤ g := by
      intro _ hmem
      obtain ⟨g, hg, rfl⟩ := List.mem_map.mp hmem
      have hmin := (h.computed s).source_min
      have hle := FreeModule.minDegree_le hg
      exact hmin ▸ hle
    exact (Representation.free_lawful hp hlow).mono (by omega)

/-- The images of generators are among the cycles. -/
theorem value_mem_cycles {n : ℤ} (hp : Milnor.LawfulBelow p n) (hn : R.next 0 - m ≤ n) {g : Generator}
    (hg : g ∈ (R.mappedAt s).1.generatorList) : (R.mappedAt s).2.value p g ∈ R.cycles X s g.degree := by
  have hlt : g.degree < R.next s := FreeModule.degree_lt_nextDegree hg
  have hle := next_le_zero h s
  have hmin : m ≤ g.degree := (h.computed s).source_min ▸ FreeModule.minDegree_le hg
  have hT := h.target_lawful hp h.lawful (by omega) s
  obtain ⟨i, hi, _, hvalue⟩ := FreeMap.exists_generator (hT.mono (by omega : R.next s - 1 ≤ _))
    (h.computed s).defined hg (by omega) (by rw [(h.computed s).shift_eq]; omega)
  rw [← h.exact s g.degree hmin hlt, ← hvalue]
  exact Submodule.mem_map_of_mem fun j hj => Pi.single_eq_of_ne (Nat.ne_of_gt (lt_of_lt_of_le hi hj)) _

/-- The map out of a stage goes into the cycles of the stage below, also in the first degree that is not
computed. -/
theorem image_le_cycles {n : ℤ} (hp : Milnor.LawfulBelow p n) (hn : R.next 0 - m ≤ n)
    (hX : X.LawfulThrough d) (hdn : d - m < n) :
    Mapped.image (R.target X s) (R.mappedAt s) d ≤ R.cycles X s d := by
  rintro _ ⟨v, _, rfl⟩
  have hs := h.computed s
  have hT := h.target_lawful hp hX hdn s
  have hmem := Mapped.linear_mem hT hs.shift_eq hs.valuesIn (le_refl d) v
  cases s with
  | zero => exact hmem
  | succ s =>
    -- The composite with the map below is determined by what it does to generators, and there it is zero.
    have hs' := h.computed s
    have hcomm := Mapped.commutes (h.target_lawful hp hX hdn s) hs'.shift_eq hs'.valuesIn
    have hcomp := Representation.freeMap_comp hcomm hs.valuesIn (d := d) (by rw [hs.shift_eq]; omega) v
    refine Mapped.mem_kernel.mpr ⟨hmem, ?_⟩
    rw [hs.shift_eq, sub_zero, ← hs.shift_eq] at hcomp
    refine hcomp.trans ?_
    rw [Representation.freeMap_zero, LinearMap.zero_apply]
    intro z hz
    obtain ⟨w, hw, rfl⟩ := List.mem_map.mp hz
    obtain ⟨g, hg, rfl⟩ := List.mem_map.mp hw
    have hzero := (Mapped.mem_kernel.mp (h.value_mem_cycles hp hn hg)).2
    simp only
    rwa [hs.shift_eq, sub_zero]

end Resolves

/-- `R'` has all that is computed in `R`, unchanged. -/
structure Extends (X : Representation p) (R R' : Resolution) : Prop where
  minDegree_eq : R'.minDegree = R.minDegree
  next_le : ∀ i, R.next i ≤ R'.next i
  size_le : R.stages.size ≤ R'.stages.size
  same : ∀ i d, d < R.next i →
    Mapped.SameAt (R.target X i) (R'.target X i) (R.mappedAt i) (R'.mappedAt i) d
  grows : ∀ i, (R.mappedAt i).1.GrowsFrom (R.next i) (R'.mappedAt i).1
  value_eq : ∀ i (g : Generator), g.degree < R.next i → (R'.mappedAt i).2.value p g = (R.mappedAt i).2.value p g

theorem Extends.refl (X : Representation p) (R : Resolution) : Extends X R R where
  minDegree_eq := rfl
  next_le _ := le_refl _
  size_le := le_refl _
  same _ _ _ := Mapped.SameAt.refl _ _ _
  grows _ := FreeModule.GrowsFrom.refl _ _
  value_eq _ _ _ := rfl

theorem Extends.trans {R'' : Resolution} (h : Extends X R R') (h' : Extends X R' R'') : Extends X R R'' where
  minDegree_eq := h'.minDegree_eq.trans h.minDegree_eq
  next_le i := (h.next_le i).trans (h'.next_le i)
  size_le := h.size_le.trans h'.size_le
  same i d hd := (h.same i d hd).trans (h'.same i d (lt_of_lt_of_le hd (h.next_le i)))
  grows i := (h.grows i).trans (h'.grows i) (h.next_le i)
  value_eq i g hg := (h'.value_eq i g (lt_of_lt_of_le hg (h.next_le i))).trans (h.value_eq i g hg)

/-- `R'` arises from `R` by computing stage `s` in the next degree `t`. -/
structure Stepped (X : Representation p) (m t : ℤ) (s : ℕ) (R R' : Resolution) : Prop where
  minDegree_eq : R'.minDegree = R.minDegree
  zero_empty : R'.zero.generatorList = R.zero.generatorList
  zero_end : R'.zero.tableEnd = R'.next 0
  differential_next : (R'.stageAt 0).differential.nextDegree = R'.next 0
  stage_eq : ∀ i, i ≠ s → R'.mappedAt i = R.mappedAt i
  next_eq : R.next s = t
  next_le : ∀ i, s = i + 1 → t < R.next i
  lawful : s = 0 → X.LawfulThrough t
  computed : Mapped.Computed (R.target X s) m (t + 1) (R'.mappedAt s)
  sameAt : ∀ d < t, Mapped.SameAt (R.target X s) (R.target X s) (R.mappedAt s) (R'.mappedAt s) d
  size_eq : R'.stages.size = R.stages.size
  grows : (R.mappedAt s).1.GrowsFrom t (R'.mappedAt s).1
  value_eq : ∀ g : Generator, g.degree < t → (R'.mappedAt s).2.value p g = (R.mappedAt s).2.value p g
  exact : Mapped.image (R.target X s) (R'.mappedAt s) t = R.cycles X s t

namespace Stepped

variable (h : Stepped X m t s R R')

include h

theorem next_self : R'.next s = t + 1 := h.computed.source_next

theorem next_other (hi : i ≠ s) : R'.next i = R.next i :=
  congrArg (fun x : Mapped => x.1.nextDegree) (h.stage_eq i hi)

theorem next_mono (i : ℕ) : R.next i ≤ R'.next i := by
  by_cases hi : i = s
  · rw [hi, h.next_self, h.next_eq]
    omega
  · rw [h.next_other hi]

theorem target_self : R'.target X s = R.target X s := by
  cases s with
  | zero => rfl
  | succ s => exact congrArg (fun x : Mapped => x.1.rep p) (h.stage_eq s (by omega))

variable (hR : R.Resolves X m)

include hR

theorem target_agree (i : ℕ) : (R'.target X i).AgreeBelow (R.target X i) (R.next i) := by
  cases i with
  | zero => exact Representation.AgreeBelow.refl _ _
  | succ i =>
    by_cases hi : i = s
    · subst hi
      have hle := hR.next_succ_le i
      rw [h.next_eq] at hle
      exact h.grows.agree.mono hle
    · have heq : R'.target X (i + 1) = R.target X (i + 1) :=
        congrArg (fun x : Mapped => x.1.rep p) (h.stage_eq i hi)
      rw [heq]
      exact Representation.AgreeBelow.refl _ _

/-- What was computed before is as it was. -/
theorem same (i : ℕ) (hd : d < R.next i) :
    Mapped.SameAt (R.target X i) (R'.target X i) (R.mappedAt i) (R'.mappedAt i) d := by
  by_cases hi : i = s
  · subst hi
    rw [h.target_self]
    exact h.sameAt d (h.next_eq ▸ hd)
  · rw [h.stage_eq i hi]
    exact Mapped.sameAt_of_agreeBelow (h.target_agree hR i) (hR.computed i).shift_eq hd

theorem extension : Extends X R R' where
  minDegree_eq := h.minDegree_eq
  next_le := h.next_mono
  size_le := h.size_eq.ge
  same i _ hd := h.same hR i hd
  grows i := by
    by_cases hi : i = s
    · subst hi
      exact h.next_eq.symm ▸ h.grows
    · rw [h.stage_eq i hi]
      exact FreeModule.GrowsFrom.refl _ _
  value_eq i g hg := by
    by_cases hi : i = s
    · subst hi
      exact h.value_eq g (h.next_eq ▸ hg)
    · rw [h.stage_eq i hi]

theorem cycles_eq (i : ℕ) (hd : d < R.next i ∨ i = s ∧ d = t) : R'.cycles X i d = R.cycles X i d := by
  cases i with
  | zero => rfl
  | succ i =>
    refine (h.same hR i ?_).kernel_eq
    rcases hd with hd | ⟨hs, rfl⟩
    · exact lt_of_lt_of_le hd (hR.next_succ_le i)
    · exact h.next_le i hs.symm

/-- Computing a bidegree keeps a resolution a resolution. -/
theorem resolves : R'.Resolves X m where
  minDegree_eq := h.minDegree_eq.trans hR.minDegree_eq
  zero_empty := h.zero_empty.trans hR.zero_empty
  zero_end := h.zero_end
  computed i := by
    by_cases hi : i = s
    · subst hi
      rw [h.target_self, h.next_self]
      exact h.computed
    · rw [h.next_other hi, h.stage_eq i hi]
      exact (hR.computed i).of_agreeBelow (h.target_agree hR i)
  next_succ_le i := by
    by_cases hi : i + 1 = s
    · have := h.next_le i hi.symm
      rw [hi, h.next_self, h.next_other (by omega)]
      omega
    · rw [h.next_other hi]
      exact (hR.next_succ_le i).trans (h.next_mono i)
  differential_next := h.differential_next
  lawful := by
    by_cases hs : s = 0
    · have hlawful := h.lawful hs
      subst hs
      rwa [h.next_self, add_sub_cancel_right]
    · rw [h.next_other (Ne.symm hs)]
      exact hR.lawful
  exact i d hmd hd := by
    by_cases hdi : d < R.next i
    · rw [(h.same hR i hdi).image_eq, h.cycles_eq hR i (.inl hdi)]
      exact hR.exact i d hmd hdi
    · have his : i = s := by
        by_contra hi
        rw [h.next_other hi] at hd
        exact hdi hd
      subst his
      have hdt : d = t := by
        have := h.next_self
        have := h.next_eq
        omega
      rw [h.cycles_eq hR i (.inr ⟨rfl, hdt⟩), h.target_self, hdt]
      exact h.exact

end Stepped

end Resolution
end Steenrod
