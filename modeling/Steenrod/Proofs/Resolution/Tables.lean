import Steenrod.Proofs.Resolution.Progress
/-!
The tables of a resolution after any run. Main statements: a step that succeeds is the step in the next degree of its
stage, so that everything that succeeds leaves what the steps have recorded; and where two runs have computed a
bidegree, the maps of their resolutions are the same there.
-/
namespace Steenrod

theorem FreeModule.count_of_lt {F : FreeModule} {d : ℤ} (h : d < F.minDegree) : F.count d = 0 := by
  have hnone : F.generators.get? d = none := if_pos h
  rw [count, hnone]
  rfl

namespace Resolution

open Vec

variable {p : Prime} {m t d : ℤ} {R R' : Resolution} {s : ℕ} {A A' : Algebra} {M : GradedModule}

/-- What a request through degree `t` finds. That its degrees are signed words is checked by the steps. -/
structure Offered {A : Algebra} (X : Representation A.prime) (m t : ℤ) (M : GradedModule) : Prop where
  answers : A.Answers
  lt_computed : t - m < A.computed
  shows : M.Shows X A t
  zero_below : ∀ d < m, X.dim d = 0

theorem Offered.provided {X : Representation A.prime} (h : Offered X m t M) (hd : d ≤ t) (hmax : d < maxSigned) :
    Provided X m d M where
  answers := h.answers
  lt_computed := by have := h.lt_computed; omega
  lt_max := hmax
  shows := h.shows.mono hd
  zero_below := h.zero_below

theorem firstStep_cases (h : R.firstStep A M t = .ok R') : 0 < R.stages.size ∧ R.next 0 = t ∧ t < maxSigned := by
  obtain ⟨x, hx, h⟩ := Result.bind_eq_ok.mp h
  obtain ⟨_, _, h⟩ := Result.bind_eq_ok.mp h
  obtain ⟨_, _, h⟩ := Result.bind_eq_ok.mp h
  obtain ⟨_, hhit, _⟩ := Result.bind_eq_ok.mp h
  obtain ⟨hsize, rfl⟩ := stage_eq_ok hx
  obtain ⟨_, _, hby⟩ := Mapped.hit_cases hhit
  have hend := hby.end_eq
  have hle := hby.end_le
  exact ⟨hsize, hby.source_next, by omega⟩

theorem laterStep_cases (h : R.laterStep A (s + 1) t = .ok R') :
    s + 1 < R.stages.size ∧ R.next (s + 1) = t ∧ t < maxSigned ∧ t < (R.mappedAt s).2.kernels.nextDegree := by
  obtain ⟨x, hx, h⟩ := Result.bind_eq_ok.mp h
  obtain ⟨_, _, h⟩ := Result.bind_eq_ok.mp h
  obtain ⟨_, hwanted, h⟩ := Result.bind_eq_ok.mp h
  obtain ⟨_, hhit, _⟩ := Result.bind_eq_ok.mp h
  obtain ⟨hsize, rfl⟩ := stage_eq_ok hx
  obtain ⟨_, _, hby⟩ := Mapped.hit_cases hhit
  have hend := hby.end_eq
  have hle := hby.end_le
  have hrange := (Graded.get?_isSome_iff _ t).mp (Option.isSome_iff_exists.mpr ⟨_, kernelBelow_eq_ok hwanted⟩)
  exact ⟨hsize, hby.source_next, by omega, hrange.2⟩

section Steps

variable {X : Representation A.prime} (hR : R.Built X m)

include hR

theorem Built.of_step_eq_ok (hg : Offered X m t M) (hd : d ≤ t) (hm : m ≤ d) (h : R.step A M s d = .ok R') :
    R'.Built X m := by
  unfold step at h
  split at h
  · obtain rfl := Except.ok.inj h
    exact hR
  split at h
  · next hs =>
    subst hs
    obtain ⟨hsize, hnext, hmax⟩ := firstStep_cases h
    obtain ⟨R₁, hok, _, hbuilt⟩ := exists_firstStep hR (hg.provided hd hmax) hm hsize hnext
    obtain rfl := Except.ok.inj (h.symm.trans hok)
    exact hbuilt
  · obtain ⟨i, rfl⟩ : ∃ i, s = i + 1 := ⟨s - 1, by omega⟩
    obtain ⟨hsize, hnext, hmax, hkernel⟩ := laterStep_cases h
    rw [(hR.stage i).kernels_next] at hkernel
    obtain ⟨R₁, hok, _, hbuilt⟩ := exists_laterStep hR (hg.provided hd hmax) hm hsize hnext hkernel
    obtain rfl := Except.ok.inj (h.symm.trans hok)
    exact hbuilt

theorem Built.of_computeThrough_eq_ok (hg : Offered X m t M) (h : R.computeThrough A M s t = .ok R') :
    R'.Built X m := by
  refine Result.foldlM_invariant (I := fun R => R.Built X m) ?_ ((sameStages_extendStages R s).built hR) h
  rintro ⟨i, d⟩ hmem R₁ R₂ hR₁ hstep
  obtain ⟨_, hlow, hd⟩ := mem_bidegrees.mp hmem
  exact hR₁.of_step_eq_ok hg hd (hR.minDegree_eq ▸ hlow) hstep

end Steps

/-- A request that is met, or is not, leaves tables. -/
theorem Moves.built {X : Representation p} {M : Algebra → GradedModule}
    (h : Moves M (fun A t => (M A).Shows X A t) A R A' R') (hR : R.Built X m) (hp : A'.prime = p) (hA : A'.Answers)
    (hX : ∀ d < m, X.dim d = 0) : R'.Built X m := by
  subst hp
  cases h with
  | extend d => exact hR
  | refused s t e refusal => exact hR
  | budget budget => exact SameStages.built (R := R) ⟨rfl, rfl, rfl⟩ hR
  | request s t met kept =>
    rcases run_request M R s t A with ⟨e, he⟩ | ⟨B, hB, _, hlt⟩
    · rw [he] at met
      simp at met
    · rw [hB, Prod.mk.injEq] at met
      obtain ⟨hok, rfl⟩ := met
      rw [hR.minDegree_eq] at hlt
      exact hR.of_computeThrough_eq_ok ⟨hA, hlt, kept, hX⟩ hok

end Resolution

namespace Mapped

variable {p : Prime} {T T' : Representation p} {x x' : Mapped} {m n n' t d : ℤ}

/-- In degrees less than `t` only the generators of such degrees matter. -/
theorem linear_eq_freeMap_below (T : Representation p) (x : Mapped) (hd : d < t) : linear T x d =
    Representation.freeMap T x.2.shift ((x.1.below t).map fun g => (g.degree, x.2.value p g)) d := by
  rw [linear, FreeMap.linear, FreeMap.values, ← x.1.below_append_above t, List.map_append]
  refine Representation.freeMap_eq_zero_add _ _ fun z hz => ?_
  obtain ⟨g, hg, rfl⟩ := List.mem_map.mp hz
  have hge : t ≤ g.degree := of_decide_eq_true (List.mem_filter.mp hg).2
  exact lt_of_lt_of_le hd hge

/-- Maps with the same entries are the same. -/
theorem Built.sameAt (hx : Built T m n x) (hx' : Built T' m n' x') (hT : T'.AgreeBelow T (d + 1)) (hmd : m ≤ d)
    (hn : d < n) (hn' : d < n') (h : ∀ e, m ≤ e → e ≤ d → SameEntries x x' e) : SameAt T T' x x' d := by
  have hsame : ∀ e, m ≤ e → e < d + 1 → SameOutputs x x' e := fun e hme he => (h e hme (by omega)).toSameOutputs
  have hself := h d hmd (le_refl d)
  refine ⟨hT.dim_eq d (lt_add_one d), ?_, ?_, hself.count_eq, hself.kernels_eq, hself.inverses_eq⟩
  · exact (rep_agreeBelow_of_sameOutputs hx hx' (by omega) (by omega) (by omega) hsame).dim_eq d (lt_add_one d)
  · rw [linear_eq_freeMap_below T' x' (lt_add_one d), linear_eq_freeMap_below T x (lt_add_one d),
      below_eq_of_sameOutputs hx hx' (by omega) (by omega) (by omega) hsame, hx'.shift_eq, hx.shift_eq,
      Representation.freeMap_congr hT _ _ (by omega)]
    refine Representation.freeMap_congr_values _ _ Generator.degree _ _ fun g hg hd => ?_
    have hlow := hx.source_min ▸ FreeModule.minDegree_le (List.mem_filter.mp hg).1
    exact (hsame _ hlow (by omega)).value_eq (hx'.map_min.trans hx.map_min.symm)

end Mapped

namespace Resolution

variable {p : Prime} {X : Representation p} {m t : ℤ} {R R' : Resolution} {s : ℕ}

section Agreement

variable (h : R.Built X m) (h' : R'.Built X m)

include h h'

/-- Two resolutions of one module have the same generators below a degree through which both are computed. -/
theorem Built.below_eq (ht : t ≤ R.next s) (ht' : t ≤ R'.next s) :
    (R'.mappedAt s).1.below t = (R.mappedAt s).1.below t := by
  by_cases hm : m ≤ t
  · exact Mapped.below_eq_of_sameOutputs (h.stage s) (h'.stage s) hm ht ht' fun e hme he =>
      (h.sameEntries h' hme (by omega) (by omega)).toSameOutputs
  · have hempty : ∀ F : FreeModule, F.minDegree = m → F.below t = [] := fun F hF =>
      List.filter_eq_nil_iff.mpr fun g hg => by
        have := FreeModule.minDegree_le hg
        simp only [decide_eq_true_eq]
        omega
    rw [hempty _ (h.stage s).source_min, hempty _ (h'.stage s).source_min]

theorem Built.rep_agreeBelow (ht : t ≤ R.next s) (ht' : t ≤ R'.next s) :
    ((R'.mappedAt s).1.rep p).AgreeBelow ((R.mappedAt s).1.rep p) t := by
  have hle := h.le_next s
  have hle' := h'.le_next s
  refine (Mapped.rep_agreeBelow_of_sameOutputs (t := max m t) (h.stage s) (h'.stage s) (le_max_left m t) (by omega) (by omega)
    fun e hme he => ?_).mono (le_max_right m t)
  exact (h.sameEntries h' hme (by omega) (by omega)).toSameOutputs

theorem Built.target_agreeBelow (ht : t ≤ R.next s) (ht' : t ≤ R'.next s) :
    (R'.target X s).AgreeBelow (R.target X s) t := by
  cases s with
  | zero => exact Representation.AgreeBelow.refl X t
  | succ s =>
    have hle := h.next_succ_le s
    have hle' := h'.next_succ_le s
    exact h.rep_agreeBelow h' (by omega) (by omega)

/-- Two resolutions of one module have the same maps wherever both are computed. -/
theorem Built.sameAt (hm : m ≤ t) (ht : t < R.next s) (ht' : t < R'.next s) :
    Mapped.SameAt (R.target X s) (R'.target X s) (R.mappedAt s) (R'.mappedAt s) t :=
  (h.stage s).sameAt (h'.stage s) (h.target_agreeBelow h' (by omega) (by omega)) hm ht ht' fun _ hme he =>
    h.sameEntries h' hme (by omega) (by omega)

/-- A generator has one boundary, wherever it has been computed. -/
theorem Built.value_eq {g : Generator} (hm : m ≤ g.degree) (ht : g.degree < R.next s) (ht' : g.degree < R'.next s) :
    (R'.mappedAt s).2.value p g = (R.mappedAt s).2.value p g :=
  (h.sameEntries h' hm ht ht').toSameOutputs.value_eq ((h'.stage s).map_min.trans (h.stage s).map_min.symm)

theorem Built.count_eq (ht : m ≤ t → t < R.next s) (ht' : m ≤ t → t < R'.next s) :
    (R'.stageAt s).module.count t = (R.stageAt s).module.count t := by
  by_cases hm : m ≤ t
  · have hlt := ht hm
    exact (h.sameEntries h' hm hlt (ht' hm)).toSameOutputs.count_eq
  · have hmin : (R.stageAt s).module.minDegree = m := (h.stage s).source_min
    have hmin' : (R'.stageAt s).module.minDegree = m := (h'.stage s).source_min
    rw [FreeModule.count_of_lt (by omega), FreeModule.count_of_lt (by omega)]

end Agreement

end Resolution
end Steenrod
