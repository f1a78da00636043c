import Steenrod.Proofs.Module.Generators
/-!
What can be said of a representation without the laws of a module: its action stays inside the module. Main statements:
this holds of what a view shows and of every free module, maps out of free modules then stay inside their target, and two
free modules with the same generators up to a degree agree there.
-/
namespace Steenrod

open Vec

namespace Representation

variable {p : Prime} {X : Representation p} {top : ℤ}

/-- Operations send elements to elements, for results in degrees up to `top`. -/
def ClosedThrough (X : Representation p) (top : ℤ) : Prop :=
  ∀ ⦃a : Operation⦄ ⦃d : ℤ⦄ ⦃v : ℕ → p.Field⦄, a.IsBasis p → d + a.degree ≤ top → v ∈ p.space (X.dim d) →
    X.act a d v ∈ p.space (X.dim (d + a.degree))

theorem LawfulThrough.closed (h : X.LawfulThrough top) : X.ClosedThrough top := fun _ _ _ ha hd hv => h.act_mem ha hd hv

theorem ClosedThrough.mono {low : ℤ} (h : X.ClosedThrough top) (hle : low ≤ top) : X.ClosedThrough low :=
  fun _ _ _ ha hd hv => h ha (hd.trans hle) hv

theorem free_closed (gens : List ℤ) (top : ℤ) : (free p gens).ClosedThrough top := by
  intro a d v ha hd hv
  induction gens generalizing v with
  | nil => exact Submodule.zero_mem _
  | cons g gens ih => exact glue_mem (ih (rest_mem hv))

/-- What a view shows is closed, as far as the algebra of the view is known. -/
theorem closed_of_shows {M : GradedModule} {A : Algebra} {m : ℤ} (h : M.Shows X A top) (hX : ∀ d < m, X.dim d = 0)
    (hA : top - m < A.computed) : X.ClosedThrough top := by
  intro a d v ha hd hv
  by_cases hm : d < m
  · have hzero : v = 0 := by
      rw [hX d hm] at hv
      exact funext fun i => hv i (Nat.zero_le i)
    rw [hzero, map_zero]
    exact Submodule.zero_mem _
  · obtain ⟨u, hu, rfl⟩ := exists_proper hv
    obtain ⟨w, _, hw, hc⟩ := h.act_eq 1 a d u ha (by omega) hd hu
    rw [Nat.cast_one, one_smul] at hc
    exact hc ▸ hw.coords_mem

theorem freeMap_mem_of_closed {T : Representation p} {k : ℤ} (hT : T.ClosedThrough top)
    {gens : List (ℤ × (ℕ → p.Field))} (hval : ValuesIn T k gens) {d : ℤ} (hd : d - k ≤ top) (v : ℕ → p.Field) :
    freeMap T k gens d v ∈ p.space (T.dim (d - k)) := by
  induction gens generalizing v with
  | nil => exact Submodule.zero_mem _
  | cons x gens ih =>
    obtain ⟨g, y⟩ := x
    rw [freeMap_cons]
    refine Submodule.add_mem _ (combine_mem (fun i hi => ?_) v) (ih (fun z hz => hval z (by simp [hz])) _)
    have hm := hT (d := g - k) (isBasis_of_lt hi) (by simp only; omega) (hval (g, y) (by simp))
    rwa [(by simp only; omega : g - k + (⟨d - g, i⟩ : Operation).degree = d - k)] at hm

end Representation

namespace FreeModule

variable {p : Prime} {F F' : FreeModule} {t : ℤ}

theorem generatorList_eq (F : FreeModule) : F.generatorList =
    (GradedModule.degreesBetween F.minDegree (F.nextDegree - 1)).flatMap fun d =>
      (List.range (F.count d)).map fun i => ⟨d, i⟩ := by
  have hpairs : F.generators.pairs =
      F.generators.degrees.map fun d => (d, (F.generators.get? d).getD []) := by
    refine List.ext_getElem (by simp [Graded.pairs, Graded.degrees, Graded.toList]) fun i h₁ h₂ => ?_
    have hmem : F.generators.get? F.generators.pairs[i].1 = some F.generators.pairs[i].2 :=
      Graded.mem_pairs.mp (List.getElem_mem h₁)
    have h₃ : i < F.generators.degrees.length := by simpa using h₂
    have hfst : F.generators.pairs[i].1 = F.generators.degrees[i] := by simp [Graded.pairs]
    rw [List.getElem_map, ← hfst, hmem, Option.getD_some]
  have hdegrees : F.generators.degrees = GradedModule.degreesBetween F.minDegree (F.nextDegree - 1) := by
    rw [Graded.degrees, GradedModule.degreesBetween, nextDegree, Graded.nextDegree, minDegree]
    congr 2
    omega
  rw [generatorList, hpairs, hdegrees, List.flatMap_map]
  refine List.flatMap_congr fun d _ => ?_
  cases hget : F.generators.get? d <;> simp [count, hget]

theorem degreesBetween_append {low mid high : ℤ} (h : low ≤ mid) (h' : mid ≤ high) :
    GradedModule.degreesBetween low (high - 1) =
      GradedModule.degreesBetween low (mid - 1) ++ GradedModule.degreesBetween mid (high - 1) := by
  obtain ⟨k, rfl⟩ : ∃ k : ℕ, mid = low + k := ⟨(mid - low).toNat, by omega⟩
  obtain ⟨l, rfl⟩ : ∃ l : ℕ, high = low + k + l := ⟨(high - (low + k)).toNat, by omega⟩
  unfold GradedModule.degreesBetween
  rw [(by omega : (low + k + l - 1 + 1 - low).toNat = k + l), (by omega : (low + k - 1 + 1 - low).toNat = k),
    (by omega : (low + k + l - 1 + 1 - (low + k)).toNat = l), List.range_add, List.map_append, List.map_map]
  congr 1
  refine List.map_congr_left fun i _ => ?_
  simp only [Function.comp_apply, Nat.cast_add]
  omega

/-- The generators of degree less than `t`, degree by degree. -/
theorem below_eq (hmin : F.minDegree ≤ t) (hnext : t ≤ F.nextDegree) : F.below t =
    (GradedModule.degreesBetween F.minDegree (t - 1)).flatMap fun d => (List.range (F.count d)).map fun i => ⟨d, i⟩ := by
  have hmem : ∀ {low high : ℤ} {g : Generator}, g ∈ ((GradedModule.degreesBetween low high).flatMap fun d =>
      (List.range (F.count d)).map fun i => (⟨d, i⟩ : Generator)) → low ≤ g.degree ∧ g.degree ≤ high := by
    intro low high g hg
    obtain ⟨d, hd, hg⟩ := List.mem_flatMap.mp hg
    obtain ⟨i, _, rfl⟩ := List.mem_map.mp hg
    exact GradedModule.mem_degreesBetween.mp hd
  rw [below, generatorList_eq, degreesBetween_append hmin hnext, List.flatMap_append, List.filter_append,
    List.filter_eq_self.mpr fun g hg => decide_eq_true (by have := hmem hg; omega),
    List.filter_eq_nil_iff.mpr fun g hg => by have := hmem hg; rw [decide_eq_true_eq]; omega, List.append_nil]

/-- Below a degree only the generators below it matter. -/
theorem rep_agreeBelow_below (p : Prime) (F : FreeModule) (t : ℤ) :
    (F.rep p).AgreeBelow (Representation.free p ((F.below t).map (·.degree))) t := by
  rw [rep, ← F.below_append_above t, List.map_append]
  refine Representation.agreeBelow_append fun _ hmem => ?_
  obtain ⟨g, hg, rfl⟩ := List.mem_map.mp hmem
  exact of_decide_eq_true (List.mem_filter.mp hg).2

section Agreeing

variable (hmin : F'.minDegree = F.minDegree) (hle : F.minDegree ≤ t) (hnext : t ≤ F.nextDegree)
variable (hnext' : t ≤ F'.nextDegree) (h : ∀ d, F.minDegree ≤ d → d < t → F'.count d = F.count d)

include hmin hle hnext hnext' h

theorem below_congr : F'.below t = F.below t := by
  rw [below_eq (hmin ▸ hle) hnext', below_eq hle hnext, hmin]
  refine List.flatMap_congr fun d hd => ?_
  have := GradedModule.mem_degreesBetween.mp hd
  rw [h d this.1 (by omega)]

/-- Free modules with as many generators in each degree less than `t` agree there. -/
theorem agreeBelow_of_count_eq (p : Prime) : (F'.rep p).AgreeBelow (F.rep p) t := by
  have h' := rep_agreeBelow_below p F' t
  rw [below_congr hmin hle hnext hnext' h] at h'
  exact h'.trans (rep_agreeBelow_below p F t).symm (le_refl t)

end Agreeing

end FreeModule
end Steenrod
