import Steenrod.Proofs.Resolution.Sums
/-!
Runs of a resolution of a direct sum of finite modules, whose table grows in the meantime. Main statement: in every
bidegree that is computed in it and in resolutions of the summands, it has as many generators as those together.
-/
namespace Steenrod

open Vec

/-- The representations of a list of finite modules, and zero after its end. -/
def FiniteModule.reps (p : Prime) (Ms : List FiniteModule) (j : ℕ) : Representation p :=
  (Ms[j]?.map (·.rep p)).getD (Representation.zero p)

theorem FiniteModule.reps_eq {p : Prime} {Ms : List FiniteModule} {j : ℕ} {M : FiniteModule} (h : Ms[j]? = some M) :
    reps p Ms j = M.rep p := by rw [reps, h, Option.map_some, Option.getD_some]

namespace Resolution

variable {C A : Algebra} {M : FiniteModule} {Ms : List FiniteModule} {m t : ℤ} {T : SumTable} {R : Resolution} {s : ℕ}

/-- The states of the algebra and of a resolution of a finite module. -/
inductive ReachableFinite (p : Prime) (M : FiniteModule) : Algebra → Resolution → Prop
  | new (A : Algebra) (name : String) (budget : Option ℤ) (prime_eq : A.prime = p) :
      ReachableFinite p M A (Resolution.new name M.minDegree budget)
  | move {A A' : Algebra} {R R' : Resolution} (earlier : ReachableFinite p M A R)
      (move : Moves M.toGraded (fun _ _ => True) A R A' R') : ReachableFinite p M A' R'

/-- The states of the algebra, of the table of a direct sum of finite modules that is cut off below degree `m`, and of a
resolution of it. The table is extended before a request. -/
inductive ReachableSum (p : Prime) (Ms : List FiniteModule) (m : ℤ) : Algebra → SumTable → Resolution → Prop
  | new (A : Algebra) (name : String) (budget : Option ℤ) (prime_eq : A.prime = p) :
      ReachableSum p Ms m A (SumTable.new m) (Resolution.new name m budget)
  | extend (t : ℤ) {A : Algebra} {T T' : SumTable} {R : Resolution} (earlier : ReachableSum p Ms m A T R)
      (met : T.extend (Ms.map (·.toGraded A)) t = .ok T') : ReachableSum p Ms m A T' R
  | move {A A' : Algebra} {T : SumTable} {R R' : Resolution} (earlier : ReachableSum p Ms m A T R)
      (move : Moves (fun A => DirectSum.toGraded A.prime (Ms.map (·.toGraded A)) T) (fun _ t => t < T.offsets.nextDegree)
        A R A' R') : ReachableSum p Ms m A' T R'

theorem ReachableFinite.reachable (h : ReachableFinite C.prime M A R) (h₁ : C.IsAssociative) (h₂ : C.IsUnital)
    (hM : M.IsModule C) (hA : A.computed ≤ C.computed) :
    A.prime = C.prime ∧ Reachable (M.rep C.prime) M.minDegree A R := by
  induction h with
  | new A name budget hp => exact ⟨hp, .new A name budget hp⟩
  | @move A A' R R' earlier move ih =>
    have hf := move.follows
    have hle := hf.computed_le
    obtain ⟨hp, hR⟩ := ih (by omega)
    have hp' : A'.prime = C.prime := hf.prime_eq.symm.trans hp
    obtain ⟨_, hresolves, _⟩ := hR.resolves (fun d hd => FiniteModule.dimension_of_lt hd)
      (h₁.restrict hp (by omega)) (h₂.restrict hp (by omega))
    have hmin := hresolves.minDegree_eq
    exact ⟨hp', .move _ hR (move.promised fun t _ ht => FiniteModule.shows_of_isModule hM hp' hA (hmin ▸ ht))⟩

/-- A direct sum over an algebra that is known at least as far as it is used: what its parts are and how far down they
reach. -/
structure Summands (C : Algebra) (Ms : List FiniteModule) (m : ℤ) : Prop where
  assoc : C.IsAssociative
  unital : C.IsUnital
  isModule : ∀ M ∈ Ms, M.IsModule C
  le_minDegree : ∀ M ∈ Ms, m ≤ M.minDegree

namespace Summands

variable (h : Summands C Ms m)

include h

theorem reps_zero_below : ∀ d < m, ∀ j < Ms.length, (FiniteModule.reps C.prime Ms j).dim d = 0 := by
  intro d hd j hj
  have hle := h.le_minDegree _ (List.getElem_mem hj)
  rw [FiniteModule.reps_eq (List.getElem?_eq_getElem hj)]
  exact FiniteModule.dimension_of_lt (by omega)

theorem zero_below : ∀ d < m, (Representation.directSum Ms.length (FiniteModule.reps C.prime Ms)).dim d = 0 :=
  fun d hd => Finset.sum_eq_zero fun j hj => h.reps_zero_below d hd j (Finset.mem_range.mp hj)

theorem reps_lawful (ht : t - m < C.computed) :
    ∀ j < Ms.length, (FiniteModule.reps C.prime Ms j).LawfulThrough t := by
  intro j hj
  have hmem := List.getElem_mem hj
  have hle := h.le_minDegree _ hmem
  rw [FiniteModule.reps_eq (List.getElem?_eq_getElem hj)]
  exact (h.isModule _ hmem).lawful.mono (by omega)

theorem acts (hp : A.prime = C.prime) (hA : A.computed ≤ C.computed) (t : ℤ) :
    ∀ j < Ms.length, ∃ M, (Ms.map (·.toGraded A))[j]? = some M ∧
      GradedModule.ActsAs M (FiniteModule.reps C.prime Ms j) A t := by
  intro j hj
  have hstored := (h.isModule _ (List.getElem_mem hj)).stored
  have hstored' : Ms[j].StoredBelow A.prime A.computed := fun a d i ha hpos hlt hi hdim =>
    hstored a d i (hp ▸ ha) hpos (by omega) hi hdim
  refine ⟨Ms[j].toGraded A, by rw [List.getElem?_map, List.getElem?_eq_getElem hj, Option.map_some], ?_⟩
  rw [FiniteModule.reps_eq (List.getElem?_eq_getElem hj)]
  exact hp ▸ FiniteModule.actsAs hstored' t

end Summands

theorem summandDimension_map (A : Algebra) (p : Prime) (Ms : List FiniteModule) (j : ℕ) (M : GradedModule)
    (hM : (Ms.map (·.toGraded A))[j]? = some M) (d : ℤ) :
    SumTable.summandDimension M d = .ok ((FiniteModule.reps p Ms j).dim d) := by
  rw [List.getElem?_map] at hM
  obtain ⟨N, hN, rfl⟩ := Option.map_eq_some_iff.mp hM
  rw [FiniteModule.reps_eq hN]
  exact FiniteModule.summandDimension_toGraded N A d

/-- The table holds the dimensions of the summands, and the resolution is one of the direct sum. -/
theorem ReachableSum.reachable (h : ReachableSum C.prime Ms m A T R) (hs : Summands C Ms m)
    (hA : A.computed ≤ C.computed) :
    A.prime = C.prime ∧ SumTable.Records m Ms.length (fun d j => (FiniteModule.reps C.prime Ms j).dim d) T ∧
      Reachable (Representation.directSum Ms.length (FiniteModule.reps C.prime Ms)) m A R := by
  induction h with
  | new A name budget hp => exact ⟨hp, SumTable.records_new m _ _, .new A name budget hp⟩
  | extend t earlier met ih =>
    obtain ⟨hp, hT, hR⟩ := ih hA
    exact ⟨hp, (hT.extend (List.length_map _) (fun j M hM d _ _ => summandDimension_map _ C.prime Ms j M hM d) met).1, hR⟩
  | @move A A' T R R' earlier move ih =>
    have hf := move.follows
    have hle := hf.computed_le
    obtain ⟨hp, hT, hR⟩ := ih (by omega)
    have hp' : A'.prime = C.prime := hf.prime_eq.symm.trans hp
    obtain ⟨_, hresolves, _⟩ := hR.resolves hs.zero_below (hs.assoc.restrict hp (by omega)) (hs.unital.restrict hp (by omega))
    have hmin := hresolves.minDegree_eq
    refine ⟨hp', hT, .move _ hR (move.promised fun t htable ht => ⟨?_, ?_⟩)⟩
    · exact DirectSum.shows_of_prime_eq hp' hT htable hs.reps_zero_below (hs.acts hp' hA t)
    · exact Representation.lawful_directSum (hs.reps_lawful (by omega))

/-- In every state the resolution reaches as far as bidegrees are computed. -/
theorem Reachable.resolvesThrough {X : Representation C.prime} (h : Reachable X m A R) (hX : ∀ d < m, X.dim d = 0)
    (h₁ : C.IsAssociative) (h₂ : C.IsUnital) (hp : A.prime = C.prime) (hA : A.computed ≤ C.computed)
    (hc : R.hasComputed s t = true) : s < R.stages.size ∧ ResolvesThrough X C.computed s t R := by
  obtain ⟨_, hR, hknown⟩ := h.resolves hX (h₁.restrict hp hA) (h₂.restrict hp hA)
  obtain ⟨hs, ht⟩ := (hasComputed_iff hR).mp hc
  have hmin := hR.minDegree_eq
  exact ⟨hs, hmin ▸ hR, hmin ▸ hX, C.lawfulBelow h₁ h₂, by omega, ht⟩

theorem count_eq_ok (hs : s < R.stages.size) (t : ℤ) : R.count s t = .ok ((R.free s).count t) := by
  rw [count, stage_eq hs]
  rfl

/-- Charts of direct sums add. In every state of a resolution of a direct sum of finite modules and in every state of
resolutions of the summands: where all of them are computed, the number of generators of the direct sum is the sum of
the numbers of generators of the summands. -/
theorem ReachableSum.count_eq_sum (h : ReachableSum C.prime Ms m A T R) (hs : Summands C Ms m)
    (hA : A.computed ≤ C.computed) {B : ℕ → Algebra} {S : ℕ → Resolution}
    (hS : ∀ j, ∀ hj : j < Ms.length, ReachableFinite C.prime Ms[j] (B j) (S j))
    (hB : ∀ j < Ms.length, (B j).computed ≤ C.computed) (hc : R.hasComputed s t = true)
    (hcs : ∀ j < Ms.length, (S j).hasComputed s t = true) :
    ∃ counts : ℕ → ℕ, (∀ j < Ms.length, (S j).count s t = .ok (counts j)) ∧
      R.count s t = .ok (∑ j ∈ Finset.range Ms.length, counts j) := by
  obtain ⟨hp, _, hR⟩ := h.reachable hs hA
  obtain ⟨hsize, hthrough⟩ := hR.resolvesThrough hs.zero_below hs.assoc hs.unital hp hA hc
  have hparts : ∀ j < Ms.length, s < (S j).stages.size ∧
      ResolvesThrough (FiniteModule.reps C.prime Ms j) C.computed s t (S j) := by
    intro j hj
    have hmodule := hs.isModule _ (List.getElem_mem hj)
    obtain ⟨hp, hR⟩ := (hS j hj).reachable hs.assoc hs.unital hmodule (hB j hj)
    rw [FiniteModule.reps_eq (List.getElem?_eq_getElem hj)]
    exact hR.resolvesThrough (fun d hd => FiniteModule.dimension_of_lt hd) hs.assoc hs.unital hp (hB j hj) (hcs j hj)
  have hlt := hthrough.sub_lt
  have hmin : R.minDegree = m := (hR.resolves hs.zero_below (hs.assoc.restrict hp hA) (hs.unital.restrict hp hA)).2.1.minDegree_eq
  refine ⟨fun j => ((S j).free s).count t, fun j hj => count_eq_ok (hparts j hj).1 t, ?_⟩
  rw [count_eq_ok hsize, count_directSum (hs.reps_lawful (by omega)) hthrough fun j hj => (hparts j hj).2]

/-- The table of the direct sum of two spheres through degree 1. -/
def twoSpheresTable : SumTable := ⟨Graded.ofList 0 [#[0, 1, 2], #[0, 0, 0]]⟩

/-- The resolution of the direct sum of two spheres through stage 1 and degree 1. -/
def ofTwoSpheres : Resolution :=
  ((Resolution.new "S + S" 0 none).computeThrough Algebra.first (DirectSum.toGraded Algebra.first.prime
    ([FiniteModule.sphere, FiniteModule.sphere].map (·.toGraded Algebra.first)) twoSpheresTable) 1 1).toOption.getD
    (Resolution.new "S + S" 0 none)

theorem run_request_ofTwoSpheres : ((Resolution.new "S + S" 0 none).request (fun A => DirectSum.toGraded A.prime
    ([FiniteModule.sphere, FiniteModule.sphere].map (·.toGraded A)) twoSpheresTable) 1 1).run Algebra.first =
    (.ok ofTwoSpheres, Algebra.first) := by
  rw [run_request_of_known rfl rfl (by decide +kernel)]
  exact congrArg (·, Algebra.first) (by decide +kernel)

/-- Two spheres have two generators in bidegree `(1, 1)` together, one each. -/
theorem count_eq_sum_ofTwoSpheres :
    ∃ counts : ℕ → ℕ, (∀ j < 2, ofSphere.count 1 1 = .ok (counts j)) ∧ counts 0 = 1 ∧
      ofTwoSpheres.count 1 1 = .ok (∑ j ∈ Finset.range 2, counts j) := by
  have hs : Summands Algebra.first [FiniteModule.sphere, FiniteModule.sphere] 0 := by
    refine ⟨Algebra.isAssociative_first, Algebra.isUnital_first, fun M hM => ?_, fun M hM => ?_⟩ <;>
      obtain rfl : M = FiniteModule.sphere := by simpa using hM
    · exact FiniteModule.isModule_sphere
    · exact le_refl _
  have htable : (SumTable.new 0).extend ([FiniteModule.sphere, FiniteModule.sphere].map (·.toGraded Algebra.first)) 1 =
      .ok twoSpheresTable := by decide +kernel
  have hsum : ReachableSum Algebra.first.prime [FiniteModule.sphere, FiniteModule.sphere] 0 Algebra.first twoSpheresTable
      ofTwoSpheres := .move (.extend 1 (.new Algebra.first "S + S" none rfl) htable)
    (.request 1 1 run_request_ofTwoSpheres (by decide))
  have hsphere : ReachableFinite Algebra.first.prime FiniteModule.sphere Algebra.first ofSphere :=
    .move (.new Algebra.first "S" none rfl) (.request 1 1 run_request_ofSphere trivial)
  have hparts : ∀ j, ∀ hj : j < [FiniteModule.sphere, FiniteModule.sphere].length,
      ReachableFinite Algebra.first.prime [FiniteModule.sphere, FiniteModule.sphere][j] Algebra.first ofSphere := by
    intro j hj
    obtain rfl | rfl : j = 0 ∨ j = 1 := by simp at hj; omega
    · exact hsphere
    · exact hsphere
  obtain ⟨counts, hcounts, hcount⟩ := ReachableSum.count_eq_sum hsum hs (le_refl _) hparts (fun _ _ => le_refl _)
    (s := 1) (t := 1) (by decide +kernel) (fun _ _ => hasComputed_ofSphere)
  have hone : ofSphere.count 1 1 = .ok 1 := by decide +kernel
  exact ⟨counts, hcounts, Except.ok.inj ((hcounts 0 (by decide)).symm.trans hone), hcount⟩

end Resolution
end Steenrod
