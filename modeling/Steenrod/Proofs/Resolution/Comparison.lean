import Steenrod.Proofs.Module.Maps
import Steenrod.Proofs.Resolution.Minimality
/-!
Chain maps between resolutions. Main statements: every homomorphism has a chain map over it; a chain map over zero sends
nothing to generators, because it is a boundary up to homotopy and boundaries do not meet generators; and so the
coefficients of chain maps on generators multiply like the homomorphisms that they lie over.
-/
namespace Steenrod
namespace Resolution

open Steenrod.Representation

variable {p : Prime} {X Y Z : Representation p} {k l τ t n : ℤ} {s i : ℕ} {φ χ : Family p} {R S T U : Resolution}

/-- `R` resolves `X` through stage `s` and degree `t`, over an algebra that is known in degrees less than `n`. -/
structure ResolvesThrough (X : Representation p) (n : ℤ) (s : ℕ) (t : ℤ) (R : Resolution) : Prop where
  resolves : R.Resolves X R.minDegree
  zero_below : ∀ d < R.minDegree, X.dim d = 0
  lawful : Milnor.LawfulBelow p n
  known : R.next 0 - R.minDegree ≤ n
  lt_next : t < R.next s

/-- The map out of a stage. -/
def down (X : Representation p) (R : Resolution) (i : ℕ) : Family p := Mapped.linear (R.target X i) (R.mappedAt i)

/-- The module of a stage. -/
abbrev free (R : Resolution) (i : ℕ) : FreeModule := (R.mappedAt i).1

namespace ResolvesThrough

variable {d : ℤ} {v : ℕ → p.Field} (h : ResolvesThrough X n s t R)

include h

theorem mono {s' : ℕ} {t' : ℤ} (hs : s' ≤ s) (ht : t' ≤ t) : ResolvesThrough X n s' t' R :=
  { h with lt_next := ht.trans_lt (h.lt_next.trans_le (next_anti h.resolves hs)) }

theorem lt_zero : t < R.next 0 := h.lt_next.trans_le (next_le_zero h.resolves s)

theorem sub_lt : t - R.minDegree < n := by
  have := h.lt_zero
  have := h.known
  omega

theorem minDegree_eq (i : ℕ) : (R.free i).minDegree = R.minDegree := (h.resolves.computed i).source_min

theorem free_known (i : ℕ) : t - (R.free i).minDegree < n := by
  have := h.sub_lt
  have := h.minDegree_eq i
  omega

theorem lawfulThrough (i : ℕ) : (R.target X i).LawfulThrough t :=
  h.resolves.target_lawful h.lawful (h.resolves.lawful.mono (by have := h.lt_zero; omega)) h.sub_lt i

theorem hom_down (i : ℕ) : Hom ((R.free i).rep p) (R.target X i) 0 t (R.down X i) := by
  have hi := h.resolves.computed i
  have hhom := hom_freeMap (τ := t) (T := R.target X i) (by rw [hi.shift_eq, sub_zero]; exact h.lawfulThrough i)
    hi.valuesIn
  rw [FreeMap.values_fst, hi.shift_eq] at hhom
  have hdown : R.down X i = freeMap (R.target X i) 0 ((R.mappedAt i).2.values p (R.mappedAt i).1) := by
    funext d
    rw [down, Mapped.linear, FreeMap.linear, hi.shift_eq]
  rw [hdown]
  exact hhom

/-- The image of each map is what the stage below leaves over. -/
theorem exact_of_le (hi : i ≤ s) (hd : d ≤ t) :
    (p.space (((R.free i).rep p).dim d)).map (R.down X i d) = R.cycles X i d :=
  h.resolves.exact_through ((h.mono hi hd).lt_next) h.zero_below

/-- Elements that go to zero have no coefficients on generators. -/
theorem mem_lower_of_down_eq_zero (hi : i ≤ s) (hd : d ≤ t) (hv : v ∈ p.space (((R.free i).rep p).dim d))
    (hzero : R.down X i d v = 0) : v ∈ p.space ((R.free i).lowerDim p d) :=
  (h.resolves.minimal_through (h.mono hi hd).lt_next).1 v hv (hzero.symm ▸ Submodule.zero_mem _)

theorem down_down (hi : i + 1 ≤ s) (hd : d ≤ t) (hv : v ∈ p.space (((R.free (i + 1)).rep p).dim d)) :
    R.down X (i + 1) d v ∈ p.space (((R.free i).rep p).dim d) ∧ R.down X i d (R.down X (i + 1) d v) = 0 := by
  have hmem : R.down X (i + 1) d v ∈ R.cycles X (i + 1) d := by
    rw [← h.exact_of_le hi hd]
    exact Submodule.mem_map_of_mem hv
  exact Mapped.mem_kernel.mp hmem

/-- Boundaries have no coefficients on generators. -/
theorem down_mem_lower (hi : i + 1 ≤ s) (hd : d ≤ t) (hv : v ∈ p.space (((R.free (i + 1)).rep p).dim d)) :
    R.down X (i + 1) d v ∈ p.space ((R.free i).lowerDim p d) :=
  h.mem_lower_of_down_eq_zero (by omega) hd (h.down_down hi hd hv).1 (h.down_down hi hd hv).2

end ResolvesThrough

/-- What stage `i` of a chain map lies over: the homomorphism for stage 0, the stage below for a later one. -/
def under (φ : Family p) (ψ : ℕ → Family p) : ℕ → Family p
  | 0 => φ
  | i + 1 => ψ i

/-- `ψ` is a chain map over `φ`, of shift `k`, through stage `s` and degree `τ` of the source. -/
structure Chain (X Y : Representation p) (k τ : ℤ) (φ : Family p) (S T : Resolution) (s : ℕ) (ψ : ℕ → Family p) :
    Prop where
  hom : ∀ i ≤ s, Hom ((S.free i).rep p) ((T.free i).rep p) k τ (ψ i)
  comm : ∀ i ≤ s, ∀ d ≤ τ, ∀ v ∈ p.space (((S.free i).rep p).dim d),
    T.down Y i (d - k) (ψ i d v) = under φ ψ i d (S.down X i d v)

namespace Chain

variable {ψ ω : ℕ → Family p}

/-- One chain map followed by another. -/
theorem comp (h : Chain X Y k τ φ S T s ψ) (h' : Chain Y Z l (τ - k) χ T U s ω) :
    Chain X Z (k + l) τ (fun d => χ (d - k) ∘ₗ φ d) S U s fun i d => ω i (d - k) ∘ₗ ψ i d where
  hom i hi := (h.hom i hi).comp (h'.hom i hi)
  comm i hi d hd v hv := by
    rw [← sub_sub, LinearMap.comp_apply, h'.comm i hi _ (by omega) _ ((h.hom i hi).mem hd hv), h.comm i hi d hd v hv]
    cases i <;> rfl

theorem add {φ' : Family p} (h : Chain X Y k τ φ S T s ψ) (h' : Chain X Y k τ φ' S T s ω) :
    Chain X Y k τ (φ + φ') S T s (ψ + ω) where
  hom i hi := (h.hom i hi).add (h'.hom i hi)
  comm i hi d hd v hv := by
    simp only [Pi.add_apply, LinearMap.add_apply, map_add, h.comm i hi d hd v hv, h'.comm i hi d hd v hv]
    cases i <;> rfl

theorem sub {φ' : Family p} (h : Chain X Y k τ φ S T s ψ) (h' : Chain X Y k τ φ' S T s ω) :
    Chain X Y k τ (φ - φ') S T s (ψ - ω) where
  hom i hi := (h.hom i hi).sub (h'.hom i hi)
  comm i hi d hd v hv := by
    simp only [Pi.sub_apply, LinearMap.sub_apply, map_sub, h.comm i hi d hd v hv, h'.comm i hi d hd v hv]
    cases i <;> rfl

/-- A chain map over zero goes down to what is homotopic to zero. -/
theorem exists_homotopy (h : Chain X Y k τ φ S T s ψ) (hS : ResolvesThrough X n s τ S)
    (hT : ResolvesThrough Y n s (τ - k) T) (hzero : ∀ d ≤ τ, ∀ v ∈ p.space (X.dim d), φ d v = 0) (hi : i ≤ s) :
    ∃ ρ, Hom (S.target X i) ((T.free i).rep p) k τ ρ ∧
      (∀ d ≤ τ, ∀ v ∈ p.space (((S.free i).rep p).dim d),
        T.down Y i (d - k) (ψ i d v - ρ d (S.down X i d v)) = 0) ∧
      ∀ d ≤ τ, ∀ v ∈ p.space (((S.free i).rep p).dim d),
        ρ d (S.down X i d v) ∈ p.space ((T.free i).lowerDim p (d - k)) := by
  induction i with
  | zero =>
    refine ⟨0, hom_zero _ _ k τ, fun d hd v hv => ?_, fun d _ v _ => Submodule.zero_mem _⟩
    have hmem := (hS.hom_down 0).mem hd hv
    rw [sub_zero] at hmem
    rw [Pi.zero_apply, LinearMap.zero_apply, sub_zero, h.comm 0 hi d hd v hv]
    exact hzero d hd _ hmem
  | succ i ih =>
    obtain ⟨ρ, hρ, hdown, hlower⟩ := ih (by omega)
    have hρ' : Hom ((S.free i).rep p) ((T.free i).rep p) k τ fun d => ρ (d - 0) ∘ₗ S.down X i d := by
      have hcomp := (hS.hom_down i).comp (τ := τ) (hρ.mono (by omega))
      rwa [zero_add] at hcomp
    have hθ := (h.hom i (by omega)).sub hρ'
    have hexact : ∀ g ∈ (S.free i).generatorList, g.degree ≤ τ →
        (ψ i - fun d => ρ (d - 0) ∘ₗ S.down X i d) g.degree ((S.free i).generator p g) ∈
          (p.space (((T.free (i + 1)).rep p).dim (g.degree - k))).map (T.down Y (i + 1) (g.degree - k)) := by
      intro g hg hd
      have hmin := FreeModule.minDegree_le hg
      have hknown := hS.free_known i
      have hmem := (S.free i).generator_mem p hg
      rw [hT.exact_of_le hi (by omega)]
      refine Mapped.mem_kernel.mpr ⟨hθ.mem hd hmem, ?_⟩
      have hzero := hdown g.degree hd _ hmem
      rw [Pi.sub_apply, LinearMap.sub_apply, LinearMap.comp_apply, sub_zero]
      exact hzero
    obtain ⟨η, hη, hlift⟩ := FreeModule.exists_lift hS.lawful hθ (hT.hom_down (i + 1)) (hT.lawfulThrough (i + 2))
      (hS.free_known i) hexact
    refine ⟨η, hη, fun d hd v hv => ?_, fun d hd v hv => ?_⟩
    · obtain ⟨hmem, hdd⟩ := hS.down_down hi hd hv
      rw [map_sub, h.comm (i + 1) hi d hd v hv, hlift d hd _ hmem, Pi.sub_apply, LinearMap.sub_apply,
        LinearMap.comp_apply, hdd, map_zero, sub_zero]
      exact sub_self _
    · exact FreeModule.hom_mem_lower hS.lawful hη (hS.free_known i) hd
        (hS.down_mem_lower hi hd hv)

/-- A chain map over zero sends nothing to generators. -/
theorem mem_lower_of_zero (h : Chain X Y k τ φ S T s ψ) (hS : ResolvesThrough X n s τ S)
    (hT : ResolvesThrough Y n s (τ - k) T) (hzero : ∀ d ≤ τ, ∀ v ∈ p.space (X.dim d), φ d v = 0) {d : ℤ} (hd : d ≤ τ)
    {v : ℕ → p.Field} (hv : v ∈ p.space (((S.free s).rep p).dim d)) :
    ψ s d v ∈ p.space ((T.free s).lowerDim p (d - k)) := by
  obtain ⟨ρ, hρ, hdown, hlower⟩ := h.exists_homotopy hS hT hzero (le_refl s)
  have hρv := hlower d hd v hv
  have hdiff := hT.mem_lower_of_down_eq_zero (le_refl s) (by omega)
    (Submodule.sub_mem _ ((h.hom s (le_refl s)).mem hd hv) (FreeModule.mem_space_of_lower hρv)) (hdown d hd v hv)
  have hsum := Submodule.add_mem _ hdiff hρv
  rwa [sub_add_cancel] at hsum

end Chain

/-- Every homomorphism has a chain map over it. -/
theorem exists_chain (hφ : Hom X Y k τ φ) (hS : ResolvesThrough X n s τ S) (hT : ResolvesThrough Y n s (τ - k) T) :
    ∃ ψ, Chain X Y k τ φ S T s ψ := by
  have hstep : ∀ i ≤ s, ∀ θ, Hom (S.target X i) (T.target Y i) k τ θ →
      (∀ g ∈ (S.free i).generatorList, g.degree ≤ τ →
        θ g.degree (S.down X i g.degree ((S.free i).generator p g)) ∈ T.cycles Y i (g.degree - k)) →
      ∃ η, Hom ((S.free i).rep p) ((T.free i).rep p) k τ η ∧
        ∀ d ≤ τ, ∀ v ∈ p.space (((S.free i).rep p).dim d), T.down Y i (d - k) (η d v) = θ d (S.down X i d v) := by
    intro i hi θ hθ hcycles
    have hcomp := (hS.hom_down i).comp (hθ.mono (by omega))
    rw [zero_add] at hcomp
    obtain ⟨η, hη, hlift⟩ := FreeModule.exists_lift hS.lawful hcomp (hT.hom_down i) (hT.lawfulThrough (i + 1))
      (hS.free_known i) fun g hg hd => by
        rw [hT.exact_of_le hi (by omega), LinearMap.comp_apply, sub_zero]
        exact hcycles g hg hd
    refine ⟨η, hη, fun d hd v hv => ?_⟩
    rw [hlift d hd v hv, LinearMap.comp_apply, sub_zero]
  induction s with
  | zero =>
    have hcycles : ∀ g ∈ (S.free 0).generatorList, g.degree ≤ τ →
        φ g.degree (S.down X 0 g.degree ((S.free 0).generator p g)) ∈ T.cycles Y 0 (g.degree - k) := by
      intro g hg hd
      have hmin := FreeModule.minDegree_le hg
      have hknown := hS.free_known 0
      have hmem := (hS.hom_down 0).mem hd ((S.free 0).generator_mem p hg)
      rw [sub_zero] at hmem
      exact hφ.mem hd hmem
    obtain ⟨η, hη, hlift⟩ := hstep 0 (le_refl 0) φ hφ hcycles
    refine ⟨fun _ => η, fun i hi => ?_, fun i hi => ?_⟩
    · obtain rfl := Nat.le_zero.mp hi
      exact hη
    · obtain rfl := Nat.le_zero.mp hi
      exact hlift
  | succ s ih =>
    obtain ⟨ψ, hψ⟩ := ih (hS.mono (by omega) (le_refl τ)) (hT.mono (by omega) (le_refl _))
      fun i hi => hstep i (by omega)
    have hcycles : ∀ g ∈ (S.free (s + 1)).generatorList, g.degree ≤ τ →
        ψ s g.degree (S.down X (s + 1) g.degree ((S.free (s + 1)).generator p g)) ∈
          T.cycles Y (s + 1) (g.degree - k) := by
      intro g hg hd
      have hmin := FreeModule.minDegree_le hg
      have hknown := hS.free_known (s + 1)
      obtain ⟨hmem, hdd⟩ := hS.down_down (le_refl _) hd
        ((S.free (s + 1)).generator_mem p hg)
      refine Mapped.mem_kernel.mpr ⟨(hψ.hom s (le_refl s)).mem hd hmem, ?_⟩
      have hcomm := hψ.comm s (le_refl s) _ hd _ hmem
      rw [hdd, LinearMap.map_zero] at hcomm
      exact hcomm
    obtain ⟨η, hη, hlift⟩ := hstep (s + 1) (le_refl _) (ψ s) (hψ.hom s (le_refl s)) hcycles
    refine ⟨fun i => if i ≤ s then ψ i else η, fun i hi => ?_, fun i hi d hd v hv => ?_⟩
    · by_cases his : i ≤ s
      · rw [if_pos his]
        exact hψ.hom i his
      · obtain rfl : i = s + 1 := by omega
        rw [if_neg his]
        exact hη
    · by_cases his : i ≤ s
      · rw [if_pos his, hψ.comm i his d hd v hv]
        cases i with
        | zero => rfl
        | succ i => rw [under, under, if_pos (by omega)]
      · obtain rfl : i = s + 1 := by omega
        rw [if_neg his, hlift d hd v hv, under, if_pos (le_refl s)]

/-- The coefficient on generator `j` in degree `d - k` of the image of generator `i` in degree `d`. -/
def coefficient (k : ℤ) (S T : Resolution) (s : ℕ) (ψ : Family p) (d : ℤ) (i j : ℕ) : p.Field :=
  ψ d ((S.free s).generator p ⟨d, i⟩) ((T.free s).placeOf p (d - k) ⟨d - k, j⟩)

/-- Chain maps over the same homomorphism have the same coefficients. -/
theorem Chain.coefficient_eq {ψ ω : ℕ → Family p} {φ' : Family p} (h : Chain X Y k τ φ S T s ψ)
    (h' : Chain X Y k τ φ' S T s ω) (hS : ResolvesThrough X n s τ S) (hT : ResolvesThrough Y n s (τ - k) T)
    (heq : ∀ d ≤ τ, ∀ v ∈ p.space (X.dim d), φ d v = φ' d v) {i j : ℕ} (hi : i < (S.free s).count τ)
    (hj : j < (T.free s).count (τ - k)) :
    coefficient k S T s (ψ s) τ i j = coefficient k S T s (ω s) τ i j := by
  have hi' : (⟨τ, i⟩ : Generator) ∈ (S.free s).generatorList := FreeModule.mem_generatorList.mpr hi
  have hj' : (⟨τ - k, j⟩ : Generator) ∈ (T.free s).generatorList := FreeModule.mem_generatorList.mpr hj
  have hdiff : ∀ d ≤ τ, ∀ v ∈ p.space (X.dim d), (φ - φ') d v = 0 := fun d hd v hv => by
    rw [Pi.sub_apply, LinearMap.sub_apply, heq d hd v hv, sub_self]
  have hgenerator := (S.free s).generator_mem p hi'
  have hlower := (h.sub h').mem_lower_of_zero hS hT hdiff (le_refl τ) hgenerator
  have hloc := FreeModule.locate?_placeOf (p := p) (d := τ - k) hj' (k := 0)
    (Milnor.dim_sub_self_pos p _)
  have hzero := hlower _ ((FreeModule.degree_eq_iff_of_locate? hloc).mp rfl)
  rw [Pi.sub_apply, Pi.sub_apply, LinearMap.sub_apply, Pi.sub_apply, sub_eq_zero] at hzero
  exact hzero

/-- The coefficients of a composite are the products of matrices of coefficients. -/
theorem Chain.coefficient_comp {ψ ω ν : ℕ → Family p} {χ' : Family p} (h : Chain X Y k τ φ S T s ψ)
    (h' : Chain Y Z l (τ - k) χ T U s ω) (h'' : Chain X Z (k + l) τ χ' S U s ν) (hS : ResolvesThrough X n s τ S)
    (hT : ResolvesThrough Y n s (τ - k) T) (hU : ResolvesThrough Z n s (τ - (k + l)) U)
    (heq : ∀ d ≤ τ, ∀ v ∈ p.space (X.dim d), χ' d v = χ (d - k) (φ d v)) {i j : ℕ} (hi : i < (S.free s).count τ)
    (hj : j < (U.free s).count (τ - (k + l))) :
    coefficient (k + l) S U s (ν s) τ i j = ∑ r ∈ Finset.range ((T.free s).count (τ - k)),
      coefficient k S T s (ψ s) τ i r * coefficient l T U s (ω s) (τ - k) r j := by
  have hi' : (⟨τ, i⟩ : Generator) ∈ (S.free s).generatorList := FreeModule.mem_generatorList.mpr hi
  have hj' : (⟨τ - (k + l), j⟩ : Generator) ∈ (U.free s).generatorList := FreeModule.mem_generatorList.mpr hj
  have hgenerator := (S.free s).generator_mem p hi'
  have hmem := (h.hom s (le_refl s)).mem (le_refl τ) hgenerator
  have hrest := FreeModule.sub_combine_mem_lower hmem
  set v := ψ s τ ((S.free s).generator p ⟨τ, i⟩) with hv
  set c := combine ((T.free s).count (τ - k)) (fun r => (T.free s).generator p ⟨τ - k, r⟩)
    (fun r => v ((T.free s).placeOf p (τ - k) ⟨τ - k, r⟩)) with hc
  have hlower := FreeModule.hom_mem_lower hS.lawful (h'.hom s (le_refl s)) (hT.free_known s) (le_refl _) hrest
  have hloc := FreeModule.locate?_placeOf (p := p) (d := τ - (k + l)) hj' (k := 0)
    (Milnor.dim_sub_self_pos p _)
  have hzero := hlower ((U.free s).placeOf p (τ - (k + l)) ⟨τ - (k + l), j⟩)
    (by rw [sub_sub]; exact (FreeModule.degree_eq_iff_of_locate? hloc).mp rfl)
  rw [map_sub, Pi.sub_apply, sub_eq_zero] at hzero
  have hcomp := h''.coefficient_eq (h.comp h') hS hU heq hi hj
  rw [hcomp, coefficient, LinearMap.comp_apply, ← hv, hzero, hc, map_combine, combine_apply, Finset.sum_apply]
  refine Finset.sum_congr rfl fun r _ => ?_
  rw [coefficient, coefficient, sub_sub]
  rfl

end Resolution
end Steenrod
