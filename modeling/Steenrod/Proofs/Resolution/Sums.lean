import Steenrod.Proofs.Module.DirectSum
import Steenrod.Proofs.Resolution.Comparison
/-!
Resolutions of direct sums. Main statement: a resolution of a direct sum has as many generators in a bidegree as
resolutions of the summands have together, because the coefficients of chain maps over the inclusions and the projections
are inverse matrices.
-/
namespace Steenrod
namespace Resolution

open Steenrod.Representation

variable {p : Prime} {X Y Z : Representation p} {k τ n : ℤ} {s i j : ℕ} {φ χ : Family p} {S T U : Resolution}

theorem chain_zero (X Y : Representation p) (k τ : ℤ) (S T : Resolution) (s : ℕ) : Chain X Y k τ 0 S T s 0 where
  hom _ _ := hom_zero _ _ k τ
  comm i _ d _ v _ := by
    rw [Pi.zero_apply, Pi.zero_apply, LinearMap.zero_apply, map_zero]
    cases i <;> rfl

theorem chain_id (X : Representation p) (τ : ℤ) (S : Resolution) (s : ℕ) :
    Chain X X 0 τ (fun _ => LinearMap.id) S S s fun _ _ => LinearMap.id where
  hom _ _ := hom_id _ τ
  comm i _ d _ v _ := by
    rw [sub_zero]
    cases i <;> rfl

theorem chain_sum (I : Finset ℕ) {φ : ℕ → Family p} {ψ : ℕ → ℕ → Family p}
    (h : ∀ j ∈ I, Chain X Y k τ (φ j) S T s (ψ j)) : Chain X Y k τ (∑ j ∈ I, φ j) S T s (∑ j ∈ I, ψ j) := by
  induction I using Finset.cons_induction with
  | empty => exact chain_zero X Y k τ S T s
  | cons j I hj ih =>
    rw [Finset.sum_cons, Finset.sum_cons]
    exact (h j (Finset.mem_cons_self j I)).add (ih fun i hi => h i (Finset.mem_cons_of_mem hi))

theorem coefficient_sum (I : Finset ℕ) (ψ : ℕ → ℕ → Family p) (d : ℤ) (i j : ℕ) :
    coefficient k S T s ((∑ r ∈ I, ψ r) s) d i j = ∑ r ∈ I, coefficient k S T s (ψ r s) d i j := by
  simp only [coefficient, Finset.sum_apply, LinearMap.sum_apply]

theorem coefficient_id (hi : i < (S.free s).count τ) (hj : j < (S.free s).count τ) :
    coefficient 0 S S s (fun _ => LinearMap.id : Family p) τ i j = if i = j then 1 else 0 := by
  rw [coefficient, sub_zero, LinearMap.id_apply, FreeModule.generator, Pi.single_apply]
  exact if_congr ((FreeModule.placeOf_inj hj hi).trans eq_comm) rfl rfl

/-- The coefficients of a composite of chain maps that leave degrees as they are. -/
theorem Chain.coefficient_comp_of_zero {ψ ω ν : ℕ → Family p} {χ' : Family p} (h : Chain X Y 0 τ φ S T s ψ)
    (h' : Chain Y Z 0 τ χ T U s ω) (h'' : Chain X Z 0 τ χ' S U s ν) (hS : ResolvesThrough X n s τ S)
    (hT : ResolvesThrough Y n s τ T) (hU : ResolvesThrough Z n s τ U)
    (heq : ∀ d ≤ τ, ∀ v ∈ p.space (X.dim d), χ' d v = χ d (φ d v)) (hi : i < (S.free s).count τ)
    (hj : j < (U.free s).count τ) :
    coefficient 0 S U s (ν s) τ i j = ∑ r ∈ Finset.range ((T.free s).count τ),
      coefficient 0 S T s (ψ s) τ i r * coefficient 0 T U s (ω s) τ r j := by
  have h'₀ : Chain Y Z 0 (τ - 0) χ T U s ω := by rwa [sub_zero]
  have hT₀ : ResolvesThrough Y n s (τ - 0) T := by rwa [sub_zero]
  have hU₀ : ResolvesThrough Z n s (τ - (0 + 0)) U := by rwa [add_zero, sub_zero]
  have heq₀ : ∀ d ≤ τ, ∀ v ∈ p.space (X.dim d), χ' d v = χ (d - 0) (φ d v) := fun d hd v hv => by
    rw [sub_zero]
    exact heq d hd v hv
  have hj₀ : j < (U.free s).count (τ - (0 + 0)) := by rwa [add_zero, sub_zero]
  have hcomp := h.coefficient_comp h'₀ h'' hS hT₀ hU₀ heq₀ hi hj₀
  simp only [sub_zero, add_zero] at hcomp
  exact hcomp

section Sum

variable {N : ℕ} {Y : ℕ → Representation p} {T : ℕ → Resolution}

/-- Generators add up: in a bidegree in which all are computed, a resolution of a direct sum has as many of them as
resolutions of the summands. -/
theorem count_directSum (hY : ∀ j < N, (Y j).LawfulThrough τ) (hS : ResolvesThrough (directSum N Y) n s τ S)
    (hT : ∀ j < N, ResolvesThrough (Y j) n s τ (T j)) :
    (S.free s).count τ = ∑ j ∈ Finset.range N, ((T j).free s).count τ := by
  have hinclusions : ∀ j, ∃ ψ, j < N → Chain (Y j) (directSum N Y) 0 τ (inclusion Y j) (T j) S s ψ := fun j => by
    by_cases hj : j < N
    · obtain ⟨ψ, hψ⟩ := exists_chain (hom_inclusion hj) (hT j hj) (by rw [sub_zero]; exact hS)
      exact ⟨ψ, fun _ => hψ⟩
    · exact ⟨0, fun h => absurd h hj⟩
  have hprojections : ∀ j, ∃ ψ, j < N → Chain (directSum N Y) (Y j) 0 τ (projection Y j) S (T j) s ψ := fun j => by
    by_cases hj : j < N
    · obtain ⟨ψ, hψ⟩ := exists_chain (hom_projection hj (hY j hj)) hS (by rw [sub_zero]; exact hT j hj)
      exact ⟨ψ, fun _ => hψ⟩
    · exact ⟨0, fun h => absurd h hj⟩
  choose ι hι using hinclusions
  choose π hπ using hprojections
  -- Projections after inclusions: the coefficients are those of the identity or of zero.
  have hinto : ∀ (j j' : ℕ), j < N → j' < N → ∀ i < ((T j).free s).count τ, ∀ i' < ((T j').free s).count τ,
      ∑ r ∈ Finset.range ((S.free s).count τ),
        coefficient 0 (T j) S s (ι j s) τ i r * coefficient 0 S (T j') s (π j' s) τ r i' =
          if j = j' ∧ i = i' then 1 else 0 := by
    intro j j' hj hj' i hi i' hi'
    by_cases hjj : j = j'
    · subst hjj
      rw [← (hι j hj).coefficient_comp_of_zero (hπ j hj) (chain_id (Y j) τ (T j) s) (hT j hj) hS (hT j hj)
        (fun d _ v hv => (projection_inclusion hv).symm) hi hi', coefficient_id hi hi']
      exact if_congr (by simp) rfl rfl
    · rw [← (hι j hj).coefficient_comp_of_zero (hπ j' hj') (chain_zero (Y j) (Y j') 0 τ (T j) (T j') s) (hT j hj) hS
        (hT j' hj') (fun d _ v _ => (projection_inclusion_of_ne (Ne.symm hjj) v).symm) hi hi', if_neg fun h => hjj h.1]
      rfl
  -- Inclusions after projections add up to the identity.
  have honto : ∀ r < (S.free s).count τ, ∀ r' < (S.free s).count τ,
      ∑ j ∈ Finset.range N, ∑ i ∈ Finset.range (((T j).free s).count τ),
        coefficient 0 S (T j) s (π j s) τ r i * coefficient 0 (T j) S s (ι j s) τ i r' = if r = r' then 1 else 0 := by
    intro r hr r' hr'
    have hcomps : ∀ j ∈ Finset.range N, Chain (directSum N Y) (directSum N Y) 0 τ
        (fun d => inclusion Y j d ∘ₗ projection Y j d) S S s fun i d => ι j i d ∘ₗ π j i d := by
      intro j hj
      have hj := Finset.mem_range.mp hj
      have hcomp := (hπ j hj).comp (l := 0) (χ := inclusion Y j) (ω := ι j) (U := S) (by rw [sub_zero]; exact hι j hj)
      simpa only [sub_zero, add_zero] using hcomp
    have hsum := chain_sum (Finset.range N) hcomps
    rw [← coefficient_id hr hr', (chain_id (directSum N Y) τ S s).coefficient_eq hsum hS (by rw [sub_zero]; exact hS)
      (fun d _ v hv => ?_) hr (by rw [sub_zero]; exact hr'), coefficient_sum]
    · refine Finset.sum_congr rfl fun j hj => ?_
      have hj' := Finset.mem_range.mp hj
      exact ((hπ j hj').coefficient_comp_of_zero (hι j hj') (hcomps j hj) hS (hT j hj') hS (fun _ _ _ _ => rfl) hr hr').symm
    · rw [LinearMap.id_apply, Finset.sum_apply, LinearMap.sum_apply]
      exact (sum_inclusion_projection hv).symm
  let P := Matrix.of fun (r : Fin ((S.free s).count τ)) (x : Σ j : Fin N, Fin (((T j).free s).count τ)) =>
    coefficient 0 S (T x.1) s (π x.1 s) τ r x.2
  let Q := Matrix.of fun (x : Σ j : Fin N, Fin (((T j).free s).count τ)) (r : Fin ((S.free s).count τ)) =>
    coefficient 0 (T x.1) S s (ι x.1 s) τ x.2 r
  have hPQ : P * Q = 1 := by
    ext r r'
    rw [Matrix.mul_apply, Matrix.one_apply, Fintype.sum_sigma]
    refine Eq.trans ?_ ((honto r r.isLt r' r'.isLt).trans (if_congr Fin.ext_iff.symm rfl rfl))
    rw [Finset.sum_range]
    refine Finset.sum_congr rfl fun j _ => ?_
    rw [Finset.sum_range]
    rfl
  have hQP : Q * P = 1 := by
    ext ⟨j, i⟩ ⟨j', i'⟩
    rw [Matrix.mul_apply, Matrix.one_apply]
    have hentry := hinto j j' j.isLt j'.isLt i i.isLt i' i'.isLt
    rw [Finset.sum_range] at hentry
    refine Eq.trans hentry (if_congr ?_ rfl rfl)
    constructor
    · rintro ⟨hj, hi⟩
      obtain rfl := Fin.ext hj
      obtain rfl := Fin.ext hi
      rfl
    · intro h
      cases h
      exact ⟨rfl, rfl⟩
  have hcard := Matrix.square_of_invertible P Q hPQ hQP
  rw [Fintype.card_fin, Fintype.card_sigma] at hcard
  rw [hcard, Finset.sum_range]
  exact Finset.sum_congr rfl fun j _ => Fintype.card_fin _

end Sum

end Resolution
end Steenrod
