import Steenrod.Proofs.Module.Generators
/-!
Linear maps between representations that commute with the action, and free modules as the source of such maps. Main
statements: a map out of a free module is determined by where it sends the generators; what generators of less degree
span goes to what generators of less degree span; and maps out of a free module lift along maps that hit the images of
the generators.
-/
namespace Steenrod

open Vec

variable {p : Prime} {X Y Z : Representation p} {k l τ d : ℤ} {n : ℤ}

/-- A family of linear maps in the degrees of a graded space. -/
abbrev Family (p : Prime) : Type := ℤ → (ℕ → p.Field) →ₗ[p.Field] (ℕ → p.Field)

namespace Representation

/-- `φ` is a linear map of shift `k` that commutes with the action, in degrees up to `τ` of the source. -/
structure Hom (X Y : Representation p) (k τ : ℤ) (φ : Family p) : Prop where
  mem : ∀ {d : ℤ} {v : ℕ → p.Field}, d ≤ τ → v ∈ p.space (X.dim d) → φ d v ∈ p.space (Y.dim (d - k))
  map_act : ∀ {a : Operation} {d : ℤ} {v : ℕ → p.Field}, a.IsBasis p → d + a.degree ≤ τ → v ∈ p.space (X.dim d) →
    φ (d + a.degree) (X.act a d v) = Y.act a (d - k) (φ d v)

namespace Hom

variable {φ ψ : Family p}

theorem mono {τ' : ℤ} (h : Hom X Y k τ φ) (hle : τ' ≤ τ) : Hom X Y k τ' φ :=
  ⟨fun hd hv => h.mem (hd.trans hle) hv, fun ha hd hv => h.map_act ha (hd.trans hle) hv⟩

/-- One map followed by another. -/
theorem comp (h : Hom X Y k τ φ) (h' : Hom Y Z l (τ - k) ψ) : Hom X Z (k + l) τ fun d => ψ (d - k) ∘ₗ φ d where
  mem {d v} hd hv := by
    rw [← sub_sub]
    exact h'.mem (by omega) (h.mem hd hv)
  map_act {a d v} ha hd hv := by
    have ha₀ := ha.nonneg
    have h₂ := h'.map_act (d := d - k) ha (by omega) (h.mem (by omega) hv)
    rw [(by omega : d - k + a.degree = d + a.degree - k), sub_sub] at h₂
    rw [LinearMap.comp_apply, LinearMap.comp_apply, h.map_act ha hd hv, h₂]

theorem add (h : Hom X Y k τ φ) (h' : Hom X Y k τ ψ) : Hom X Y k τ (φ + ψ) where
  mem hd hv := Submodule.add_mem _ (h.mem hd hv) (h'.mem hd hv)
  map_act ha hd hv := by
    simp only [Pi.add_apply, LinearMap.add_apply, map_add, h.map_act ha hd hv, h'.map_act ha hd hv]

theorem sub (h : Hom X Y k τ φ) (h' : Hom X Y k τ ψ) : Hom X Y k τ (φ - ψ) where
  mem hd hv := Submodule.sub_mem _ (h.mem hd hv) (h'.mem hd hv)
  map_act ha hd hv := by
    simp only [Pi.sub_apply, LinearMap.sub_apply, map_sub, h.map_act ha hd hv, h'.map_act ha hd hv]

end Hom

theorem hom_zero (X Y : Representation p) (k τ : ℤ) : Hom X Y k τ 0 where
  mem _ _ := Submodule.zero_mem _
  map_act _ _ _ := by simp only [Pi.zero_apply, LinearMap.zero_apply, map_zero]

theorem hom_id (X : Representation p) (τ : ℤ) : Hom X X 0 τ fun _ => LinearMap.id where
  mem _ hv := by rwa [sub_zero]
  map_act _ _ _ := by simp only [LinearMap.id_apply, sub_zero]

/-- Maps out of free modules are such maps. -/
theorem hom_freeMap {T : Representation p} (hT : T.LawfulThrough (τ - k)) {gens : List (ℤ × (ℕ → p.Field))}
    (hval : ValuesIn T k gens) : Hom (free p (gens.map (·.1))) T k τ (freeMap T k gens) where
  mem hd _ := freeMap_mem hT hval (by omega) _
  map_act ha hd _ := freeMap_act hT hval ha (by omega) _

end Representation

open Steenrod.Representation

namespace FreeModule

variable {F G : FreeModule}

/-- A generator as an element. -/
def generator (p : Prime) (F : FreeModule) (g : Generator) : ℕ → p.Field := Pi.single (F.placeOf p g.degree g) 1

/-- The number of basis elements in degree `d` whose generators are of less degree. -/
def lowerDim (p : Prime) (F : FreeModule) (d : ℤ) : ℕ := (F.rep p).dim d - F.count d

theorem lowerDim_le (p : Prime) (F : FreeModule) (d : ℤ) : F.lowerDim p d ≤ (F.rep p).dim d := Nat.sub_le _ _

theorem mem_space_of_lower {v : ℕ → p.Field} (hv : v ∈ p.space (F.lowerDim p d)) : v ∈ p.space ((F.rep p).dim d) :=
  fun i hi => hv i ((F.lowerDim_le p d).trans hi)

theorem generator_mem (p : Prime) {g : Generator} (hg : g ∈ F.generatorList) :
    F.generator p g ∈ p.space ((F.rep p).dim g.degree) :=
  fun _ hj => Pi.single_eq_of_ne (Nat.ne_of_gt ((placeOf_lt hg).trans_le hj)) _

/-- Operations of positive degree go into what generators of less degree span. -/
theorem act_mem_lower {a : Operation} (hpos : 0 < a.degree) {v : ℕ → p.Field} (hv : v ∈ p.space ((F.rep p).dim d)) :
    (F.rep p).act a d v ∈ p.space (F.lowerDim p (d + a.degree)) := by
  rw [← combine_units hv, map_combine]
  refine combine_mem (fun i hi => ?_) v
  intro j hj
  rw [rep, ← total_blocksOf] at hi
  obtain ⟨k, g, hkg⟩ := exists_locate? hi
  obtain ⟨hg, hk⟩ := locate?_spec hkg
  have hnonneg : 0 ≤ d - g.degree := (isBasis_of_lt hk).nonneg
  rw [rep, free_act_single F.nodup_generatorList hkg (startOf?_eq_placeOf hg)]
  refine if_neg fun hblock => ?_
  -- The place `j` lies in the block of `g`, which is of too small a degree for `j` to be the place of a generator.
  have hloc := locate?_placeOf (p := p) hg (k := j - F.placeOf p (d + a.degree) g) (d := d + a.degree) (by omega)
  rw [Nat.add_sub_cancel' hblock.1] at hloc
  have hdeg := (degree_eq_iff_of_locate? hloc).mpr hj
  omega

section Lawful

variable (hp : Milnor.LawfulBelow p n)

include hp

/-- Every basis element is the product of an operation and a generator. -/
theorem exists_act_generator (hd : d - F.minDegree < n) {i : ℕ} (hi : i < (F.rep p).dim d) :
    ∃ a g, g ∈ F.generatorList ∧ a.IsBasis p ∧ d = g.degree + a.degree ∧
      (Pi.single i 1 : ℕ → p.Field) = (F.rep p).act a g.degree (F.generator p g) := by
  rw [rep, ← total_blocksOf] at hi
  obtain ⟨k, g, hkg⟩ := exists_locate? hi
  obtain ⟨hg, hk⟩ := locate?_spec hkg
  have ha : Operation.IsBasis p ⟨d - g.degree, k⟩ := isBasis_of_lt hk
  have hlow := minDegree_le hg
  refine ⟨⟨d - g.degree, k⟩, g, hg, ha, by simp only; omega, ?_⟩
  rw [generator, act_placeOf hp ha (by simp only; omega) hg, add_sub_cancel, ← eq_placeOf_add hkg]

/-- A map out of a free module is determined by what it does to generators. -/
theorem ext_hom {φ ψ : Family p} (hφ : Hom (F.rep p) Y k τ φ) (hψ : Hom (F.rep p) Y k τ ψ)
    (hτ : τ - F.minDegree < n) (h : ∀ g ∈ F.generatorList, g.degree ≤ τ →
      φ g.degree (F.generator p g) = ψ g.degree (F.generator p g)) (hd : d ≤ τ) {v : ℕ → p.Field}
    (hv : v ∈ p.space ((F.rep p).dim d)) : φ d v = ψ d v := by
  rw [← combine_units hv, map_combine, map_combine]
  refine combine_congr (fun i hi => ?_) fun _ _ => rfl
  obtain ⟨a, g, hg, ha, rfl, heq⟩ := exists_act_generator hp (by omega) hi
  have ha₀ := ha.nonneg
  have hlow := minDegree_le hg
  have hmem := F.generator_mem p hg
  rw [heq, hφ.map_act ha hd hmem, hψ.map_act ha hd hmem, h g hg (by omega)]

/-- What generators of less degree span goes to what generators of less degree span. -/
theorem hom_mem_lower {φ : Family p} (hφ : Hom (F.rep p) (G.rep p) k τ φ) (hF : τ - F.minDegree < n) (hd : d ≤ τ) {v : ℕ → p.Field}
    (hv : v ∈ p.space (F.lowerDim p d)) : φ d v ∈ p.space (G.lowerDim p (d - k)) := by
  rw [← combine_units hv, map_combine]
  refine combine_mem (fun i hi => ?_) v
  have hle := F.lowerDim_le p d
  obtain ⟨a, g, hg, ha, rfl, heq⟩ := exists_act_generator hp (F := F) (by omega) (hi.trans_le hle)
  have ha₀ := ha.nonneg
  have hlow := minDegree_le hg
  have hmem := F.generator_mem p hg
  have hpos : 0 < a.degree := by
    refine lt_of_le_of_ne ha₀ fun hzero => ?_
    have hindex : a.index = 0 := congrArg Operation.index (ha.eq_one hzero.symm)
    have hplace : i = F.placeOf p g.degree g := by
      rw [generator, act_placeOf hp ha (by omega) hg, ← hzero, add_zero, hindex, add_zero] at heq
      by_contra hne
      have := congrFun heq i
      rw [Pi.single_eq_same, Pi.single_eq_of_ne hne] at this
      exact one_ne_zero this
    have hloc := locate?_placeOf (p := p) (d := g.degree) hg (k := 0) (Milnor.dim_sub_self_pos p _)
    have hge := (degree_eq_iff_of_locate? hloc).mp rfl
    rw [← hzero, add_zero] at hi
    unfold lowerDim at hi
    omega
  rw [heq, hφ.map_act ha hd hmem, (by omega : g.degree + a.degree - k = g.degree - k + a.degree)]
  exact act_mem_lower hpos (hφ.mem (by omega) hmem)

end Lawful

/-- An element is what its coefficients on generators say, up to what generators of less degree span. -/
theorem sub_combine_mem_lower {v : ℕ → p.Field} (hv : v ∈ p.space ((F.rep p).dim d)) :
    v - combine (F.count d) (fun i => F.generator p ⟨d, i⟩) (fun i => v (F.placeOf p d ⟨d, i⟩)) ∈
      p.space (F.lowerDim p d) := by
  intro j hj
  rw [Pi.sub_apply, combine_apply, Finset.sum_apply, sub_eq_zero]
  by_cases hlt : j < (F.rep p).dim d
  · rw [rep, ← total_blocksOf] at hlt
    obtain ⟨k, g, hkg⟩ := exists_locate? hlt
    obtain ⟨hg, hk⟩ := locate?_spec hkg
    obtain rfl : g.degree = d := (degree_eq_iff_of_locate? hkg).mpr hj
    obtain rfl : k = 0 := by rw [sub_self, Milnor.dim_zero] at hk; omega
    have hplace := eq_placeOf_add hkg
    rw [Nat.add_zero] at hplace
    have hindex : g.index < F.count g.degree := mem_generatorList.mp hg
    rw [Finset.sum_eq_single_of_mem g.index (Finset.mem_range.mpr hindex)]
    · rw [Pi.smul_apply, generator, ← hplace, Pi.single_eq_same, smul_eq_mul, mul_one]
    · intro i hi hne
      have hjne : j ≠ F.placeOf p g.degree ⟨g.degree, i⟩ := fun heq =>
        hne ((placeOf_inj (Finset.mem_range.mp hi) hindex).mp (heq.symm.trans hplace))
      rw [Pi.smul_apply, generator, Pi.single_eq_of_ne hjne, smul_zero]
  · rw [hv j (not_lt.mp hlt)]
    refine (Finset.sum_eq_zero fun i hi => ?_).symm
    have hi' : (⟨d, i⟩ : Generator) ∈ F.generatorList := mem_generatorList.mpr (Finset.mem_range.mp hi)
    rw [Pi.smul_apply, F.generator_mem p hi' j (not_lt.mp hlt), smul_zero]

/-- Free modules are projective: what maps to the images of generators can be chosen for all elements at once. -/
theorem exists_lift (hp : Milnor.LawfulBelow p n) {T : Representation p} {θ δ : Family p}
    (hθ : Hom (F.rep p) T k τ θ) (hδ : Hom Y T 0 (τ - k) δ) (hY : Y.LawfulThrough (τ - k)) (hF : τ - F.minDegree < n)
    (h : ∀ g ∈ F.generatorList, g.degree ≤ τ →
      θ g.degree (F.generator p g) ∈ (p.space (Y.dim (g.degree - k))).map (δ (g.degree - k))) :
    ∃ η, Hom (F.rep p) Y k τ η ∧
      ∀ d ≤ τ, ∀ v ∈ p.space ((F.rep p).dim d), δ (d - k) (η d v) = θ d v := by
  choose! u hu hδu using h
  let y : Generator → ℕ → p.Field := fun g => if g ∈ F.generatorList ∧ g.degree ≤ τ then u g else 0
  have hval : ValuesIn Y k (F.generatorList.map fun g => (g.degree, y g)) := by
    intro x hx
    obtain ⟨g, hg, rfl⟩ := List.mem_map.mp hx
    simp only [y]
    split
    · next hgτ => exact hu g hgτ.1 hgτ.2
    · exact Submodule.zero_mem _
  have hη := hom_freeMap (τ := τ) hY hval
  rw [List.map_map] at hη
  refine ⟨_, hη, fun d hd v hv => ?_⟩
  have hcomp := hη.comp hδ
  rw [add_zero] at hcomp
  refine ext_hom hp hcomp hθ hF (fun g hg hgτ => ?_) hd hv
  have hlow := minDegree_le hg
  have hloc := locate?_placeOf (p := p) (d := g.degree) hg (k := 0) (Milnor.dim_sub_self_pos p _)
  rw [LinearMap.comp_apply, ← hδu g hg hgτ, generator]
  refine congrArg _ ?_
  rw [← Nat.add_zero (F.placeOf p g.degree g), freeMap_single Y k y hloc, one_smul, sub_self,
    show y g = u g from if_pos ⟨hg, hgτ⟩]
  exact hY.one_act (by omega) (hu g hg hgτ)

end FreeModule
end Steenrod
