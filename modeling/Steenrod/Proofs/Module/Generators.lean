import Steenrod.Proofs.Module.View
/-!
The order of the basis of a free module. In the degree of some generators the basis elements that come from
generators of less degree stand first, and the generators themselves last. Main statements: an operation sends a
generator to the basis element that is their product, and the homomorphism that keeps the generators is the identity.
-/
namespace Steenrod

/-- By degree, and then by place. -/
def Generator.Before (g h : Generator) : Prop := g.degree < h.degree ∨ g.degree = h.degree ∧ g.index < h.index

theorem Generator.Before.degree_le {g h : Generator} (hb : g.Before h) : g.degree ≤ h.degree :=
  hb.elim le_of_lt fun heq => le_of_eq heq.1

namespace FreeModule

variable {p : Prime} {F : FreeModule} {A : Algebra} {t : ℤ}

theorem sorted_generatorList (F : FreeModule) : F.generatorList.Pairwise Generator.Before := by
  refine List.pairwise_flatMap.mpr ⟨fun x _ => ?_, F.generators.sorted_pairs.imp fun hlt => ?_⟩
  · exact List.pairwise_map.mpr (List.pairwise_lt_range.imp fun hlt => .inr ⟨rfl, hlt⟩)
  · intro g hg h hh
    obtain ⟨i, _, rfl⟩ := List.mem_map.mp hg
    obtain ⟨j, _, rfl⟩ := List.mem_map.mp hh
    exact .inl hlt

/-- The generators of degree less than `t`. -/
def below (F : FreeModule) (t : ℤ) : List Generator := F.generatorList.filter fun g => g.degree < t

/-- The generators from degree `t` on. -/
def above (F : FreeModule) (t : ℤ) : List Generator := F.generatorList.filter fun g => t ≤ g.degree

theorem below_append_above (F : FreeModule) (t : ℤ) : F.below t ++ F.above t = F.generatorList := by
  have hsplit : ∀ l : List Generator, (l.Pairwise fun g h => g.degree ≤ h.degree) →
      l.filter (fun g => g.degree < t) ++ l.filter (fun g => t ≤ g.degree) = l := by
    intro l hl
    induction l with
    | nil => rfl
    | cons g l ih =>
      obtain ⟨hg, hl⟩ := List.pairwise_cons.mp hl
      by_cases h : g.degree < t
      · rw [List.filter_cons_of_pos (by simpa using h), List.filter_cons_of_neg (by simpa using h), List.cons_append,
          ih hl]
      · have hnone : l.filter (fun g => g.degree < t) = [] := by
          refine List.filter_eq_nil_iff.mpr fun x hx => ?_
          have := hg x hx
          simp only [decide_eq_true_eq]
          omega
        have hall : l.filter (fun g => t ≤ g.degree) = l := by
          refine List.filter_eq_self.mpr fun x hx => ?_
          have := hg x hx
          simp only [decide_eq_true_eq]
          omega
        rw [List.filter_cons_of_neg (by simpa using h), List.filter_cons_of_pos (by simpa using h), hnone, hall]
        rfl
  exact hsplit _ (F.sorted_generatorList.imp Generator.Before.degree_le)

theorem blocksOf_append (d : ℤ) (l l' : List Generator) :
    blocksOf p d (l ++ l') = blocksOf p d l ++ blocksOf p d l' := List.map_append

theorem locate?_append (l l' : List (Generator × ℕ)) (i : ℕ) :
    locate? i (l ++ l') =
      if i < total (l.map (·.2)) then locate? i l else locate? (i - total (l.map (·.2))) l' := by
  induction l generalizing i with
  | nil => simp
  | cons x l ih =>
    simp only [List.cons_append, locate?, List.map_cons, total_cons]
    by_cases hi : i < x.2
    · rw [if_pos hi, if_pos (by omega), if_pos hi]
    · rw [if_neg hi, ih]
      by_cases hi' : i - x.2 < total (l.map (·.2))
      · rw [if_pos hi', if_pos (by omega), if_neg hi]
      · rw [if_neg hi', if_neg (by omega), Nat.sub_add_eq]

/-- The number of generators in a degree, counted in the list of all of them. -/
theorem length_filter_degree (F : FreeModule) (t : ℤ) :
    (F.generatorList.filter fun g => g.degree = t).length = F.count t := by
  have hperm : (F.generatorList.filter fun g => g.degree = t).Perm
      ((List.range (F.count t)).map fun i => (⟨t, i⟩ : Generator)) := by
    have hnodup : ((List.range (F.count t)).map fun i => (⟨t, i⟩ : Generator)).Nodup :=
      List.nodup_range.map fun i j hij => by simpa using hij
    refine (List.perm_ext_iff_of_nodup ((nodup_generatorList F).filter _) hnodup).mpr fun g => ?_
    simp only [List.mem_filter, mem_generatorList, decide_eq_true_eq, List.mem_map, List.mem_range]
    constructor
    · rintro ⟨hg, rfl⟩
      exact ⟨g.index, hg, rfl⟩
    · rintro ⟨i, hi, rfl⟩
      exact ⟨hi, rfl⟩
  rw [hperm.length_eq, List.length_map, List.length_range]

/-- The dimension in degree `t` is that of the part below and the number of generators of degree `t`. -/
theorem dim_eq_below_add_count :
    (F.rep p).dim t = total ((blocksOf p t (F.below t)).map (·.2)) + F.count t := by
  have habove : ∀ l : List Generator, (∀ g ∈ l, t ≤ g.degree) →
      (Representation.free p (l.map (·.degree))).dim t = (l.filter fun g => g.degree = t).length := by
    intro l hl
    induction l with
    | nil => rfl
    | cons g l ih =>
      have hg := hl g (by simp)
      rw [List.map_cons, Representation.dim_free_cons, ih fun x hx => hl x (by simp [hx])]
      by_cases h : g.degree = t
      · rw [List.filter_cons_of_pos (by simpa using h), h, sub_self, Milnor.dim_zero, List.length_cons, Nat.add_comm]
      · rw [List.filter_cons_of_neg (by simpa using h), Milnor.dim_of_neg (by omega), Nat.zero_add]
  have hfilter : (F.above t).filter (fun g => g.degree = t) = F.generatorList.filter fun g => g.degree = t := by
    rw [above, List.filter_filter]
    refine List.filter_congr fun g _ => ?_
    rw [Bool.eq_iff_iff, Bool.and_eq_true, decide_eq_true_eq, decide_eq_true_eq]
    omega
  rw [rep, ← below_append_above F t, List.map_append, Representation.dim_free_append, ← total_blocksOf,
    habove (F.above t) fun g hg => of_decide_eq_true (List.mem_filter.mp hg).2, hfilter, length_filter_degree]

/-- The basis elements that are generators come last. -/
theorem degree_eq_iff_of_locate? {i k : ℕ} {g : Generator}
    (h : locate? i (blocksOf p t F.generatorList) = some (k, g)) :
    g.degree = t ↔ (F.rep p).dim t - F.count t ≤ i := by
  rw [dim_eq_below_add_count, Nat.add_sub_cancel]
  rw [← below_append_above F t, blocksOf_append, locate?_append] at h
  split at h
  · next hi =>
    have hg := of_decide_eq_true (List.mem_filter.mp (locate?_spec h).1).2
    constructor
    · intro heq
      omega
    · intro hle
      omega
  · next hi =>
    obtain ⟨hmem, hk⟩ := locate?_spec h
    have hg := of_decide_eq_true (List.mem_filter.mp hmem).2
    have hnonneg := (Representation.isBasis_of_lt hk).nonneg
    simp only at hnonneg
    constructor
    · intro _
      omega
    · intro _
      omega

/-- The place in degree `d` where the products with a generator start. -/
def placeOf (p : Prime) (F : FreeModule) (d : ℤ) (g : Generator) : ℕ :=
  (startOf? g (blocksOf p d F.generatorList)).getD 0

theorem startOf?_eq_placeOf {d : ℤ} {g : Generator} (h : g ∈ F.generatorList) :
    startOf? g (blocksOf p d F.generatorList) = some (F.placeOf p d g) := by
  obtain ⟨start, hs⟩ := exists_startOf? (p := p) (d := d) h
  rw [placeOf, hs, Option.getD_some]

theorem locate?_placeOf {d : ℤ} {g : Generator} (h : g ∈ F.generatorList) {k : ℕ}
    (hk : k < Milnor.dim p (d - g.degree)) : locate? (F.placeOf p d g + k) (blocksOf p d F.generatorList) = some (k, g) :=
  locate?_of_startOf? (startOf?_eq_placeOf h) hk

/-- Where a basis element stands. -/
theorem eq_of_locate? {d : ℤ} {gens : List Generator} {i k : ℕ} {g : Generator} (hnodup : gens.Nodup)
    (h : locate? i (blocksOf p d gens) = some (k, g)) :
    ∃ start, startOf? g (blocksOf p d gens) = some start ∧ i = start + k := by
  induction gens generalizing i with
  | nil => simp [blocksOf, locate?] at h
  | cons g' gens ih =>
    obtain ⟨hg', hnodup⟩ := List.nodup_cons.mp hnodup
    simp only [blocksOf, List.map_cons, locate?, startOf?] at h ih ⊢
    split at h
    · simp only [Option.some.injEq, Prod.mk.injEq] at h
      obtain ⟨rfl, rfl⟩ := h
      exact ⟨0, if_pos rfl, (Nat.zero_add _).symm⟩
    · have hmem := (locate?_spec (p := p) (d := d) h).1
      have hne : g' ≠ g := fun he => hg' (he ▸ hmem)
      obtain ⟨start, hstart, heq⟩ := ih hnodup h
      exact ⟨_, by rw [if_neg hne, hstart, Option.map_some], by omega⟩

theorem eq_placeOf_add {d : ℤ} {i k : ℕ} {g : Generator} (h : locate? i (blocksOf p d F.generatorList) = some (k, g)) :
    i = F.placeOf p d g + k := by
  obtain ⟨start, hstart, heq⟩ := eq_of_locate? F.nodup_generatorList h
  rw [placeOf, hstart, Option.getD_some]
  exact heq

theorem placeOf_lt {g : Generator} (h : g ∈ F.generatorList) :
    F.placeOf p g.degree g < (F.rep p).dim g.degree := by
  have hle := startOf?_add_le (startOf?_eq_placeOf (p := p) (d := g.degree) h)
  rwa [sub_self, Milnor.dim_zero, total_blocksOf] at hle

/-- Generators of the same degree stand in different places. -/
theorem placeOf_inj {d : ℤ} {i j : ℕ} (hi : i < F.count d) (hj : j < F.count d) :
    F.placeOf p d ⟨d, i⟩ = F.placeOf p d ⟨d, j⟩ ↔ i = j := by
  refine ⟨fun h => ?_, fun h => h ▸ rfl⟩
  have hlt : 0 < Milnor.dim p (d - d) := Milnor.dim_sub_self_pos p d
  have hloc := locate?_placeOf (p := p) (d := d) (mem_generatorList.mpr hi : (⟨d, i⟩ : Generator) ∈ _) hlt
  have hloc' := locate?_placeOf (p := p) (d := d) (mem_generatorList.mpr hj : (⟨d, j⟩ : Generator) ∈ _) hlt
  rw [h, hloc', Option.some.injEq, Prod.mk.injEq, Generator.mk.injEq] at hloc
  exact hloc.2.2.symm

/-- The product of an operation and a generator. -/
theorem act_placeOf {n : ℤ} (hp : Milnor.LawfulBelow p n) {a : Operation} (ha : a.IsBasis p) (hlt : a.degree < n)
    {g : Generator} (h : g ∈ F.generatorList) :
    (F.rep p).act a g.degree (Pi.single (F.placeOf p g.degree g) 1) =
      Pi.single (F.placeOf p (g.degree + a.degree) g + a.index) 1 := by
  have hn : (0 : ℤ) < n := ha.nonneg.trans_lt hlt
  have hloc : locate? (F.placeOf p g.degree g) (blocksOf p g.degree F.generatorList) = some (0, g) :=
    locate?_placeOf (k := 0) h (Milnor.dim_sub_self_pos p _)
  have hindex : a.index < Milnor.dim p (g.degree + a.degree - g.degree) := by
    rw [add_sub_cancel_left]
    exact ha.index_lt
  funext j
  rw [rep, free_act_single F.nodup_generatorList hloc (startOf?_eq_placeOf h), one_mul, sub_self, hp.mul_one a ha hlt,
    Pi.single_apply, Pi.single_apply]
  split
  · refine if_congr ?_ rfl rfl
    omega
  · exact (if_neg (by omega)).symm

/-- The homomorphism that keeps the generators is the identity. -/
theorem freeMap_placeOf {n d : ℤ} (hp : Milnor.LawfulBelow p n) (hd : d - F.minDegree < n) {y : Generator → ℕ → p.Field}
    (hy : ∀ g ∈ F.generatorList, g.degree ≤ d → y g = Pi.single (F.placeOf p g.degree g) 1) {v : ℕ → p.Field}
    (hv : v ∈ p.space ((F.rep p).dim d)) :
    Representation.freeMap (F.rep p) 0 (F.generatorList.map fun g => (g.degree, y g)) d v = v := by
  have hlin := map_combine (Representation.freeMap (F.rep p) 0 (F.generatorList.map fun g => (g.degree, y g)) d)
    ((F.rep p).dim d) (fun i => Pi.single i 1) v
  rw [combine_units hv] at hlin
  rw [hlin]
  refine (combine_congr (fun i hi => ?_) fun _ _ => rfl).trans (combine_units hv)
  rw [rep, ← total_blocksOf] at hi
  obtain ⟨k, g, hkg⟩ := exists_locate? hi
  obtain ⟨hg, hk⟩ := locate?_spec hkg
  have ha : Operation.IsBasis p ⟨d - g.degree, k⟩ := Representation.isBasis_of_lt hk
  have hnonneg : 0 ≤ d - g.degree := ha.nonneg
  have hlow := minDegree_le hg
  rw [freeMap_single (F.rep p) 0 y hkg, one_smul, sub_zero, hy g hg (by omega),
    act_placeOf hp ha (by simp only; omega) hg, add_sub_cancel, ← eq_placeOf_add hkg]

end FreeModule
end Steenrod
