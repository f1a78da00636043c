import Steenrod.Proofs.Module.Representation
import Steenrod.Module.Free
/-!
Views of modules that show a representation as far as it is known. Main statement: the view of a free module
through an associative algebra with unit shows the free representation on its generators.
-/
namespace Steenrod

open Vec

/-- In degrees up to `top` the view `N` has the dimensions `D`; below its least degree these are zero. -/
structure GradedModule.HasDimensions (N : GradedModule) (D : ℤ → ℕ) (top : ℤ) : Prop where
  dimension_eq : ∀ d, N.minDegree ≤ d → d ≤ top → N.dimension d = .ok (D d)
  eq_zero : ∀ d < N.minDegree, D d = 0

/-- The view `M` over the algebra `A` shows the representation `X` through degree `top`. -/
structure GradedModule.Shows {p : Prime} (M : GradedModule) (X : Representation p) (A : Algebra) (top : ℤ) :
    Prop where
  prime_eq : M.prime = p
  dimension_eq : ∀ d ≤ top, M.dimension d = .ok (X.dim d)
  act_eq : ∀ (c : ℕ) (a : Operation) (d : ℤ) (v : Vec), a.IsBasis p → a.degree < A.computed → d + a.degree ≤ top →
    Proper p (X.dim d) v → ∃ w, M.act p c a d v = .ok w ∧ Proper p (X.dim (d + a.degree)) w ∧
      w.coords p = (c : p.Field) • X.act a d (v.coords p)

theorem GradedModule.Shows.mono {p : Prime} {M : GradedModule} {X : Representation p} {A : Algebra} {top low : ℤ}
    (h : M.Shows X A top) (hle : low ≤ top) : M.Shows X A low where
  prime_eq := h.prime_eq
  dimension_eq d hd := h.dimension_eq d (hd.trans hle)
  act_eq c a d v ha hlt hd hv := h.act_eq c a d v ha hlt (hd.trans hle) hv

/-- An action that is extended linearly from basis elements shows a representation if it does so on them. -/
theorem GradedModule.actLinearly_eq {p : Prime} {X : Representation p} {dimension : ℤ → Result ℕ}
    {actOnBasis : Prime → ℕ → Operation → ℤ → ℕ → Result Vec} {a : Operation} {d : ℤ} {v : Vec}
    (hd : dimension d = .ok (X.dim d)) (hd' : dimension (d + a.degree) = .ok (X.dim (d + a.degree)))
    (hbasis : ∀ i < X.dim d, ∀ c : ℕ, ∃ w, actOnBasis p c a d i = .ok w ∧ Proper p (X.dim (d + a.degree)) w ∧
      w.coords p = (c : p.Field) • X.act a d (Pi.single i 1))
    (hv : Proper p (X.dim d) v) (c : ℕ) :
    ∃ w, actLinearly p dimension actOnBasis p c a d v = .ok w ∧ Proper p (X.dim (d + a.degree)) w ∧
      w.coords p = (c : p.Field) • X.act a d (v.coords p) := by
  have hloop : ∃ r, v.nonzero.foldlM (fun w x => do
      let u ← actOnBasis p (p.product c x.2) a d x.1
      (Except.ok (w.add p 1 u) : Result Vec)) (Vec.zero (X.dim (d + a.degree))) = .ok r ∧
      Proper p (X.dim (d + a.degree)) r ∧ r.coords p = (Vec.zero (X.dim (d + a.degree))).coords p +
        combine v.size (fun i => (c : p.Field) • X.act a d (Pi.single i 1)) (v.coords p) := by
    refine foldlM_nonzero (fun i x hix w hw => ?_) Proper.zero
    have hi : i < X.dim d := hv.size_eq ▸ lt_size_of_mem_nonzero hix
    obtain ⟨u, hu, hup, huc⟩ := hbasis i hi (p.product c x)
    refine ⟨w.add p 1 u, Result.bind_eq_ok.mpr ⟨u, hu, rfl⟩, hw.add 1 u, ?_⟩
    rw [hw.coords_add 1 hup, huc, Nat.cast_one, one_smul, Prime.cast_product, smul_smul, mul_comm]
  obtain ⟨r, hr, hrp, hrc⟩ := hloop
  refine ⟨r, ?_, hrp, ?_⟩
  · rw [actLinearly, hd, Result.ok_bind, decide_eq_true (Nat.le_of_eq hv.size_eq), require_true, Result.ok_bind, hd',
      Result.ok_bind]
    exact hr
  · rw [hrc, coords_zero, zero_add, hv.size_eq]
    have hlin := map_combine ((c : p.Field) • X.act a d) (X.dim d) (fun i => Pi.single i 1) (v.coords p)
    rw [combine_units hv.coords_mem] at hlin
    exact hlin.symm

namespace GradedModule

/-- Acting by an element of the algebra combines the actions of basis elements, also in what a linear map makes of the result. -/
theorem exists_actByElement {p : Prime} {V : Type} [AddCommGroup V] [Module p.Field V] (χ : (ℕ → p.Field) →ₗ[p.Field] V)
    {M : GradedModule} {m count : ℕ} {e d : ℤ} {z x : Vec} {ψ : ℕ → V} (hp : M.prime = p) (hd : M.dimension (d + e) = .ok m)
    (hz : Proper p count z) (hact : ∀ i < count, ∀ c : ℕ, ∃ u, M.act p c ⟨e, i⟩ d x = .ok u ∧ Proper p m u ∧
      χ (u.coords p) = (c : p.Field) • ψ i) (c : ℕ) :
    ∃ w, M.actByElement count c e z d x = .ok w ∧ Proper p m w ∧
      χ (w.coords p) = (c : p.Field) • combine count ψ (z.coords p) := by
  subst hp
  obtain ⟨w, hw, hproper, hvalue⟩ := foldlM_map_nonzero (p := M.prime) (m := m) (w := Vec.zero m) (v := z) χ
    (f := fun w y => do
      let u ← M.act M.prime (M.prime.product c y.2) ⟨e, y.1⟩ d x
      .ok (w.add M.prime 1 u))
    (φ := fun i => (c : M.prime.Field) • ψ i) (fun i y hi w hw => by
      obtain ⟨u, hu, hup, huc⟩ := hact i (hz.size_eq ▸ lt_size_of_mem_nonzero hi) (M.prime.product c y)
      refine ⟨w.add M.prime 1 u, Result.bind_eq_ok.mpr ⟨u, hu, rfl⟩, hw.add 1 u, ?_⟩
      rw [hw.coords_add 1 hup, map_add, map_smul, huc, Nat.cast_one, one_smul, Prime.cast_product, smul_smul, mul_comm]) Proper.zero
  refine ⟨w, ?_, hproper, ?_⟩
  · rw [actByElement, decide_eq_true hz.size_eq, require_true, Result.ok_bind, hd]
    exact hw
  · rw [hvalue, coords_zero, map_zero, zero_add, hz.size_eq, combine_apply, combine_apply, Finset.smul_sum]
    exact Finset.sum_congr rfl fun i _ => smul_comm _ _ _

theorem Shows.actByElement_eq {p : Prime} {M : GradedModule} {X : Representation p} {A : Algebra} {top e d : ℤ} {z x : Vec}
    (h : M.Shows X A top) (hz : Proper p (Milnor.dim p e) z) (he : e < A.computed) (hd : d + e ≤ top)
    (hx : Proper p (X.dim d) x) (c : ℕ) :
    ∃ w, M.actByElement (Milnor.dim p e) c e z d x = .ok w ∧ Proper p (X.dim (d + e)) w ∧
      w.coords p = (c : p.Field) • combine (Milnor.dim p e) (fun l => X.act ⟨e, l⟩ d (x.coords p)) (z.coords p) :=
  exists_actByElement LinearMap.id h.prime_eq (h.dimension_eq _ hd) hz
    (fun l hl b => h.act_eq b ⟨e, l⟩ d x (Representation.isBasis_of_lt hl) he hd hx) c

/-- Acting twice is acting by the product, where that is so in the representation. -/
theorem Shows.exists_act_twice {A : Algebra} {M : GradedModule} {X : Representation A.prime} {top d : ℤ} {a b : Operation} {x z : Vec}
    (h : M.Shows X A top) (hz : A.multiply 1 a b = .ok z) (hd : d + b.degree + a.degree ≤ top) (hx : Proper A.prime (X.dim d) x)
    (hassoc : X.act a (d + b.degree) (X.act b d (x.coords A.prime)) = combine (Milnor.dim A.prime (a.degree + b.degree))
      (fun l => X.act ⟨a.degree + b.degree, l⟩ d (x.coords A.prime)) (Milnor.mul A.prime a b)) :
    ∃ n y w, A.dimension (a.degree + b.degree) = .ok n ∧ M.act A.prime 1 b d x = .ok y ∧
      M.act A.prime 1 a (d + b.degree) y = .ok w ∧ M.actByElement n 1 (a.degree + b.degree) z d x = .ok w := by
  obtain ⟨ha, hb, hlt, hzp, hzc⟩ := Algebra.multiply_eq_ok hz
  have ha₀ := ha.nonneg
  have hb₀ := hb.nonneg
  obtain ⟨y, hy, hyp, hyc⟩ := h.act_eq 1 b d x hb (by omega) (by omega) hx
  obtain ⟨w, hw, hwp, hwc⟩ := h.act_eq 1 a (d + b.degree) y ha (by omega) hd hyp
  obtain ⟨w', hw', hwp', hwc'⟩ := h.actByElement_eq hzp hlt (by omega) hx 1
  rw [Nat.cast_one, one_smul] at hyc hwc hzc hwc'
  have hdegree : d + b.degree + a.degree = d + (a.degree + b.degree) := by omega
  rw [hdegree] at hwp
  have heq : w = w' := hwp.ext hwp' (by rw [hwc, hyc, hwc', hzc, hassoc])
  exact ⟨_, y, w, Algebra.dimension_of_lt hlt, hy, hw, heq ▸ hw'⟩

theorem mem_degreesBetween {low high d : ℤ} : d ∈ degreesBetween low high ↔ low ≤ d ∧ d ≤ high := by
  constructor
  · intro h
    obtain ⟨i, hi, rfl⟩ := List.mem_map.mp h
    have := List.mem_range.mp hi
    omega
  · rintro ⟨hlow, hhigh⟩
    exact List.mem_map.mpr ⟨(d - low).toNat, List.mem_range.mpr (by omega), by omega⟩

@[simp] theorem length_degreesBetween (low high : ℤ) : (degreesBetween low high).length = (high + 1 - low).toNat := by
  simp [degreesBetween]

theorem getElem?_degreesBetween {low high : ℤ} (k : ℕ) :
    (degreesBetween low high)[k]? = if low + k ≤ high then some (low + k) else none := by
  unfold degreesBetween
  rw [List.getElem?_map]
  by_cases h : low + k ≤ high
  · rw [if_pos h, List.getElem?_range (by omega), Option.map_some]
  · rw [if_neg h, List.getElem?_eq_none (by rw [List.length_range]; omega), Option.map_none]

end GradedModule

namespace Graded

variable {α : Type}

theorem get?_map {β : Type} (f : α → β) (g : Graded α) (d : ℤ) : (g.map f).get? d = (g.get? d).map f := by
  unfold get? map
  split
  · rfl
  · rw [Array.getElem?_map]

theorem get?_modify (g : Graded α) (d e : ℤ) (f : α → α) :
    (g.modify d f).get? e = if e = d then (g.get? e).map f else g.get? e := by
  unfold modify
  by_cases hd : d < g.minDegree
  · rw [if_pos hd]
    split
    · next h =>
      have hnone : g.get? e = none := if_pos (h ▸ hd)
      rw [hnone, Option.map_none]
    · rfl
  · rw [if_neg hd]
    simp only [get?, Array.getElem?_modify]
    by_cases he : e < g.minDegree
    · rw [if_pos he, if_pos he, if_neg (by omega)]
    · simp only [if_neg he]
      by_cases h : e = d
      · rw [if_pos (by rw [h]), if_pos h]
      · rw [if_neg (by omega), if_neg h]

theorem get?_eq_some {g : Graded α} {d : ℤ} {x : α} :
    g.get? d = some x ↔ g.minDegree ≤ d ∧ g.entries[(d - g.minDegree).toNat]? = some x := by
  unfold get?
  split
  · next h =>
    constructor
    · simp
    · rintro ⟨hle, _⟩
      omega
  · next h => exact ⟨fun hx => ⟨not_lt.mp h, hx⟩, fun hx => hx.2⟩

theorem minDegree_foldl_push (g : Graded α) (l : List α) : (l.foldl push g).minDegree = g.minDegree :=
  List.foldlRecOn (motive := fun h : Graded α => h.minDegree = g.minDegree) l push rfl fun _ hg _ _ => hg

theorem pairs_push (g : Graded α) (x : α) : (g.push x).pairs = g.pairs ++ [(g.nextDegree, x)] := by
  have hlen : g.degrees.length = g.toList.length := by simp [degrees, toList]
  have hdegrees : (g.push x).degrees = g.degrees ++ [g.nextDegree] := by
    simp [degrees, push, nextDegree, List.range_succ]
  have hlist : (g.push x).toList = g.toList ++ [x] := by simp [toList, push]
  rw [pairs, hdegrees, hlist, List.zip_append hlen]
  rfl

theorem map_push {β : Type} (f : α → β) (g : Graded α) (x : α) : (g.push x).map f = (g.map f).push (f x) := by
  simp [map, push]

@[simp] theorem nextDegree_map {β : Type} (f : α → β) (g : Graded α) : (g.map f).nextDegree = g.nextDegree := by
  simp [map, nextDegree]

theorem pairs_map {β : Type} (f : α → β) (g : Graded α) : (g.map f).pairs = g.pairs.map fun x => (x.1, f x.2) := by
  have hdegrees : (g.map f).degrees = g.degrees := by simp [degrees, map]
  have hlist : (g.map f).toList = g.toList.map f := by simp [toList, map]
  rw [pairs, hdegrees, hlist, List.zip_map_right]
  rfl

theorem pushAt?_eq_some {g g' : Graded α} {d : ℤ} {x : α} : g.pushAt? d x = some g' ↔ d = g.nextDegree ∧ g' = g.push x := by
  unfold pushAt?
  split
  · next h => simp [h, eq_comm]
  · next h => simp [h]

theorem getElem?_pairs {g : Graded α} {d : ℤ} {x : α} {k : ℕ} : g.pairs[k]? = some (d, x) ↔ d = g.minDegree + k ∧ g.entries[k]? = some x := by
  have hlist : g.toList[k]? = g.entries[k]? := Array.getElem?_toList
  rw [pairs, List.getElem?_zip_eq_some, degrees, List.getElem?_map, hlist]
  constructor
  · rintro ⟨hd, hx⟩
    obtain ⟨j, hj, hdegree⟩ := Option.map_eq_some_iff.mp hd
    obtain ⟨_, rfl⟩ := List.getElem?_eq_some_iff.mp hj
    rw [List.getElem_range] at hdegree
    exact ⟨hdegree.symm, hx⟩
  · rintro ⟨rfl, hx⟩
    rw [List.getElem?_range (Array.getElem?_eq_some_iff.mp hx).1]
    exact ⟨rfl, hx⟩

theorem mem_pairs {g : Graded α} {d : ℤ} {x : α} : (d, x) ∈ g.pairs ↔ g.get? d = some x := by
  rw [get?_eq_some, List.mem_iff_getElem?]
  constructor
  · rintro ⟨k, hk⟩
    obtain ⟨rfl, hx⟩ := getElem?_pairs.mp hk
    refine ⟨by omega, ?_⟩
    rwa [add_sub_cancel_left, Int.toNat_natCast]
  · rintro ⟨hle, hx⟩
    exact ⟨_, getElem?_pairs.mpr ⟨by omega, hx⟩⟩

/-- All pairs but the first are those of the degrees above the least one. -/
theorem mem_drop_pairs {g : Graded α} {d : ℤ} {x : α} : (d, x) ∈ g.pairs.drop 1 ↔ d ≠ g.minDegree ∧ g.get? d = some x := by
  rw [List.mem_iff_getElem?, get?_eq_some]
  simp only [List.getElem?_drop, getElem?_pairs]
  constructor
  · rintro ⟨k, rfl, hx⟩
    refine ⟨by omega, by omega, ?_⟩
    rwa [add_sub_cancel_left, Int.toNat_natCast]
  · rintro ⟨hne, hle, hx⟩
    refine ⟨(d - g.minDegree).toNat - 1, by omega, ?_⟩
    rwa [(by omega : 1 + ((d - g.minDegree).toNat - 1) = (d - g.minDegree).toNat)]

/-- The pairs come in the order of their degrees. -/
theorem sorted_pairs (g : Graded α) : g.pairs.Pairwise fun x y => x.1 < y.1 := by
  have hlen : g.degrees.length ≤ g.toList.length := by simp [degrees, toList]
  refine List.pairwise_map.mp ?_
  rw [pairs, List.map_fst_zip hlen]
  exact List.pairwise_map.mpr (List.pairwise_lt_range.imp fun hlt => by omega)

theorem pairwise_pairs (g : Graded α) : g.pairs.Pairwise fun x y => x.1 ≠ y.1 := g.sorted_pairs.imp ne_of_lt

end Graded

namespace FreeModule

variable {p : Prime} {F : FreeModule} {A : Algebra}

/-- All generators, in order. -/
def generatorList (F : FreeModule) : List Generator :=
  F.generators.pairs.flatMap fun x => (List.range x.2.length).map fun i => ⟨x.1, i⟩

/-- The free representation on the generators. -/
def rep (p : Prime) (F : FreeModule) : Representation p := Representation.free p (F.generatorList.map (·.degree))

theorem generatorsThrough_eq (F : FreeModule) (d : ℤ) :
    F.generatorsThrough d = F.generatorList.filter fun g => g.degree ≤ d := by
  unfold generatorsThrough generatorList
  rw [List.filter_flatMap]
  refine List.flatMap_congr fun x _ => ?_
  obtain ⟨g, names⟩ := x
  simp only [List.filter_map]
  split
  · next h =>
    rw [List.filter_eq_self.mpr]
    intro i _
    simpa using h
  · next h =>
    rw [List.filter_eq_nil_iff.mpr, List.map_nil]
    intro i _
    simpa using h

theorem mem_generatorList {g : Generator} : g ∈ F.generatorList ↔ g.index < F.count g.degree := by
  unfold generatorList count
  simp only [List.mem_flatMap, List.mem_map, List.mem_range, Prod.exists]
  constructor
  · rintro ⟨d, names, hmem, i, hi, rfl⟩
    rw [Graded.mem_pairs.mp hmem]
    exact hi
  · intro h
    cases hget : F.generators.get? g.degree with
    | none => simp [hget] at h
    | some names =>
      rw [hget] at h
      exact ⟨g.degree, names, Graded.mem_pairs.mpr hget, g.index, h, rfl⟩

/-- The generators that are added come last. -/
theorem generatorList_push (F : FreeModule) (names : List String) :
    { F with generators := F.generators.push names : FreeModule }.generatorList =
      F.generatorList ++ (List.range names.length).map fun i => ⟨F.nextDegree, i⟩ := by
  simp only [generatorList, Graded.pairs_push, List.flatMap_append, List.flatMap_cons, List.flatMap_nil,
    List.append_nil]
  rfl

theorem count_push (F : FreeModule) (names : List String) (d : ℤ) :
    { F with generators := F.generators.push names : FreeModule }.count d =
      if d = F.nextDegree then names.length else F.count d := by
  simp only [count, Graded.get?_push, nextDegree]
  by_cases h : d = F.generators.nextDegree
  · simp [h]
  · simp [h]

theorem count_eq_zero_of_le {d : ℤ} (h : F.nextDegree ≤ d) : F.count d = 0 := by
  have hnone : F.generators.get? d = none := by
    by_contra hsome
    have := (Graded.get?_isSome_iff F.generators d).mp (Option.isSome_iff_ne_none.mpr hsome)
    have : d < F.nextDegree := this.2
    omega
  rw [count, hnone]
  rfl

theorem count_eq_zero_of_lt {d : ℤ} (h : d < F.minDegree) : F.count d = 0 := by
  have hlt : d < F.generators.minDegree := h
  simp [count, Graded.get?, hlt]

theorem minDegree_le {g : Generator} (h : g ∈ F.generatorList) : F.minDegree ≤ g.degree := by
  by_contra hlt
  rw [mem_generatorList, count_eq_zero_of_lt (not_le.mp hlt)] at h
  omega

theorem degree_lt_nextDegree {g : Generator} (h : g ∈ F.generatorList) : g.degree < F.nextDegree := by
  by_contra hge
  rw [mem_generatorList, count_eq_zero_of_le (not_lt.mp hge)] at h
  omega

theorem nodup_generatorList (F : FreeModule) : F.generatorList.Nodup := by
  refine List.nodup_flatMap.mpr ⟨fun x _ => ?_, F.generators.pairwise_pairs.imp fun hne => ?_⟩
  · refine List.nodup_range.map fun i j hij => ?_
    simpa using hij
  · intro g hg hg'
    obtain ⟨i, _, rfl⟩ := List.mem_map.mp hg
    obtain ⟨j, _, hj⟩ := List.mem_map.mp hg'
    exact hne (congrArg Generator.degree hj).symm

/-- `F'` has the generators of `F` and further ones from degree `t` on. -/
def GrowsFrom (F : FreeModule) (t : ℤ) (F' : FreeModule) : Prop :=
  ∃ more, F'.generatorList = F.generatorList ++ more ∧ ∀ g ∈ more, t ≤ g.degree

namespace GrowsFrom

variable {F' F'' : FreeModule} {t u : ℤ}

theorem refl (F : FreeModule) (t : ℤ) : F.GrowsFrom t F := ⟨[], (List.append_nil _).symm, by simp⟩

theorem trans (h : F.GrowsFrom t F') (h' : F'.GrowsFrom u F'') (hle : t ≤ u) : F.GrowsFrom t F'' := by
  obtain ⟨more, hF', hmore⟩ := h
  obtain ⟨more', hF'', hmore'⟩ := h'
  refine ⟨more ++ more', by rw [hF'', hF', List.append_assoc], fun g hg => ?_⟩
  rcases List.mem_append.mp hg with hg | hg
  · exact hmore g hg
  · exact hle.trans (hmore' g hg)

theorem agree (h : F.GrowsFrom t F') : (F'.rep p).AgreeBelow (F.rep p) t := by
  obtain ⟨more, hF', hmore⟩ := h
  unfold rep
  rw [hF', List.map_append]
  refine Representation.agreeBelow_append fun _ hmem => ?_
  obtain ⟨g, hg, rfl⟩ := List.mem_map.mp hmem
  exact hmore g hg

end GrowsFrom

/-- The blocks of some generators in degree `d`. -/
def blocksOf (p : Prime) (d : ℤ) (gens : List Generator) : List (Generator × ℕ) :=
  gens.map fun g => (g, Milnor.dim p (d - g.degree))

theorem total_blocksOf (d : ℤ) (gens : List Generator) :
    total ((blocksOf p d gens).map (·.2)) = (Representation.free p (gens.map (·.degree))).dim d := by
  induction gens with
  | nil => rfl
  | cons g gens ih =>
    rw [blocksOf, List.map_cons, List.map_cons, total_cons, List.map_cons, Representation.dim_free_cons, ← ih]
    rfl

theorem total_blocksOf_filter (d : ℤ) (gens : List Generator) :
    total ((blocksOf p d (gens.filter fun g => g.degree ≤ d)).map (·.2)) = total ((blocksOf p d gens).map (·.2)) := by
  induction gens with
  | nil => rfl
  | cons g gens ih =>
    by_cases h : g.degree ≤ d
    · rw [List.filter_cons_of_pos (by simpa using h)]
      simp only [blocksOf, List.map_cons, total_cons] at ih ⊢
      rw [ih]
    · rw [List.filter_cons_of_neg (by simpa using h), ih]
      simp [blocksOf, Milnor.dim_of_neg (show d - g.degree < 0 by omega)]

theorem locate?_filter (d : ℤ) (gens : List Generator) (i : ℕ) :
    locate? i (blocksOf p d (gens.filter fun g => g.degree ≤ d)) = locate? i (blocksOf p d gens) := by
  induction gens generalizing i with
  | nil => rfl
  | cons g gens ih =>
    by_cases h : g.degree ≤ d
    · rw [List.filter_cons_of_pos (by simpa using h)]
      simp only [blocksOf, List.map_cons, locate?] at ih ⊢
      rw [ih]
    · rw [List.filter_cons_of_neg (by simpa using h), ih]
      simp [blocksOf, locate?, Milnor.dim_of_neg (show d - g.degree < 0 by omega)]

theorem startOf?_filter {d : ℤ} {g : Generator} (hg : g.degree ≤ d) (gens : List Generator) :
    startOf? g (blocksOf p d (gens.filter fun g => g.degree ≤ d)) = startOf? g (blocksOf p d gens) := by
  induction gens with
  | nil => rfl
  | cons h gens ih =>
    by_cases hd : h.degree ≤ d
    · rw [List.filter_cons_of_pos (by simpa using hd)]
      simp only [blocksOf, List.map_cons, startOf?] at ih ⊢
      rw [ih]
    · have hne : h ≠ g := fun he => hd (he ▸ hg)
      rw [List.filter_cons_of_neg (by simpa using hd), ih]
      simp [blocksOf, startOf?, hne, Milnor.dim_of_neg (show d - h.degree < 0 by omega)]

theorem exists_locate? {d : ℤ} {gens : List Generator} {i : ℕ}
    (h : i < total ((blocksOf p d gens).map (·.2))) : ∃ k g, locate? i (blocksOf p d gens) = some (k, g) := by
  induction gens generalizing i with
  | nil => simp [blocksOf] at h
  | cons g gens ih =>
    simp only [blocksOf, List.map_cons, total_cons, locate?] at h ih ⊢
    split
    · exact ⟨_, _, rfl⟩
    · exact ih (by omega)

theorem locate?_spec {d : ℤ} {gens : List Generator} {i k : ℕ} {g : Generator}
    (h : locate? i (blocksOf p d gens) = some (k, g)) : g ∈ gens ∧ k < Milnor.dim p (d - g.degree) := by
  induction gens generalizing i with
  | nil => simp [blocksOf, locate?] at h
  | cons g' gens ih =>
    simp only [blocksOf, List.map_cons, locate?] at h ih
    split at h
    · next hi =>
      simp only [Option.some.injEq, Prod.mk.injEq] at h
      obtain ⟨rfl, rfl⟩ := h
      exact ⟨by simp, hi⟩
    · obtain ⟨h₁, h₂⟩ := ih h
      exact ⟨by simp [h₁], h₂⟩

/-- The value of a map out of a free module on a basis element. -/
theorem freeMap_single (T : Representation p) (s : ℤ) (y : Generator → ℕ → p.Field) {d : ℤ} {gens : List Generator}
    {i k : ℕ} {g : Generator} (h : locate? i (blocksOf p d gens) = some (k, g)) (c : p.Field) :
    Representation.freeMap T s (gens.map fun g => (g.degree, y g)) d (Pi.single i c) =
      c • T.act ⟨d - g.degree, k⟩ (g.degree - s) (y g) := by
  induction gens generalizing i with
  | nil => simp [blocksOf, locate?] at h
  | cons g' gens ih =>
    rw [List.map_cons, Representation.freeMap_cons]
    simp only [blocksOf, List.map_cons, locate?] at h ih
    split at h
    · next hi =>
      simp only [Option.some.injEq, Prod.mk.injEq] at h
      obtain ⟨rfl, rfl⟩ := h
      rw [rest_single_of_lt hi, map_zero, add_zero, combine_single hi]
    · next hi =>
      rw [rest_single_of_le (not_lt.mp hi), ih h, ← combine_cut, cut_single_of_le (not_lt.mp hi), map_zero, zero_add]

/-- Where an operation sends a basis element of a free module: into the block of the same generator. -/
theorem free_act_single {a : Operation} {d : ℤ} {gens : List Generator} {i k start : ℕ} {g : Generator}
    (hnodup : gens.Nodup) (h : locate? i (blocksOf p d gens) = some (k, g))
    (hstart : startOf? g (blocksOf p (d + a.degree) gens) = some start) (c : p.Field) (j : ℕ) :
    (Representation.free p (gens.map (·.degree))).act a d (Pi.single i c) j =
      if start ≤ j ∧ j < start + Milnor.dim p (d + a.degree - g.degree) then
        c * Milnor.mul p a ⟨d - g.degree, k⟩ (j - start)
      else 0 := by
  induction gens generalizing i j start with
  | nil => simp [blocksOf, locate?] at h
  | cons g' gens ih =>
    obtain ⟨hg', hnodup⟩ := List.nodup_cons.mp hnodup
    rw [List.map_cons, Representation.free, Representation.sum_act]
    change glue (Milnor.dim p (d + a.degree - g'.degree))
      (combine (Milnor.dim p (d - g'.degree)) (fun l => Milnor.mul p a ⟨d - g'.degree, l⟩)
        (cut p (Milnor.dim p (d - g'.degree)) (Pi.single i c)))
      ((Representation.free p (gens.map (·.degree))).act a d
        (rest p (Milnor.dim p (d - g'.degree)) (Pi.single i c))) j = _
    simp only [blocksOf, List.map_cons, locate?, startOf?] at h hstart ih
    split at h
    · next hi =>
      simp only [Option.some.injEq, Prod.mk.injEq] at h
      obtain ⟨rfl, rfl⟩ := h
      simp only [if_true, Option.some.injEq] at hstart
      subst hstart
      rw [cut_single_of_lt hi, rest_single_of_lt hi, map_zero, combine_single hi]
      by_cases hj : j < Milnor.dim p (d + a.degree - g'.degree)
      · simp [glue_of_lt hj, hj]
      · rw [glue_of_le (not_lt.mp hj), if_neg (by omega)]
        rfl
    · next hi =>
      have hmem := (locate?_spec (p := p) (d := d) h).1
      have hne : g' ≠ g := fun he => hg' (he ▸ hmem)
      rw [if_neg hne] at hstart
      obtain ⟨s, hs, rfl⟩ := Option.map_eq_some_iff.mp hstart
      rw [cut_single_of_le (not_lt.mp hi), rest_single_of_le (not_lt.mp hi), map_zero]
      by_cases hj : j < Milnor.dim p (d + a.degree - g'.degree)
      · rw [glue_of_lt hj, if_neg (by omega)]
        rfl
      · rw [glue_of_le (not_lt.mp hj), ih hnodup h hs, (by omega :
          j - (Milnor.dim p (d + a.degree - g'.degree) + s) = j - Milnor.dim p (d + a.degree - g'.degree) - s)]
        congr 1
        rw [eq_iff_iff]
        omega

theorem exists_startOf? {d : ℤ} {gens : List Generator} {g : Generator} (h : g ∈ gens) :
    ∃ start, startOf? g (blocksOf p d gens) = some start := by
  induction gens with
  | nil => simp at h
  | cons g' gens ih =>
    simp only [blocksOf, List.map_cons, startOf?] at ih ⊢
    by_cases he : g' = g
    · exact ⟨0, if_pos he⟩
    · rcases List.mem_cons.mp h with rfl | h
      · exact absurd rfl he
      · obtain ⟨s, hs⟩ := ih h
        exact ⟨_, by rw [if_neg he, hs, Option.map_some]⟩

theorem locate?_of_startOf? {d : ℤ} {gens : List Generator} {g : Generator} {start k : ℕ}
    (h : startOf? g (blocksOf p d gens) = some start) (hk : k < Milnor.dim p (d - g.degree)) :
    locate? (start + k) (blocksOf p d gens) = some (k, g) := by
  induction gens generalizing start with
  | nil => simp [blocksOf, startOf?] at h
  | cons g' gens ih =>
    simp only [blocksOf, List.map_cons, startOf?, locate?] at h ih ⊢
    split at h
    · next he =>
      simp only [Option.some.injEq] at h
      subst he h
      rw [Nat.zero_add, if_pos hk]
    · obtain ⟨s, hs, rfl⟩ := Option.map_eq_some_iff.mp h
      rw [if_neg (by omega), ← ih hs]
      congr 1
      omega

theorem startOf?_add_le {d : ℤ} {gens : List Generator} {g : Generator} {start : ℕ}
    (h : startOf? g (blocksOf p d gens) = some start) :
    start + Milnor.dim p (d - g.degree) ≤ total ((blocksOf p d gens).map (·.2)) := by
  induction gens generalizing start with
  | nil => simp [blocksOf, startOf?] at h
  | cons g' gens ih =>
    simp only [blocksOf, List.map_cons, startOf?, total_cons] at h ih ⊢
    split at h
    · next he =>
      simp only [Option.some.injEq] at h
      subst he h
      omega
    · obtain ⟨s, hs, rfl⟩ := Option.map_eq_some_iff.mp h
      have := ih hs
      omega

theorem blocks_of_lt {d : ℤ} (h : d - F.minDegree < A.computed) :
    F.blocks A d = .ok (blocksOf A.prime d (F.generatorsThrough d)) := by
  refine Result.mapM_eq_ok fun g hg => ?_
  have hlow := minDegree_le (List.mem_of_mem_filter (generatorsThrough_eq F d ▸ hg))
  rw [Algebra.dimension_of_lt (by omega), Result.ok_bind]

theorem minDegree_le_nextDegree (F : FreeModule) : F.minDegree ≤ F.nextDegree := by
  simp only [minDegree, nextDegree, Graded.nextDegree]
  omega

/-- The module with the generators of the next degree. -/
def grow (F : FreeModule) (l : List String) : FreeModule := { F with generators := F.generators.push l }

@[simp] theorem nextDegree_grow (F : FreeModule) (l : List String) : (F.grow l).nextDegree = F.nextDegree + 1 :=
  Graded.nextDegree_push _ _

theorem extendTable_eq {d : ℤ} (hd : F.tableEnd ≤ d) (hc : d - F.minDegree < A.computed) :
    F.extendTable A d = .ok { F with tableEnd := d + 1 } := by
  have hdims : F.generators.degrees.mapM (fun g => A.dimension (d - g)) =
      .ok (F.generators.degrees.map fun g => Milnor.dim A.prime (d - g)) := by
    refine Result.mapM_eq_ok fun g hg => Algebra.dimension_of_lt ?_
    obtain ⟨i, _, rfl⟩ := List.mem_map.mp hg
    simp only [minDegree] at hc
    omega
  rw [extendTable, if_neg (not_lt.mpr hd)]
  exact Result.bind_eq_ok.mpr ⟨_, hdims, rfl⟩

theorem addGenerators_eq {count : ℕ} {names : Option (List String)} (hlt : F.nextDegree < F.tableEnd)
    (hmax : F.tableEnd ≤ maxSigned) (hc : F.tableEnd - 1 - F.nextDegree < A.computed)
    (hnames : (names.getD (defaultNames F.nextDegree count)).length = count) :
    F.addGenerators A F.nextDegree count names = .ok (F.grow (names.getD (defaultNames F.nextDegree count))) := by
  have hlow := F.minDegree_le_nextDegree
  have hreaches : F.reaches F.nextDegree = true := by
    simp only [reaches, Bool.and_eq_true, decide_eq_true_eq]
    exact ⟨hlow, hlt⟩
  have hpush : F.generators.pushAt? F.nextDegree (names.getD (defaultNames F.nextDegree count)) =
      some (F.generators.push (names.getD (defaultNames F.nextDegree count))) := if_pos rfl
  rw [addGenerators, hreaches, decide_eq_true hmax, Bool.and_self, require_true, Result.ok_bind]
  simp only [hnames, decide_true, require_true, Result.ok_bind, hpush, Result.ofOption_some]
  rw [Algebra.dimension_of_lt (by omega)]
  rfl

/-- What has to be known to see a free module through degree `top`. -/
structure KnownThrough (A : Algebra) (F : FreeModule) (top : ℤ) : Prop where
  lt_tableEnd : top < F.tableEnd
  tableEnd_le : F.minDegree ≤ top → F.tableEnd ≤ maxSigned
  lt_computed : top - F.minDegree < A.computed

namespace KnownThrough

variable {top d : ℤ}

theorem mono {low : ℤ} (h : KnownThrough A F top) (hle : low ≤ top) : KnownThrough A F low :=
  ⟨by have := h.lt_tableEnd; omega, fun hmin => h.tableEnd_le (hmin.trans hle), by have := h.lt_computed; omega⟩

theorem blocks_eq (h : KnownThrough A F top) (hd : d ≤ top) :
    F.blocks A d = .ok (blocksOf A.prime d (F.generatorList.filter fun g => g.degree ≤ d)) := by
  have := h.lt_computed
  rw [blocks_of_lt (by omega), generatorsThrough_eq]

theorem reaches (h : KnownThrough A F top) (hlow : F.minDegree ≤ d) (hd : d ≤ top) : F.reaches d = true := by
  have := h.lt_tableEnd
  simp only [FreeModule.reaches, Bool.and_eq_true, decide_eq_true_eq]
  omega

theorem dimension_eq (h : KnownThrough A F top) (hd : d ≤ top) :
    F.dimension A d = .ok ((F.rep A.prime).dim d) := by
  unfold dimension
  split
  · next hlt =>
    have hzero : (F.rep A.prime).dim d = 0 := by
      refine Representation.dim_free_eq_zero fun x hx => ?_
      obtain ⟨g, hg, rfl⟩ := List.mem_map.mp hx
      exact lt_of_lt_of_le hlt (minDegree_le hg)
    rw [hzero]
  · next hge =>
    have hreq : (F.reaches d && decide (F.tableEnd ≤ maxSigned)) = true := by
      rw [h.reaches (not_lt.mp hge) hd, decide_eq_true (h.tableEnd_le ((not_lt.mp hge).trans hd))]
      rfl
    rw [hreq, require_true, Result.ok_bind, h.blocks_eq hd, Result.ok_bind, total_blocksOf_filter, total_blocksOf]
    rfl

theorem minDegree_le_of_lt {i : ℕ} (hi : i < (F.rep A.prime).dim d) : F.minDegree ≤ d := by
  by_contra hlt
  rw [rep, Representation.dim_free_eq_zero] at hi
  · omega
  · intro x hx
    obtain ⟨g, hg, rfl⟩ := List.mem_map.mp hx
    exact lt_of_lt_of_le (not_le.mp hlt) (minDegree_le hg)

theorem elementAt_eq (h : KnownThrough A F top) (hd : d ≤ top) {i : ℕ} (hi : i < (F.rep A.prime).dim d) :
    ∃ k g, locate? i (blocksOf A.prime d F.generatorList) = some (k, g) ∧
      F.elementAt A d i = .ok (⟨d - g.degree, k⟩, g) := by
  have hlow := minDegree_le_of_lt hi
  rw [rep, ← total_blocksOf] at hi
  obtain ⟨k, g, hkg⟩ := exists_locate? hi
  refine ⟨k, g, hkg, ?_⟩
  rw [elementAt, h.reaches hlow hd, require_true, Result.ok_bind, h.blocks_eq hd, Result.ok_bind, locate?_filter, hkg]
  rfl

theorem indexOf_eq (h : KnownThrough A F top) {a : Operation} (ha : 0 ≤ a.degree) {g : Generator}
    (hg : g ∈ F.generatorList) (hd : a.degree + g.degree ≤ top) :
    ∃ start, startOf? g (blocksOf A.prime (a.degree + g.degree) F.generatorList) = some start ∧
      F.indexOf A a g = .ok (start + a.index) := by
  obtain ⟨start, hs⟩ := exists_startOf? (p := A.prime) (d := a.degree + g.degree) hg
  have hlow := minDegree_le hg
  refine ⟨start, hs, ?_⟩
  rw [indexOf, decide_eq_true ha, require_true, Result.ok_bind, offset,
    decide_eq_true ⟨hlow, mem_generatorList.mp hg⟩, require_true, Result.ok_bind, h.reaches (by omega) hd,
    require_true, Result.ok_bind, h.blocks_eq hd, Result.ok_bind, startOf?_filter (by omega), hs]
  rfl

/-- The action on a basis element is that of the free representation. -/
theorem actOnBasis_eq (h : KnownThrough A F top) (hA : A.Answers) {a : Operation} (ha : a.IsBasis A.prime)
    (hd : d + a.degree ≤ top) {i : ℕ} (hi : i < (F.rep A.prime).dim d) (c : ℕ) :
    ∃ w, F.actOnBasis A A.prime c a d i = .ok w ∧ Proper A.prime ((F.rep A.prime).dim (d + a.degree)) w ∧
      w.coords A.prime = (c : A.prime.Field) • (F.rep A.prime).act a d (Pi.single i 1) := by
  have hpos := ha.nonneg
  obtain ⟨k, g, hkg, hel⟩ := h.elementAt_eq (by omega) hi
  obtain ⟨hg, hk⟩ := locate?_spec hkg
  have hlow := minDegree_le hg
  have hb : Operation.IsBasis A.prime ⟨d - g.degree, k⟩ := Representation.isBasis_of_lt hk
  have hb₀ : 0 ≤ d - g.degree := hb.nonneg
  obtain ⟨start, hstart, hindex⟩ := h.indexOf_eq (a := ⟨d - g.degree + a.degree, 0⟩)
    (by simp only; omega) hg (by simp only; omega)
  have hsum : d - g.degree + a.degree + g.degree = d + a.degree := by omega
  simp only [hsum, Nat.add_zero] at hstart hindex
  obtain ⟨u, hu⟩ := hA.exists_multiply ha hb (by have := h.lt_computed; simp only; omega) c
  obtain ⟨_, _, _, hup, huc⟩ := Algebra.multiply_eq_ok hu
  have hdeg : a.degree + (d - g.degree) = d + a.degree - g.degree := by omega
  simp only [hdeg] at hup
  have hle := startOf?_add_le hstart
  have hfit : start + u.size ≤ (F.rep A.prime).dim (d + a.degree) := by
    rw [hup.size_eq, rep, ← total_blocksOf]
    exact hle
  refine ⟨(Vec.zero ((F.rep A.prime).dim (d + a.degree))).splice start u, ?_, Proper.zero.splice hup.reduced hfit, ?_⟩
  · rw [actOnBasis, hel, Result.ok_bind]
    simp only
    rw [hindex, Result.ok_bind, h.dimension_eq hd, Result.ok_bind]
    change (A.multiply c a ⟨d - g.degree, k⟩ >>= _) = _
    rw [hu, Result.ok_bind, splice?, if_pos (by rw [size_zero]; exact hfit)]
    rfl
  · funext j
    rw [coords_splice (by rw [size_zero]; exact hfit), hup.size_eq, Pi.smul_apply, rep,
      free_act_single F.nodup_generatorList hkg hstart, huc, coords_zero, smul_eq_mul, Pi.smul_apply, smul_eq_mul]
    split
    · rw [one_mul]
    · rw [mul_zero]
      rfl

/-- The view of a free module shows the free representation. -/
theorem shows_of_answers (h : KnownThrough A F top) (hA : A.Answers) : (F.toGraded A).Shows (F.rep A.prime) A top where
  prime_eq := rfl
  dimension_eq d hd := h.dimension_eq hd
  act_eq c a d v ha _ hd hv := by
    have hpos := ha.nonneg
    refine GradedModule.actLinearly_eq (h.dimension_eq (by omega)) (h.dimension_eq hd) (fun i hi e => ?_) hv c
    exact h.actOnBasis_eq hA ha hd hi e

theorem shows (h : KnownThrough A F top) (h₁ : A.IsAssociative) (h₂ : A.IsUnital) :
    (F.toGraded A).Shows (F.rep A.prime) A top := h.shows_of_answers (h₁.answers h₂)

theorem shows_of_prime_eq (hp : A.prime = p) (h : KnownThrough A F top) (h₁ : A.IsAssociative) (h₂ : A.IsUnital) :
    (F.toGraded A).Shows (F.rep p) A top := by
  subst hp
  exact h.shows h₁ h₂

theorem dimension_of_prime_eq (hp : A.prime = p) (h : KnownThrough A F top) (hd : d ≤ top) :
    F.dimension A d = .ok ((F.rep p).dim d) := by
  subst hp
  exact h.dimension_eq hd

end KnownThrough

end FreeModule
end Steenrod
