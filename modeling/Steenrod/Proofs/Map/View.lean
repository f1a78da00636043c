import Steenrod.Proofs.Module.View
import Steenrod.Proofs.Linear.Reduction
import Steenrod.Map.Free
/-!
Homomorphisms out of a free module as linear maps. Main statements: what is computed for elements and as a matrix is
the map that the images of the generators determine.
-/
namespace Steenrod

open Vec

/-- A homomorphism is what it is on basis elements, extended linearly. Only those that occur in an element are asked for. -/
theorem ModuleMap.apply_eq {p : Prime} {f : ModuleMap} {d : ℤ} {m n : ℕ} {v : Vec}
    {φ : (ℕ → p.Field) →ₗ[p.Field] (ℕ → p.Field)} (hp : f.source.prime = p)
    (hn : f.target.dimension (d - f.shift) = .ok n)
    (hbasis : ∀ i < m, v.entry i ≠ 0 → ∀ c : ℕ, ∃ w, f.applyToBasis c d i = .ok w ∧ Proper p n w ∧
      w.coords p = (c : p.Field) • φ (Pi.single i 1)) (hv : Proper p m v) (c : ℕ) :
    ∃ w, f.apply c d v = .ok w ∧ Proper p n w ∧ w.coords p = (c : p.Field) • φ (v.coords p) := by
  subst hp
  have hloop : ∃ r, v.nonzero.foldlM (fun w x => do
      let u ← f.applyToBasis (f.source.prime.product c x.2) d x.1
      (Except.ok (w.add f.source.prime 1 u) : Result Vec)) (Vec.zero n) = .ok r ∧
      Proper f.source.prime n r ∧ r.coords f.source.prime = (Vec.zero n).coords f.source.prime +
        combine v.size (fun i => (c : f.source.prime.Field) • φ (Pi.single i 1)) (v.coords f.source.prime) := by
    refine foldlM_nonzero (fun i x hix w hw => ?_) Proper.zero
    obtain ⟨rfl, hne⟩ := mem_nonzero.mp hix
    obtain ⟨u, hu, hup, huc⟩ :=
      hbasis i (hv.size_eq ▸ lt_size_of_mem_nonzero hix) hne (f.source.prime.product c (v.entry i))
    refine ⟨w.add f.source.prime 1 u, Result.bind_eq_ok.mpr ⟨u, hu, rfl⟩, hw.add 1 u, ?_⟩
    rw [hw.coords_add 1 hup, huc, Nat.cast_one, one_smul, Prime.cast_product, smul_smul, mul_comm]
  obtain ⟨r, hr, hrp, hrc⟩ := hloop
  refine ⟨r, Result.bind_eq_ok.mpr ⟨_, hn, hr⟩, hrp, ?_⟩
  rw [hrc, coords_zero, zero_add, hv.size_eq]
  have hlin := map_combine ((c : f.source.prime.Field) • φ) m (fun i => Pi.single i 1) (v.coords f.source.prime)
  rw [combine_units hv.coords_mem] at hlin
  exact hlin.symm

namespace FreeMap

variable {p : Prime} {F : FreeModule} {f : FreeMap} {A B : Algebra} {M : GradedModule} {d : ℤ}

/-- The image of a generator; those below the least degree of the outputs go to zero. -/
def value (p : Prime) (f : FreeMap) (g : Generator) : ℕ → p.Field :=
  if g.degree < f.minDegree then 0
  else (((f.outputs.get? g.degree).bind (·[g.index]?)).getD (Vec.zero 0)).coords p

def values (p : Prime) (F : FreeModule) (f : FreeMap) : List (ℤ × (ℕ → p.Field)) :=
  F.generatorList.map fun g => (g.degree, f.value p g)

/-- The homomorphism in degree `d`. -/
def linear (p : Prime) (F : FreeModule) (T : Representation p) (f : FreeMap) (d : ℤ) :
    (ℕ → p.Field) →ₗ[p.Field] (ℕ → p.Field) :=
  Representation.freeMap T f.shift (f.values p F) d

/-- A generator that does not go to zero by its degree has an output in the target. -/
def DefinedOn (p : Prime) (F : FreeModule) (T : Representation p) (f : FreeMap) (g : Generator) : Prop :=
  f.minDegree ≤ g.degree → ∃ v, f.output F g = .ok v ∧ Proper p (T.dim (g.degree - f.shift)) v

/-- The generators through degree `top` have outputs in the target. -/
def DefinedThrough (p : Prime) (F : FreeModule) (T : Representation p) (f : FreeMap) (top : ℤ) : Prop :=
  ∀ g ∈ F.generatorList, g.degree ≤ top → f.minDegree ≤ g.degree →
    ∃ v, f.output F g = .ok v ∧ Proper p (T.dim (g.degree - f.shift)) v

theorem output_eq_ok {g : Generator} {v : Vec} (h : f.output F g = .ok v) :
    f.minDegree ≤ g.degree ∧ g.index < F.count g.degree ∧
      (f.outputs.get? g.degree).bind (·[g.index]?) = some v := by
  obtain ⟨_, hreq, h⟩ := Result.bind_eq_ok.mp h
  have hreq := of_decide_eq_true (require_eq_ok.mp hreq)
  exact ⟨hreq.1, hreq.2, Result.ofOption_eq_ok.mp h⟩

theorem value_of_output {g : Generator} {v : Vec} (h : f.output F g = .ok v) : f.value p g = v.coords p := by
  obtain ⟨hlow, _, hget⟩ := output_eq_ok h
  rw [value, if_neg (not_lt.mpr hlow), hget, Option.getD_some]

section Push

variable {rows : List Vec} {g : Generator}

theorem value_push (hg : g.degree ≠ f.nextDegree) :
    { f with outputs := f.outputs.push rows : FreeMap }.value p g = f.value p g := by
  have hget : (f.outputs.push rows).get? g.degree = f.outputs.get? g.degree :=
    (Graded.get?_push _ _ _).trans (if_neg hg)
  change (if g.degree < f.minDegree then 0
    else ((((f.outputs.push rows).get? g.degree).bind (·[g.index]?)).getD (Vec.zero 0)).coords p) = _
  rw [hget]
  rfl

theorem output_push (hg : g.degree ≠ f.nextDegree) :
    { f with outputs := f.outputs.push rows : FreeMap }.output F g = f.output F g := by
  have hget : (f.outputs.push rows).get? g.degree = f.outputs.get? g.degree :=
    (Graded.get?_push _ _ _).trans (if_neg hg)
  change (require (f.minDegree ≤ g.degree ∧ g.index < F.count g.degree) >>= fun _ =>
    Result.ofOption (((f.outputs.push rows).get? g.degree).bind (·[g.index]?))) = _
  rw [hget]
  rfl

theorem output_push_new {i : ℕ} (hi : i < rows.length) (hcount : rows.length = F.count f.nextDegree) :
    { f with outputs := f.outputs.push rows : FreeMap }.output F ⟨f.nextDegree, i⟩ = .ok rows[i] := by
  have hget : (f.outputs.push rows).get? f.nextDegree = some rows := (Graded.get?_push _ _ _).trans (if_pos rfl)
  have hlow : f.minDegree ≤ f.nextDegree := by
    rw [nextDegree, minDegree, Graded.nextDegree]
    omega
  change (require (f.minDegree ≤ f.nextDegree ∧ i < F.count f.nextDegree) >>= fun _ =>
    Result.ofOption (((f.outputs.push rows).get? f.nextDegree).bind (·[i]?))) = _
  rw [decide_eq_true ⟨hlow, hcount ▸ hi⟩, require_true, Result.ok_bind, hget, Option.bind_some,
    List.getElem?_eq_getElem hi]
  rfl

end Push

theorem values_fst (p : Prime) (F : FreeModule) (f : FreeMap) :
    (f.values p F).map (·.1) = F.generatorList.map (·.degree) := by
  rw [values, List.map_map]
  rfl

theorem DefinedOn.value_mem {T : Representation p} {g : Generator} (h : f.DefinedOn p F T g) :
    f.value p g ∈ p.space (T.dim (g.degree - f.shift)) := by
  by_cases hlow : g.degree < f.minDegree
  · rw [value, if_pos hlow]
    exact Submodule.zero_mem _
  · obtain ⟨v, hv, hproper⟩ := h (not_lt.mp hlow)
    rw [value_of_output hv]
    exact hproper.coords_mem

theorem value_mem {T : Representation p} {top : ℤ} (h : f.DefinedThrough p F T top) {g : Generator}
    (hg : g ∈ F.generatorList) (hd : g.degree ≤ top) : f.value p g ∈ p.space (T.dim (g.degree - f.shift)) :=
  DefinedOn.value_mem (h g hg hd)

/-- A generator is an element whose image is its value. -/
theorem exists_generator {T : Representation p} {top : ℤ} (hT : T.LawfulThrough top)
    (hdef : f.DefinedThrough p F T top) {g : Generator} (hg : g ∈ F.generatorList) (hd : g.degree ≤ top)
    (hd' : g.degree - f.shift ≤ top) :
    ∃ i, i < (F.rep p).dim g.degree ∧ FreeModule.locate? i (FreeModule.blocksOf p g.degree F.generatorList) = some (0, g) ∧
      f.linear p F T g.degree (Pi.single i 1) = f.value p g := by
  obtain ⟨i, hi⟩ := FreeModule.exists_startOf? (p := p) (d := g.degree) hg
  have hle := FreeModule.startOf?_add_le hi
  have hloc := FreeModule.locate?_of_startOf? hi (k := 0) (Milnor.dim_sub_self_pos p _)
  rw [Nat.add_zero] at hloc
  rw [sub_self, Milnor.dim_zero, FreeModule.total_blocksOf] at hle
  refine ⟨i, hle, hloc, ?_⟩
  rw [linear, values, FreeModule.freeMap_single T f.shift (f.value p) hloc, one_smul, sub_self]
  exact hT.one_act hd' (value_mem hdef hg hd)

/-- On a basis element the homomorphism is what the operation does to the image of the generator. -/
theorem applyToBasis_of_definedOn {T : Representation A.prime} (hF : FreeModule.KnownThrough A F d)
    (hM : M.Shows T B (d - f.shift)) {i k : ℕ} {g : Generator} (hi : i < (F.rep A.prime).dim d)
    (hkg : FreeModule.locate? i (FreeModule.blocksOf A.prime d F.generatorList) = some (k, g))
    (hB : f.minDegree ≤ g.degree → d - g.degree < B.computed) (hg : f.DefinedOn A.prime F T g) (c : ℕ) :
    ∃ w, f.applyToBasis A F M c d i = .ok w ∧ Proper A.prime (T.dim (d - f.shift)) w ∧
      w.coords A.prime = (c : A.prime.Field) • T.act ⟨d - g.degree, k⟩ (g.degree - f.shift) (f.value A.prime g) := by
  obtain ⟨k', g', hkg', hel⟩ := hF.elementAt_eq (le_refl d) hi
  obtain ⟨rfl, rfl⟩ := Prod.mk.inj (Option.some.inj (hkg.symm.trans hkg'))
  have hk := (FreeModule.locate?_spec hkg).2
  have hlow := FreeModule.KnownThrough.minDegree_le_of_lt hi
  unfold applyToBasis
  rw [decide_eq_true hlow, require_true, Result.ok_bind, hF.dimension_eq (le_refl d), Result.ok_bind,
    decide_eq_true hi, require_true, Result.ok_bind, hM.dimension_eq _ (le_refl _), Result.ok_bind, hel,
    Result.ok_bind]
  simp only
  by_cases hmin : g.degree < f.minDegree
  · rw [if_pos hmin]
    refine ⟨_, rfl, Proper.zero, ?_⟩
    rw [coords_zero, value, if_pos hmin, map_zero, smul_zero]
  · rw [if_neg hmin]
    obtain ⟨v, hv, hproper⟩ := hg (not_lt.mp hmin)
    have hdeg : g.degree - f.shift + (d - g.degree) = d - f.shift := by omega
    obtain ⟨w, hw, hwp, hwc⟩ := hM.act_eq c ⟨d - g.degree, k⟩ (g.degree - f.shift) v
      (Representation.isBasis_of_lt hk) (hB (not_lt.mp hmin)) (le_of_eq hdeg) hproper
    simp only [hdeg] at hwp
    exact ⟨w, by rw [hv, Result.ok_bind, hw], hwp, by rw [hwc, value_of_output hv]⟩

theorem applyToBasis_eq {T : Representation A.prime} (hF : FreeModule.KnownThrough A F d)
    (hM : M.Shows T B (d - f.shift)) (hB : d - f.minDegree < B.computed) (hdef : f.DefinedThrough A.prime F T d)
    {i : ℕ} (hi : i < (F.rep A.prime).dim d) (c : ℕ) :
    ∃ w, f.applyToBasis A F M c d i = .ok w ∧ Proper A.prime (T.dim (d - f.shift)) w ∧
      w.coords A.prime = (c : A.prime.Field) • f.linear A.prime F T d (Pi.single i 1) := by
  obtain ⟨k, g, hkg, _⟩ := hF.elementAt_eq (le_refl d) hi
  obtain ⟨hg, hk⟩ := FreeModule.locate?_spec hkg
  have hsingle := FreeModule.freeMap_single T f.shift (f.value A.prime) hkg 1
  rw [one_smul] at hsingle
  have hnonneg : 0 ≤ d - g.degree := (Representation.isBasis_of_lt hk).nonneg
  rw [linear, values, hsingle]
  exact applyToBasis_of_definedOn hF hM hi hkg (fun _ => by omega) (hdef g hg (by omega)) c

/-- What is computed for an element is its image. -/
theorem apply_eq {T : Representation A.prime} (hF : FreeModule.KnownThrough A F d)
    (hM : M.Shows T B (d - f.shift)) (hB : d - f.minDegree < B.computed) (hdef : f.DefinedThrough A.prime F T d)
    {v : Vec} (hv : Proper A.prime ((F.rep A.prime).dim d) v) (c : ℕ) :
    ∃ w, (f.toMap A F M).apply c d v = .ok w ∧ Proper A.prime (T.dim (d - f.shift)) w ∧
      w.coords A.prime = (c : A.prime.Field) • f.linear A.prime F T d (v.coords A.prime) :=
  ModuleMap.apply_eq rfl (hM.dimension_eq _ (le_refl _)) (fun _ hi _ e => applyToBasis_eq hF hM hB hdef hi e) hv c

theorem apply_of_prime_eq (hp : A.prime = p) {T : Representation p} (hF : FreeModule.KnownThrough A F d)
    (hM : M.Shows T B (d - f.shift)) (hB : d - f.minDegree < B.computed) (hdef : f.DefinedThrough p F T d)
    {v : Vec} (hv : Proper p ((F.rep p).dim d) v) (c : ℕ) :
    ∃ w, (f.toMap A F M).apply c d v = .ok w ∧ Proper p (T.dim (d - f.shift)) w ∧
      w.coords p = (c : p.Field) • f.linear p F T d (v.coords p) := by
  subst hp
  exact apply_eq hF hM hB hdef hv c

/-- `N` is the matrix of a linear map. -/
structure IsMatrixOf (p : Prime) (N : Matrix) (m n : ℕ) (φ : (ℕ → p.Field) →ₗ[p.Field] (ℕ → p.Field)) : Prop where
  proper : N.Proper p
  columns_eq : N.columns = n
  height_eq : N.height = m
  linear_eq : ∀ v ∈ p.space m, N.linear p v = φ v

namespace IsMatrixOf

variable {N : Matrix} {k l : ℕ} {φ : (ℕ → p.Field) →ₗ[p.Field] (ℕ → p.Field)} (h : IsMatrixOf p N k l φ)

include h

theorem image_eq : N.image p = (p.space k).map φ := by
  ext f
  rw [Matrix.image, h.height_eq]
  constructor
  · rintro ⟨v, hv, rfl⟩
    exact ⟨v, hv, (h.linear_eq v hv).symm⟩
  · rintro ⟨v, hv, rfl⟩
    exact ⟨v, hv, h.linear_eq v hv⟩

theorem kernel_eq : N.kernel p = p.space k ⊓ LinearMap.ker φ := by
  ext v
  rw [Matrix.mem_kernel, h.height_eq, Submodule.mem_inf, LinearMap.mem_ker]
  exact and_congr_right fun hv => by rw [h.linear_eq v hv]

/-- What the quasi-inverse answers. -/
theorem pullBack?_eq {y result : Vec} (hy : Proper p l y) (hresult : Proper p k result) (c : ℕ) :
    ∃ r, (Augmented.ofMatrix p N).quasiInverse.pullBack? p p result c y = some r ∧ Proper p k r ∧
      r.coords p = result.coords p + (c : p.Field) • Subspace.expand p (Augmented.leadingRows p N) (y.coords p) := by
  obtain ⟨r, hr, hrp, hrc⟩ :=
    Augmented.pullBack?_quasiInverse h.proper (h.columns_eq ▸ hy) (h.height_eq ▸ hresult) c
  exact ⟨r, hr, h.height_eq ▸ hrp, hrc⟩

theorem expand_mem (y : ℕ → p.Field) : Subspace.expand p (Augmented.leadingRows p N) y ∈ p.space k :=
  h.height_eq ▸ Augmented.expand_leadingRows_mem h.proper y

/-- What is found for an element of the image goes to it. -/
theorem linear_expand {y : ℕ → p.Field} (hy : y ∈ (p.space k).map φ) :
    φ (Subspace.expand p (Augmented.leadingRows p N) y) = y := by
  rw [← h.linear_eq _ (h.expand_mem y)]
  exact Augmented.linear_expand_leadingRows h.proper (h.image_eq ▸ hy)

/-- What is found for an image is where it came from, if that is zero in the first positions of the kernel. -/
theorem expand_linear {v : ℕ → p.Field} (hv : v ∈ p.space k)
    (hzero : ∀ i ∈ firsts (p.space k ⊓ LinearMap.ker φ), v i = 0) :
    Subspace.expand p (Augmented.leadingRows p N) (φ v) = v := by
  rw [← h.linear_eq v hv]
  exact Augmented.expand_leadingRows_linear h.proper (h.height_eq ▸ hv) (h.kernel_eq ▸ hzero)

end IsMatrixOf

namespace IsMatrixOf

variable {N N' : Matrix} {m n : ℕ} {φ ψ : (ℕ → p.Field) →ₗ[p.Field] (ℕ → p.Field)}

/-- A linear map has one matrix. -/
theorem unique (h : IsMatrixOf p N m n φ) (h' : IsMatrixOf p N' m n ψ) (heq : ∀ v ∈ p.space m, φ v = ψ v) :
    N = N' := by
  have hunit : ∀ {i : ℕ}, i < m → (Pi.single i 1 : ℕ → p.Field) ∈ p.space m :=
    fun hi j hj => Pi.single_eq_of_ne (by omega) _
  have hrow : ∀ {N : Matrix} {φ : (ℕ → p.Field) →ₗ[p.Field] (ℕ → p.Field)}, IsMatrixOf p N m n φ →
      ∀ i (hi : i < N.rows.length), N.rows[i].coords p = φ (Pi.single i 1) := by
    intro N φ hN i hi
    have hheight : i < N.height := hi
    rw [← hN.linear_eq _ (hunit (hN.height_eq ▸ hi)), Matrix.linear, combine_single hheight, one_smul,
      Matrix.rowCoords, List.getElem?_eq_getElem hi, Option.getD_some]
  have hrows : N.rows = N'.rows := by
    refine List.ext_getElem (h.height_eq.trans h'.height_eq.symm) fun i hi hi' => ?_
    have hproper := h'.proper _ (List.getElem_mem hi')
    rw [h'.columns_eq, ← h.columns_eq] at hproper
    refine (h.proper _ (List.getElem_mem hi)).ext hproper ?_
    rw [hrow h i hi, hrow h' i hi', heq _ (hunit (h.height_eq ▸ hi))]
  obtain ⟨columns, rows⟩ := N
  obtain ⟨columns', rows'⟩ := N'
  obtain rfl : columns = columns' := h.columns_eq.trans h'.columns_eq.symm
  obtain rfl : rows = rows' := hrows
  rfl

theorem congr (h : IsMatrixOf p N m n φ) (heq : ∀ v ∈ p.space m, φ v = ψ v) : IsMatrixOf p N m n ψ :=
  ⟨h.proper, h.columns_eq, h.height_eq, fun v hv => (h.linear_eq v hv).trans (heq v hv)⟩

end IsMatrixOf

theorem matrixAt_eq {T : Representation A.prime} (hF : FreeModule.KnownThrough A F d)
    (hM : M.Shows T B (d - f.shift)) (hB : d - f.minDegree < B.computed) (hdef : f.DefinedThrough A.prime F T d)
    (hmem : ∀ v ∈ A.prime.space ((F.rep A.prime).dim d),
      f.linear A.prime F T d v ∈ A.prime.space (T.dim (d - f.shift))) :
    ∃ N, (f.toMap A F M).matrixAt d = .ok N ∧
      IsMatrixOf A.prime N ((F.rep A.prime).dim d) (T.dim (d - f.shift)) (f.linear A.prime F T d) := by
  have hdims : ∀ x : ℕ → ℕ → Result Matrix, ((do
      let m ← (f.toMap A F M).source.dimension d
      let n ← (f.toMap A F M).target.dimension (d - f.shift)
      x m n) = x ((F.rep A.prime).dim d) (T.dim (d - f.shift))) := by
    intro x
    change (F.dimension A d >>= fun m => M.dimension (d - f.shift) >>= fun n => x m n) = _
    rw [hF.dimension_eq (le_refl d), Result.ok_bind, hM.dimension_eq _ (le_refl _), Result.ok_bind]
  unfold ModuleMap.matrixAt
  rw [show (f.toMap A F M).shift = f.shift from rfl, hdims]
  by_cases hn : T.dim (d - f.shift) = 0
  · rw [if_pos hn]
    refine ⟨_, rfl, ⟨?_, hn.symm, ?_, fun v hv => ?_⟩⟩
    · intro r hr
      rw [Matrix.zero, List.mem_replicate] at hr
      rw [hr.2]
      exact Proper.zero
    · simp [Matrix.height, Matrix.zero]
    · have hzero : f.linear A.prime F T d v = 0 := by
        funext i
        exact hmem v hv i (by omega)
      rw [hzero]
      funext i
      refine Matrix.linear_mem ?_ v i (Nat.zero_le i)
      intro r hr
      rw [Matrix.zero, List.mem_replicate] at hr
      rw [hr.2]
      exact Proper.zero
  · rw [if_neg hn]
    have : Nonempty Vec := ⟨Vec.zero 0⟩
    choose! row hrow hproper hcoords using fun (i : ℕ) (hi : i < (F.rep A.prime).dim d) =>
      applyToBasis_eq hF hM hB hdef hi 1
    have hrows : (List.range ((F.rep A.prime).dim d)).mapM ((f.toMap A F M).applyToBasis 1 d) =
        .ok ((List.range ((F.rep A.prime).dim d)).map row) :=
      Result.mapM_eq_ok fun i hi => hrow i (List.mem_range.mp hi)
    rw [hrows, Result.ok_bind]
    refine ⟨_, rfl, ⟨?_, rfl, by simp [Matrix.height], fun v hv => ?_⟩⟩
    · intro r hr
      obtain ⟨i, hi, rfl⟩ := List.mem_map.mp hr
      exact hproper i (List.mem_range.mp hi)
    · have hunits := map_combine (f.linear A.prime F T d) ((F.rep A.prime).dim d) (fun i => Pi.single i 1) v
      rw [combine_units hv] at hunits
      rw [hunits, Matrix.linear, Matrix.height, List.length_map, List.length_range]
      refine combine_congr (fun i hi => ?_) fun _ _ => rfl
      have hget : ((List.range ((F.rep A.prime).dim d)).map row)[i]? = some (row i) := by
        rw [List.getElem?_map, List.getElem?_range hi, Option.map_some]
      rw [Matrix.rowCoords, hget, Option.getD_some, hcoords i hi, Nat.cast_one, one_smul]

end FreeMap
end Steenrod
