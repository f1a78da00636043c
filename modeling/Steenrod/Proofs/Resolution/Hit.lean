import Steenrod.Proofs.Map.View
import Steenrod.Proofs.Linear.Hitting
import Steenrod.Resolution.Step
/-!
What adding generators to hit a subspace does to a free module and the homomorphism out of it. Main statement: after
a step that succeeds the image is the subspace, only old elements go into the old image, the recorded kernel is
the kernel and the recorded quasi-inverse finds preimages; lower degrees are as before.
-/
namespace Steenrod
namespace Mapped

open Vec

variable {p : Prime} {T : Representation p} {x y : Mapped} {m n t d : ℤ}

/-- The dimension of the source. -/
def dim (p : Prime) (x : Mapped) (d : ℤ) : ℕ := (x.1.rep p).dim d

/-- The number of basis elements in degree `d` whose generators are of less degree. -/
def lower (p : Prime) (x : Mapped) (d : ℤ) : ℕ := dim p x d - x.1.count d

/-- The homomorphism in degree `d`. -/
def linear (T : Representation p) (x : Mapped) (d : ℤ) : (ℕ → p.Field) →ₗ[p.Field] (ℕ → p.Field) :=
  x.2.linear p x.1 T d

def image (T : Representation p) (x : Mapped) (d : ℤ) : Submodule p.Field (ℕ → p.Field) :=
  (p.space (dim p x d)).map (linear T x d)

def kernel (T : Representation p) (x : Mapped) (d : ℤ) : Submodule p.Field (ℕ → p.Field) :=
  p.space (dim p x d) ⊓ LinearMap.ker (linear T x d)

/-- The image of the submodule that the generators of degree less than `d` span. -/
def lowerImage (T : Representation p) (x : Mapped) (d : ℤ) : Submodule p.Field (ℕ → p.Field) :=
  (p.space (lower p x d)).map (linear T x d)

theorem mem_kernel {v : ℕ → p.Field} :
    v ∈ kernel T x d ↔ v ∈ p.space (dim p x d) ∧ linear T x d v = 0 := by
  rw [kernel, Submodule.mem_inf, LinearMap.mem_ker]

/-- What is known once the homomorphism has been computed in degree `d`. -/
structure SolvedAt (T : Representation p) (x : Mapped) (d : ℤ) : Prop where
  kernel_eq : ∃ K, x.2.kernels.get? d = some K ∧ K.Echelon p ∧ K.columns = dim p x d ∧ K.space p = kernel T x d
  inverse_eq : ∃ N, FreeMap.IsMatrixOf p N (dim p x d) (T.dim d) (linear T x d) ∧
    x.2.quasiInverses.get? d = some (Augmented.ofMatrix p N).quasiInverse
  mem_lower : ∀ v ∈ p.space (dim p x d), linear T x d v ∈ lowerImage T x d → v ∈ p.space (lower p x d)
  finrank_eq : Module.finrank p.Field (lowerImage T x d) + x.1.count d = Module.finrank p.Field (image T x d)

/-- `u` goes to `y`, and is the preimage of `y` that the quasi-inverse finds. -/
structure PreimageAt (T : Representation p) (x : Mapped) (d : ℤ) (y u : ℕ → p.Field) : Prop where
  linear_eq : linear T x d u = y
  found : ∀ N, FreeMap.IsMatrixOf p N (dim p x d) (T.dim d) (linear T x d) →
    Subspace.expand p (Augmented.leadingRows p N) y = u

/-- A free module with a homomorphism of shift 0, both computed from degree `m` up to degree `n`. -/
structure Computed (T : Representation p) (m n : ℤ) (x : Mapped) : Prop where
  source_min : x.1.minDegree = m
  source_next : x.1.nextDegree = n
  table_end : x.1.tableEnd = n
  end_le : m < n → n ≤ maxSigned
  shift_eq : x.2.shift = 0
  map_min : x.2.minDegree = m
  map_next : x.2.nextDegree = n
  kernels_next : x.2.kernels.nextDegree = n
  defined : x.2.DefinedThrough p x.1 T (n - 1)
  solved : ∀ d, m ≤ d → d < n → SolvedAt T x d

/-- In degree `d` the homomorphism `y` into `T'` is what `x` into `T` is. -/
structure SameAt (T T' : Representation p) (x y : Mapped) (d : ℤ) : Prop where
  target_eq : T'.dim d = T.dim d
  dim_eq : dim p y d = dim p x d
  linear_eq : linear T' y d = linear T x d
  count_eq : y.1.count d = x.1.count d
  kernels_eq : y.2.kernels.get? d = x.2.kernels.get? d
  inverses_eq : y.2.quasiInverses.get? d = x.2.quasiInverses.get? d

namespace SameAt

variable {T' : Representation p} (h : SameAt T T' x y d)

include h

theorem lower_eq : lower p y d = lower p x d := by rw [lower, lower, h.dim_eq, h.count_eq]

theorem image_eq : image T' y d = image T x d := by rw [image, image, h.dim_eq, h.linear_eq]

theorem kernel_eq : kernel T' y d = kernel T x d := by rw [kernel, kernel, h.dim_eq, h.linear_eq]

theorem lowerImage_eq : lowerImage T' y d = lowerImage T x d := by
  rw [lowerImage, lowerImage, h.lower_eq, h.linear_eq]

theorem solvedAt (hx : SolvedAt T x d) : SolvedAt T' y d where
  kernel_eq := by
    rw [h.kernels_eq, h.dim_eq, h.kernel_eq]
    exact hx.kernel_eq
  inverse_eq := by
    rw [h.inverses_eq, h.dim_eq, h.linear_eq, h.target_eq]
    exact hx.inverse_eq
  mem_lower := by
    rw [h.dim_eq, h.linear_eq, h.lowerImage_eq, h.lower_eq]
    exact hx.mem_lower
  finrank_eq := by
    rw [h.lowerImage_eq, h.image_eq, h.count_eq]
    exact hx.finrank_eq

theorem preimageAt {y' u : ℕ → p.Field} (hu : PreimageAt T x d y' u) : PreimageAt T' y d y' u where
  linear_eq := h.linear_eq ▸ hu.linear_eq
  found N hN := by
    rw [h.dim_eq, h.linear_eq, h.target_eq] at hN
    exact hu.found N hN

end SameAt

theorem SameAt.refl (T : Representation p) (x : Mapped) (d : ℤ) : SameAt T T x x d := ⟨rfl, rfl, rfl, rfl, rfl, rfl⟩

theorem SameAt.trans {T' T'' : Representation p} {z : Mapped} (h : SameAt T T' x y d) (h' : SameAt T' T'' y z d) :
    SameAt T T'' x z d :=
  ⟨h'.target_eq.trans h.target_eq, h'.dim_eq.trans h.dim_eq, h'.linear_eq.trans h.linear_eq,
    h'.count_eq.trans h.count_eq, h'.kernels_eq.trans h.kernels_eq, h'.inverses_eq.trans h.inverses_eq⟩

/-- A target that changes in higher degrees only does not matter. -/
theorem sameAt_of_agreeBelow {T' : Representation p} (h : T'.AgreeBelow T n) (hshift : x.2.shift = 0) (hd : d < n) :
    SameAt T T' x x d where
  target_eq := h.dim_eq d hd
  dim_eq := rfl
  linear_eq := by
    rw [linear, linear, FreeMap.linear, FreeMap.linear, Representation.freeMap_congr h _ _ (by omega)]
  count_eq := rfl
  kernels_eq := rfl
  inverses_eq := rfl

theorem Computed.of_agreeBelow {T' : Representation p} (hx : Computed T m n x) (h : T'.AgreeBelow T n) :
    Computed T' m n x where
  source_min := hx.source_min
  source_next := hx.source_next
  table_end := hx.table_end
  end_le := hx.end_le
  shift_eq := hx.shift_eq
  map_min := hx.map_min
  map_next := hx.map_next
  kernels_next := hx.kernels_next
  defined g hg hd hlow := by
    obtain ⟨v, hv, hp⟩ := hx.defined g hg hd hlow
    rw [hx.shift_eq, sub_zero] at hp ⊢
    exact ⟨v, hv, by rwa [h.dim_eq g.degree (by omega)]⟩
  solved d hmd hd := (sameAt_of_agreeBelow h hx.shift_eq hd).solvedAt (hx.solved d hmd hd)

/-- The vectors that new generators go to are a basis of what the old ones miss. -/
theorem missing_eq {N : Matrix} (hN : N.Proper p) {wanted : Subspace} (hS : wanted.Echelon p)
    (hcol : wanted.columns = N.columns) :
    missing (Augmented.ofMatrix p N).space wanted = (wanted.beyond (firsts (N.image p))).leads.map (·.2) := by
  unfold missing Subspace.beyond
  congr 1
  refine List.filter_congr fun a ha => Bool.eq_iff_iff.mpr ?_
  have hlt := hcol ▸ hS.lt_columns a ha
  rw [Bool.not_eq_true', Bool.eq_false_iff, ne_eq, List.any_eq_true]
  simp only [beq_iff_eq, decide_eq_true_eq]
  exact not_congr (Augmented.lead_iff_mem_firsts hN hlt)

/-- `y` has a new degree of generators, which go to `rows`. -/
structure Grown (x y : Mapped) (rows : List Vec) : Prop where
  generators_eq : ∃ names : List String, names.length = rows.length ∧ y.1.generators = x.1.generators.push names
  outputs_eq : y.2.outputs = x.2.outputs.push rows
  shift_eq : y.2.shift = x.2.shift

namespace Grown

variable {rows : List Vec} (h : Grown x y rows)

include h

theorem minDegree_eq : y.2.minDegree = x.2.minDegree := by
  unfold FreeMap.minDegree
  rw [h.outputs_eq, Graded.minDegree_push]

theorem generatorList_eq : y.1.generatorList =
    x.1.generatorList ++ (List.range rows.length).map fun i => ⟨x.1.nextDegree, i⟩ := by
  obtain ⟨names, hlen, hgen⟩ := h.generators_eq
  rw [← hlen, ← FreeModule.generatorList_push]
  unfold FreeModule.generatorList
  rw [hgen]

theorem count_eq (d : ℤ) : y.1.count d = if d = x.1.nextDegree then rows.length else x.1.count d := by
  obtain ⟨names, hlen, hgen⟩ := h.generators_eq
  rw [← hlen, ← FreeModule.count_push]
  unfold FreeModule.count
  rw [hgen]

theorem output_eq_of_lt {g : Generator} (hg : g.degree < x.1.nextDegree) (hnext : x.1.nextDegree = x.2.nextDegree) :
    y.2.output y.1 g = x.2.output x.1 g := by
  have hget : y.2.outputs.get? g.degree = x.2.outputs.get? g.degree := by
    rw [h.outputs_eq, Graded.get?_push, if_neg (by unfold FreeMap.nextDegree at hnext; omega)]
  rw [FreeMap.output, FreeMap.output, h.minDegree_eq, h.count_eq, if_neg (by omega), hget]

theorem value_eq_of_lt {g : Generator} (hg : g.degree < x.2.nextDegree) : y.2.value p g = x.2.value p g := by
  have hget : y.2.outputs.get? g.degree = x.2.outputs.get? g.degree := by
    rw [h.outputs_eq, Graded.get?_push, if_neg (by unfold FreeMap.nextDegree at hg; omega)]
  rw [FreeMap.value, FreeMap.value, h.minDegree_eq, hget]

theorem output_new {i : ℕ} (hi : i < rows.length) (hnext : x.1.nextDegree = x.2.nextDegree) :
    y.2.output y.1 ⟨x.1.nextDegree, i⟩ = .ok rows[i] := by
  have hlow : x.2.minDegree ≤ x.1.nextDegree := by
    rw [hnext, FreeMap.nextDegree, FreeMap.minDegree, Graded.nextDegree]
    omega
  have hget : y.2.outputs.get? x.1.nextDegree = some rows := by
    exact h.outputs_eq ▸ (Graded.get?_push _ _ _).trans (if_pos hnext)
  rw [FreeMap.output, h.minDegree_eq, h.count_eq, if_pos rfl, decide_eq_true ⟨hlow, hi⟩, require_true,
    Result.ok_bind, hget, Option.bind_some, List.getElem?_eq_getElem hi]
  rfl

theorem values_eq (hnext : x.1.nextDegree = x.2.nextDegree) : y.2.values p y.1 =
    x.2.values p x.1 ++ (rows.map (coords p)).map fun f => (x.1.nextDegree, f) := by
  rw [FreeMap.values, h.generatorList_eq, List.map_append, FreeMap.values]
  congr 1
  · refine List.map_congr_left fun g hg => ?_
    rw [h.value_eq_of_lt (hnext ▸ FreeModule.degree_lt_nextDegree hg)]
  · refine List.ext_getElem (by simp) fun i h₁ h₂ => ?_
    have hi : i < rows.length := by simpa using h₁
    simp only [List.getElem_map, List.getElem_range]
    rw [FreeMap.value_of_output (h.output_new hi hnext)]

variable (hnext : x.1.nextDegree = t) (hnext' : x.2.nextDegree = t)

include hnext

theorem growsFrom : x.1.GrowsFrom t y.1 := by
  refine ⟨_, h.generatorList_eq, fun g hg => ?_⟩
  obtain ⟨i, _, rfl⟩ := List.mem_map.mp hg
  exact ge_of_eq hnext

theorem dim_eq : dim p y t = dim p x t + rows.length := by
  have hnew : ((List.range rows.length).map fun i => (⟨x.1.nextDegree, i⟩ : Generator)).map (·.degree) =
      List.replicate rows.length t := by
    rw [List.map_map]
    refine List.eq_replicate_iff.mpr ⟨by simp, fun g hg => ?_⟩
    obtain ⟨i, _, rfl⟩ := List.mem_map.mp hg
    exact hnext
  rw [dim, FreeModule.rep, h.generatorList_eq, List.map_append, hnew, Representation.dim_free_append,
    Representation.dim_free_replicate]
  rfl

include hnext'

theorem linear_eq (hd : d < t) : linear T y d = linear T x d := by
  have hnew : ∀ z ∈ (rows.map (coords p)).map fun f => (x.1.nextDegree, f), d < z.1 := by
    intro z hz
    obtain ⟨f, _, rfl⟩ := List.mem_map.mp hz
    exact hnext ▸ hd
  rw [linear, FreeMap.linear, h.values_eq (hnext.trans hnext'.symm), Representation.freeMap_eq_zero_add T _ hnew,
    h.shift_eq]
  rfl

theorem linear_eq_hitting (hT : T.LawfulThrough t) (hshift : x.2.shift = 0)
    (hrows : ∀ r ∈ rows, Proper p (T.dim t) r) :
    linear T y t = hitting (dim p x t) (linear T x t) (rows.map (coords p)) := by
  refine LinearMap.ext fun v => ?_
  have hval : ∀ f ∈ rows.map (coords p), f ∈ p.space (T.dim (t - 0)) := by
    intro f hf
    obtain ⟨r, hr, rfl⟩ := List.mem_map.mp hf
    rw [sub_zero]
    exact (hrows r hr).coords_mem
  rw [linear, FreeMap.linear, h.values_eq (hnext.trans hnext'.symm), h.shift_eq, hshift, Representation.freeMap_append,
    hnext, Representation.freeMap_replicate hT (by omega) _ hval, hitting_apply, linear, FreeMap.linear, hshift,
    ← Representation.freeMap_cut, FreeMap.values_fst]
  rfl

end Grown

theorem extendTable_eq_ok {A : Algebra} {F F' : FreeModule} (h : F.extendTable A t = .ok F') :
    F' = { F with tableEnd := max F.tableEnd (t + 1) } := by
  unfold FreeModule.extendTable at h
  split at h
  · next hlt =>
    obtain rfl := Except.ok.inj h
    rw [max_eq_left (by omega)]
  · next hge =>
    obtain ⟨_, _, h⟩ := Result.bind_eq_ok.mp h
    obtain rfl := Except.ok.inj h
    rw [max_eq_right (by omega)]

theorem addGenerators_eq_ok {A : Algebra} {F F' : FreeModule} {k : ℕ} {names : Option (List String)}
    (h : F.addGenerators A t k names = .ok F') :
    F.tableEnd ≤ maxSigned ∧ t = F.nextDegree ∧ ∃ l : List String, l.length = k ∧
      F' = { F with generators := F.generators.push l } := by
  obtain ⟨_, hreq, h⟩ := Result.bind_eq_ok.mp h
  obtain ⟨_, hlen, h⟩ := Result.bind_eq_ok.mp h
  obtain ⟨gens, hpush, h⟩ := Result.bind_eq_ok.mp h
  obtain ⟨_, _, h⟩ := Result.bind_eq_ok.mp h
  obtain rfl := Except.ok.inj h
  obtain ⟨ht, rfl⟩ := Graded.pushAt?_eq_some.mp (Result.ofOption_eq_ok.mp hpush)
  have hreq := require_eq_ok.mp hreq
  rw [Bool.and_eq_true] at hreq
  exact ⟨of_decide_eq_true hreq.2, ht, _, of_decide_eq_true (require_eq_ok.mp hlen), rfl⟩

theorem addRows_eq_ok {F : FreeModule} {M : GradedModule} {f f' : FreeMap} {rows : List Vec}
    (h : f.addRows F M t rows = .ok f') :
    t = f.nextDegree ∧ rows.length = F.count t ∧ f' = { f with outputs := f.outputs.push rows } := by
  obtain ⟨_, hlen, h⟩ := Result.bind_eq_ok.mp h
  obtain ⟨_, _, h⟩ := Result.bind_eq_ok.mp h
  obtain ⟨outputs, hpush, h⟩ := Result.bind_eq_ok.mp h
  obtain rfl := Except.ok.inj h
  obtain ⟨ht, rfl⟩ := Graded.pushAt?_eq_some.mp (Result.ofOption_eq_ok.mp hpush)
  exact ⟨ht, of_decide_eq_true (require_eq_ok.mp hlen), rfl⟩

/-- The parts of a step that succeeds. -/
structure HitBy (A : Algebra) (M : GradedModule) (wanted : Subspace) (t : ℤ) (x y : Mapped) (before after : Matrix) :
    Prop where
  before_eq : (x.2.toMap A { x.1 with tableEnd := max x.1.tableEnd (t + 1) } M).matrixAt t = .ok before
  after_eq : (y.2.toMap A y.1 M).matrixAt t = .ok after
  grown : Grown x y (missing (Augmented.ofMatrix A.prime before).space wanted)
  end_eq : y.1.tableEnd = max x.1.tableEnd (t + 1)
  end_le : y.1.tableEnd ≤ maxSigned
  source_next : x.1.nextDegree = t
  map_next : x.2.nextDegree = t
  kernel_eq : x.2.kernels.nextDegree = t ∧ y.2.kernels = x.2.kernels.push
    (Subspace.span A.prime (before.height + (missing (Augmented.ofMatrix A.prime before).space wanted).length)
      (((Augmented.ofMatrix A.prime before).kernel A.prime).basis.map
        (·.padTo (before.height + (missing (Augmented.ofMatrix A.prime before).space wanted).length))))
  inverse_eq : x.2.quasiInverses.nextDegree = t ∧
    y.2.quasiInverses = x.2.quasiInverses.push (Augmented.ofMatrix A.prime after).quasiInverse

theorem hit_cases {A : Algebra} {M : GradedModule} {wanted : Subspace} (h : hit A M wanted t x = .ok y) :
    ∃ before after, HitBy A M wanted t x y before after := by
  obtain ⟨F, f⟩ := x
  obtain ⟨F₁, hF₁, h⟩ := Result.bind_eq_ok.mp h
  obtain rfl := extendTable_eq_ok hF₁
  obtain ⟨before, hbefore, h⟩ := Result.bind_eq_ok.mp h
  obtain ⟨F₂, hF₂, h⟩ := Result.bind_eq_ok.mp h
  obtain ⟨hend, hsource, l, hl, rfl⟩ := addGenerators_eq_ok hF₂
  obtain ⟨f₁, hf₁, h⟩ := Result.bind_eq_ok.mp h
  obtain ⟨hmap, _, rfl⟩ := addRows_eq_ok hf₁
  obtain ⟨f₂, hf₂, h⟩ := Result.bind_eq_ok.mp h
  obtain ⟨kernels, hkernels, hf₂⟩ := Result.bind_eq_ok.mp hf₂
  obtain rfl := Except.ok.inj hf₂
  obtain ⟨hk, rfl⟩ := Graded.pushAt?_eq_some.mp (Result.ofOption_eq_ok.mp hkernels)
  obtain ⟨after, hafter, h⟩ := Result.bind_eq_ok.mp h
  obtain ⟨f₃, hf₃, h⟩ := Result.bind_eq_ok.mp h
  obtain ⟨inverses, hinverses, hf₃⟩ := Result.bind_eq_ok.mp hf₃
  obtain rfl := Except.ok.inj hf₃
  obtain ⟨hq, rfl⟩ := Graded.pushAt?_eq_some.mp (Result.ofOption_eq_ok.mp hinverses)
  obtain rfl := Except.ok.inj h
  exact ⟨before, after, hbefore, hafter, ⟨⟨l, hl, rfl⟩, rfl, rfl⟩, rfl, hend, hsource.symm, hmap.symm,
    ⟨hk.symm, rfl⟩, ⟨hq.symm, rfl⟩⟩

theorem valuesIn {top : ℤ} (hdef : x.2.DefinedThrough p x.1 T top) (hnext : x.1.nextDegree ≤ top + 1) :
    Representation.ValuesIn T x.2.shift (x.2.values p x.1) := by
  intro z hz
  obtain ⟨g, hg, rfl⟩ := List.mem_map.mp hz
  have := FreeModule.degree_lt_nextDegree hg
  exact FreeMap.value_mem hdef hg (by omega)

theorem linear_mem {top : ℤ} (hT : T.LawfulThrough top) (hshift : x.2.shift = 0)
    (hval : Representation.ValuesIn T x.2.shift (x.2.values p x.1)) (hd : d ≤ top) (v : ℕ → p.Field) :
    linear T x d v ∈ p.space (T.dim d) := by
  have hm := Representation.freeMap_mem hT hval (d := d) (by omega) v
  rwa [hshift, sub_zero, ← hshift] at hm

theorem commutes {top : ℤ} (hT : T.LawfulThrough top) (hshift : x.2.shift = 0)
    (hval : Representation.ValuesIn T x.2.shift (x.2.values p x.1)) :
    Representation.Commutes (x.1.rep p) T 0 top (linear T x) := by
  have hcomm := Representation.freeMap_commutes hT hval
  rw [FreeMap.values_fst] at hcomm
  have hlinear : linear T x = Representation.freeMap T x.2.shift (x.2.values p x.1) := rfl
  rwa [hlinear, ← hshift]

theorem Computed.valuesIn (hx : Computed T m n x) : Representation.ValuesIn T x.2.shift (x.2.values p x.1) :=
  Mapped.valuesIn hx.defined (by rw [hx.source_next]; omega)

theorem Computed.definedThrough (hx : Computed T m n x) (t : ℤ) : x.2.DefinedThrough p x.1 T t :=
  fun g hg _ hlow =>
    hx.defined g hg (by have := FreeModule.degree_lt_nextDegree hg; have := hx.source_next; omega) hlow

/-- The matrix that is computed is that of the homomorphism. -/
theorem isMatrixOf {A : Algebra} {T : Representation A.prime} {M : GradedModule} {N : Matrix}
    (h : (x.2.toMap A x.1 M).matrixAt t = .ok N) (hF : FreeModule.KnownThrough A x.1 t) (hM : M.Shows T A t)
    (hA : t - x.2.minDegree < A.computed) (hshift : x.2.shift = 0) (hT : T.LawfulThrough t)
    (hdef : x.2.DefinedThrough A.prime x.1 T t) (hnext : x.1.nextDegree ≤ t + 1) :
    FreeMap.IsMatrixOf A.prime N (dim A.prime x t) (T.dim t) (linear T x t) := by
  have hmem : ∀ v ∈ A.prime.space ((x.1.rep A.prime).dim t),
      x.2.linear A.prime x.1 T t v ∈ A.prime.space (T.dim (t - x.2.shift)) := by
    intro v _
    rw [hshift, sub_zero]
    exact linear_mem hT hshift (valuesIn hdef hnext) (le_refl t) v
  obtain ⟨N', hN', hmatrix⟩ := FreeMap.matrixAt_eq hF (by rwa [hshift, sub_zero]) hA hdef hmem
  obtain rfl := Except.ok.inj (h.symm.trans hN')
  rwa [hshift, sub_zero] at hmatrix

namespace HitBy

variable {A : Algebra} {T : Representation A.prime} {M : GradedModule} {wanted : Subspace} {before after : Matrix}
variable (h : HitBy A M wanted t x y before after)

include h

/-- Lower degrees are as before. -/
theorem sameAt (hd : d < t) : SameAt T T x y d where
  target_eq := rfl
  dim_eq := (h.grown.growsFrom h.source_next).agree.dim_eq d hd
  linear_eq := h.grown.linear_eq h.source_next h.map_next hd
  count_eq := by rw [h.grown.count_eq, if_neg (by have := h.source_next; omega)]
  kernels_eq := by rw [h.kernel_eq.2, Graded.get?_push, if_neg (by have := h.kernel_eq.1; omega)]
  inverses_eq := by rw [h.inverse_eq.2, Graded.get?_push, if_neg (by have := h.inverse_eq.1; omega)]

variable (hx : Computed T m n x)

include hx

theorem eq_next : n = t := hx.source_next.symm.trans h.source_next

theorem known_before (hA : t - m < A.computed) :
    FreeModule.KnownThrough A { x.1 with tableEnd := max x.1.tableEnd (t + 1) } t where
  lt_tableEnd := lt_of_lt_of_le (lt_add_one t) (le_max_right _ _)
  tableEnd_le _ := h.end_eq ▸ h.end_le
  lt_computed := hx.source_min.symm ▸ hA

theorem isMatrixOf_before (hM : M.Shows T A t) (hT : T.LawfulThrough t) (hA : t - m < A.computed) :
    FreeMap.IsMatrixOf A.prime before (dim A.prime x t) (T.dim t) (linear T x t) := by
  have hmatrix := isMatrixOf (x := ({ x.1 with tableEnd := max x.1.tableEnd (t + 1) }, x.2)) h.before_eq
    (h.known_before hx hA) hM (hx.map_min.symm ▸ hA) hx.shift_eq hT (hx.definedThrough t)
    (by have := h.source_next; unfold FreeModule.nextDegree at *; simp only; omega)
  exact hmatrix

variable (hM : M.Shows T A t) (hT : T.LawfulThrough t) (hA : t - m < A.computed)
variable (hS : wanted.Echelon A.prime) (hcol : wanted.columns = T.dim t)

include hM hT hA hS hcol

theorem missing_eq_missed : missing (Augmented.ofMatrix A.prime before).space wanted =
    (Subspace.missed (dim A.prime x t) (linear T x t) wanted).leads.map (·.2) := by
  have hN := h.isMatrixOf_before hx hM hT hA
  rw [missing_eq hN.proper hS (hcol.trans hN.columns_eq.symm), hN.image_eq]
  rfl

theorem proper_rows : ∀ r ∈ missing (Augmented.ofMatrix A.prime before).space wanted,
    Proper A.prime (T.dim t) r := by
  intro r hr
  rw [h.missing_eq_missed hx hM hT hA hS hcol] at hr
  obtain ⟨z, hz, rfl⟩ := List.mem_map.mp hr
  exact hcol ▸ (hS.beyond _).proper z hz


theorem dim_eq : dim A.prime y t =
    dim A.prime x t + (Subspace.missed (dim A.prime x t) (linear T x t) wanted).dimension := by
  rw [h.grown.dim_eq h.source_next, h.missing_eq_missed hx hM hT hA hS hcol, List.length_map]
  rfl

theorem lower_eq : lower A.prime y t = dim A.prime x t := by
  rw [lower, h.dim_eq hx hM hT hA hS hcol, h.grown.count_eq, if_pos h.source_next.symm,
    h.missing_eq_missed hx hM hT hA hS hcol, List.length_map]
  exact Nat.add_sub_cancel _ _

theorem linear_eq : linear T y t = hitting (dim A.prime x t) (linear T x t)
    ((Subspace.missed (dim A.prime x t) (linear T x t) wanted).rowCoords A.prime) := by
  rw [h.grown.linear_eq_hitting h.source_next h.map_next hT hx.shift_eq (h.proper_rows hx hM hT hA hS hcol),
    h.missing_eq_missed hx hM hT hA hS hcol, List.map_map]
  rfl

theorem lowerImage_eq : lowerImage T y t = image T x t := by
  rw [lowerImage, h.lower_eq hx hM hT hA hS hcol, h.linear_eq hx hM hT hA hS hcol, image]
  ext f
  constructor
  · rintro ⟨v, hv, rfl⟩
    exact ⟨v, hv, (hitting_of_mem _ hv).symm⟩
  · rintro ⟨v, hv, rfl⟩
    exact ⟨v, hv, hitting_of_mem _ hv⟩

theorem kernel_same : kernel T y t = kernel T x t := by
  ext v
  rw [mem_kernel, mem_kernel, h.dim_eq hx hM hT hA hS hcol, h.linear_eq hx hM hT hA hS hcol]
  constructor
  · rintro ⟨hv, hzero⟩
    have hold := hS.mem_of_hitting_mem hv (hzero ▸ Submodule.zero_mem _)
    exact ⟨hold, (hitting_of_mem _ hold).symm.trans hzero⟩
  · rintro ⟨hv, hzero⟩
    exact ⟨fun i hi => hv i (by omega), (hitting_of_mem _ hv).trans hzero⟩

/-- After the step the image is what was to be hit. -/
theorem image_eq (hle : image T x t ≤ wanted.space A.prime) : image T y t = wanted.space A.prime := by
  rw [image, h.dim_eq hx hM hT hA hS hcol, h.linear_eq hx hM hT hA hS hcol]
  exact hS.map_hitting_missed hle

theorem recorded_kernel : ∃ K, y.2.kernels.get? t = some K ∧ K.Echelon A.prime ∧ K.columns = dim A.prime y t ∧
    K.space A.prime = kernel T y t := by
  have hN := h.isMatrixOf_before hx hM hT hA
  have hlen : before.height + (missing (Augmented.ofMatrix A.prime before).space wanted).length = dim A.prime y t := by
    rw [hN.height_eq, h.grown.dim_eq h.source_next]
  have hK := Augmented.echelon_kernel hN.proper
  have hcolumns := Augmented.columns_kernel A.prime before
  rw [hN.height_eq] at hcolumns
  have hproper : ∀ v ∈ ((Augmented.ofMatrix A.prime before).kernel A.prime).basis.map (·.padTo (dim A.prime y t)),
      Proper A.prime (dim A.prime y t) v := by
    intro v hv
    obtain ⟨r, hr, rfl⟩ := List.mem_map.mp hv
    obtain ⟨z, hz, rfl⟩ := List.mem_map.mp hr
    exact (hcolumns ▸ hK.proper z hz).padTo (by rw [h.dim_eq hx hM hT hA hS hcol]; omega)
  refine ⟨_, ?_, Subspace.echelon_span hproper, Subspace.columns_span _ _ _, ?_⟩
  · rw [h.kernel_eq.2, Graded.get?_push, if_pos h.kernel_eq.1.symm, hlen]
  · rw [Subspace.space_span hproper, h.kernel_same hx hM hT hA hS hcol, kernel, ← hN.kernel_eq,
      ← Augmented.space_kernel hN.proper]
    unfold Subspace.space
    congr 1
    ext f
    constructor
    · rintro ⟨v, hv, rfl⟩
      obtain ⟨r, hr, rfl⟩ := List.mem_map.mp hv
      obtain ⟨z, hz, rfl⟩ := List.mem_map.mp hr
      exact ⟨z, hz, (coords_padTo _ _).symm⟩
    · rintro ⟨z, hz, rfl⟩
      exact ⟨_, List.mem_map.mpr ⟨z.2, List.mem_map.mpr ⟨z, hz, rfl⟩, rfl⟩, coords_padTo _ _⟩

theorem defined_after : y.2.DefinedThrough A.prime y.1 T t := by
  have hnext : x.1.nextDegree = x.2.nextDegree := h.source_next.trans h.map_next.symm
  intro g hg hd hlow
  rw [h.grown.shift_eq, hx.shift_eq, sub_zero]
  rw [h.grown.generatorList_eq] at hg
  rcases List.mem_append.mp hg with hg | hg
  · rw [h.grown.output_eq_of_lt (FreeModule.degree_lt_nextDegree hg) hnext]
    have hold := hx.definedThrough t g hg hd (h.grown.minDegree_eq ▸ hlow)
    rwa [hx.shift_eq, sub_zero] at hold
  · obtain ⟨i, hi, rfl⟩ := List.mem_map.mp hg
    have hi := List.mem_range.mp hi
    refine ⟨_, h.grown.output_new hi hnext, ?_⟩
    have hp := h.proper_rows hx hM hT hA hS hcol _ (List.getElem_mem hi)
    rwa [← h.source_next] at hp

theorem solvedAt (hle : image T x t ≤ wanted.space A.prime) (hmin : y.1.minDegree = m)
    (hend : x.1.tableEnd = t) : SolvedAt T y t where
  kernel_eq := h.recorded_kernel hx hM hT hA hS hcol
  inverse_eq := by
    have hF : FreeModule.KnownThrough A y.1 t :=
      ⟨by rw [h.end_eq, hend]; omega, fun _ => h.end_le, hmin.symm ▸ hA⟩
    have hnext : y.1.nextDegree ≤ t + 1 := by
      obtain ⟨names, _, hgen⟩ := h.grown.generators_eq
      have := h.source_next
      unfold FreeModule.nextDegree at *
      rw [hgen, Graded.nextDegree_push, this]
    have hN := isMatrixOf h.after_eq hF hM (by rw [h.grown.minDegree_eq, hx.map_min]; exact hA)
      (h.grown.shift_eq.trans hx.shift_eq) hT (h.defined_after hx hM hT hA hS hcol) hnext
    refine ⟨_, hN, ?_⟩
    rw [h.inverse_eq.2, Graded.get?_push, if_pos h.inverse_eq.1.symm]
  mem_lower v hv himage := by
    rw [h.lowerImage_eq hx hM hT hA hS hcol, h.linear_eq hx hM hT hA hS hcol] at himage
    rw [h.dim_eq hx hM hT hA hS hcol] at hv
    rw [h.lower_eq hx hM hT hA hS hcol]
    exact hS.mem_of_hitting_mem hv himage
  finrank_eq := by
    rw [h.lowerImage_eq hx hM hT hA hS hcol, h.grown.count_eq, if_pos h.source_next.symm,
      h.missing_eq_missed hx hM hT hA hS hcol, List.length_map, image, image, h.dim_eq hx hM hT hA hS hcol,
      h.linear_eq hx hM hT hA hS hcol]
    exact hS.finrank_hitting hle

/-- A step extends what is computed by a degree. -/
theorem computed (hle : image T x t ≤ wanted.space A.prime) : Computed T m (t + 1) y := by
  have hnt := h.eq_next hx
  obtain ⟨names, _, hgen⟩ := h.grown.generators_eq
  have hmin : y.1.minDegree = m := by
    rw [← hx.source_min, FreeModule.minDegree, hgen, Graded.minDegree_push]
    rfl
  have hend : y.1.tableEnd = t + 1 := by
    rw [h.end_eq, hx.table_end]
    omega
  refine ⟨hmin, ?_, hend, fun _ => hend ▸ h.end_le, h.grown.shift_eq.trans hx.shift_eq,
    h.grown.minDegree_eq.trans hx.map_min, ?_, ?_, ?_, fun d hmd hd => ?_⟩
  · rw [FreeModule.nextDegree, hgen, Graded.nextDegree_push]
    exact congrArg (· + 1) h.source_next
  · rw [FreeMap.nextDegree, h.grown.outputs_eq, Graded.nextDegree_push]
    exact congrArg (· + 1) h.map_next
  · rw [h.kernel_eq.2, Graded.nextDegree_push, h.kernel_eq.1]
  · rw [add_sub_cancel_right]
    exact h.defined_after hx hM hT hA hS hcol
  · rcases lt_or_eq_of_le (Int.lt_add_one_iff.mp hd) with hlt | rfl
    · exact (h.sameAt hlt).solvedAt (hx.solved d hmd (by omega))
    · exact h.solvedAt hx hM hT hA hS hcol hle hmin (hx.table_end.trans hnt)

end HitBy

end Mapped
end Steenrod
