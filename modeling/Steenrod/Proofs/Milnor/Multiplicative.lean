import Steenrod.Proofs.Milnor.Bialgebra
/-!
Sums of tensors as they are computed. Main statement: the coproduct of a product is the product of the coproducts, and every basis
element is the product of its factors.
-/
namespace Steenrod
namespace Algebra

open Vec Milnor

/-- The product of two multiples of tensors, with the sign of moving the second factor past the third. -/
def timesTerm (A : Algebra) (s t : ℕ × Operation × Operation) : Result Tensors := do
  let sign := A.prime.sign (s.2.2.degree * t.2.1.degree)
  let u ← A.multiply (A.prime.product (A.prime.product s.1 t.1) sign) s.2.1 t.2.1
  let v ← A.multiply 1 s.2.2 t.2.2
  .ok (u.nonzero.flatMap fun x => v.nonzero.map fun y =>
    (A.prime.product x.2 y.2, ⟨s.2.1.degree + t.2.1.degree, x.1⟩, ⟨s.2.2.degree + t.2.2.degree, y.1⟩))

/-- The product of two sums of tensors. -/
def times (A : Algebra) (x y : Tensors) : Result Tensors := do
  let rows ← (x.product y).mapM fun st => A.timesTerm st.1 st.2
  .ok rows.flatten

/-- The coproduct of any basis element: the product of the coproducts of its factors, the last one leftmost. -/
def coproductOf (A : Algebra) (a : Operation) : Result Tensors := do
  let factors ← A.factors a
  factors.foldlM (fun x f => do
    let y ← A.coproduct f
    A.times (y.map fun s => (1, s)) x) [(1, ⟨0, 0⟩, ⟨0, 0⟩)]

/-- The coproduct of an element of degree `d`. -/
def coproductOfElement (A : Algebra) (d : ℤ) (v : Vec) : Result Tensors := do
  let rows ← v.nonzero.mapM fun x => do
    let y ← A.coproductOf ⟨d, x.1⟩
    .ok (y.map fun t => (A.prime.product x.2 t.1, t.2))
  .ok rows.flatten

/-- The product of operations, the last one leftmost, with its degree. -/
def productOf (A : Algebra) (factors : List Operation) : Result (ℤ × Vec) :=
  factors.foldlM (fun x f => do
    let v ← A.multiplyElement 1 f x.1 x.2
    .ok (f.degree + x.1, v)) (0, Vec.unit 1 0)

end Algebra

namespace Milnor
namespace Operators
namespace Side

open Vec

variable {p : Prime} {bound : ℕ} {K : Type} [Ring K] [Module p.Field K] {O P : Operators p bound K} {sign : K} (h : Side O P sign)

theorem value_cons (t : ℕ × Operation × Operation) (x : Tensors) :
    h.value (t :: x) = (t.1 : p.Field) • h.tensor t.2.1 t.2.2 + h.value x := by
  rw [value, List.map_cons, List.sum_cons, value]

theorem value_append (x y : Tensors) : h.value (x ++ y) = h.value x + h.value y := by
  rw [value, List.map_append, List.sum_append, value, value]

theorem value_flatten (rows : List Tensors) : h.value rows.flatten = (rows.map h.value).sum := by
  induction rows with
  | nil => rfl
  | cons x rows ih => rw [List.flatten_cons, value_append, ih, List.map_cons, List.sum_cons]

theorem value_scale (c : ℕ) (x : Tensors) :
    h.value (x.map fun t => (p.product c t.1, t.2)) = (c : p.Field) • h.value x := by
  induction x with
  | nil => exact (smul_zero _).symm
  | cons t x ih => rw [List.map_cons, value_cons, ih, value_cons, smul_add, Prime.cast_product, mul_smul]

omit h in
theorem denote_coords {d : ℤ} {v : Vec} (hv : Proper p (dim p d) v) (O : Operators p bound K) :
    O.denote d (v.coords p) = (v.nonzero.map fun x => (x.2 : p.Field) • O.operator ⟨d, x.1⟩).sum := by
  rw [sum_nonzero fun k => O.operator ⟨d, k⟩, hv.size_eq]
  rfl

variable [SMulCommClass p.Field K K] [IsScalarTower p.Field K K]

/-- The tensor of two elements. -/
theorem value_outer {u v : Vec} {d e : ℤ} (hu : Proper p (dim p d) u) (hv : Proper p (dim p e) v) :
    h.value (u.nonzero.flatMap fun x => v.nonzero.map fun y => (p.product x.2 y.2, ⟨d, x.1⟩, ⟨e, y.1⟩)) =
      O.denote d (u.coords p) * sign ^ e.toNat * P.denote e (v.coords p) := by
  have hterm : ∀ x y : ℕ × ℕ, (p.product x.2 y.2 : p.Field) • h.tensor ⟨d, x.1⟩ ⟨e, y.1⟩ =
      (x.2 : p.Field) • O.operator ⟨d, x.1⟩ * sign ^ e.toNat * ((y.2 : p.Field) • P.operator ⟨e, y.1⟩) := by
    intro x y
    rw [Prime.cast_product, mul_smul, tensor, smul_mul_assoc, smul_mul_assoc, mul_smul_comm]
  rw [value, sum_flatMap, denote_coords hu, denote_coords hv, ← List.sum_map_mul_right, ← List.sum_map_mul_right]
  refine congrArg List.sum (List.map_congr_left fun x _ => ?_)
  rw [List.map_map, ← List.sum_map_mul_left]
  exact congrArg List.sum (List.map_congr_left fun y _ => hterm x y)

end Side
end Operators
end Milnor

namespace Algebra

open Vec Milnor

variable {A : Algebra} (hp : A.prime.val < 1073741824)

section Side

variable {bound : ℕ} {K : Type} [Ring K] [Module A.prime.Field K] [SMulCommClass A.prime.Field K K]
  [IsScalarTower A.prime.Field K K] {O P : Operators A.prime bound K} {sign : K} (h : O.Side P sign) (hbound : bound ≤ trackedBelow)

include hp h hbound

theorem exists_timesTerm {s t : ℕ × Operation × Operation} {d e : ℤ} (hs : Tensors.LiesIn A.prime d [s])
    (ht : Tensors.LiesIn A.prime e [t]) (hA : d + e < A.computed) (hlt : d + e < bound) :
    ∃ z, A.timesTerm s t = .ok z ∧ Tensors.LiesIn A.prime (d + e) z ∧ h.value z = h.value [s] * h.value [t] := by
  obtain ⟨ha, hb, hab⟩ := hs s (List.mem_singleton_self s)
  obtain ⟨ha', hb', hab'⟩ := ht t (List.mem_singleton_self t)
  have h₁ := ha.nonneg
  have h₂ := hb.nonneg
  have h₃ := ha'.nonneg
  have h₄ := hb'.nonneg
  obtain ⟨u, hu⟩ := exists_multiply_tracked hp ha ha' (by omega) (by omega)
    (A.prime.product (A.prime.product s.1 t.1) (A.prime.sign (s.2.2.degree * t.2.1.degree)))
  obtain ⟨v, hv⟩ := exists_multiply_tracked hp hb hb' (by omega) (by omega) 1
  obtain ⟨_, _, _, hup, huc⟩ := multiply_eq_ok hu
  obtain ⟨_, _, _, hvp, hvc⟩ := multiply_eq_ok hv
  refine ⟨_, by rw [timesTerm, hu, Result.ok_bind, hv]; rfl, fun r hr => ?_, ?_⟩
  · obtain ⟨x, hx, hr⟩ := List.mem_flatMap.mp hr
    obtain ⟨y, hy, rfl⟩ := List.mem_map.mp hr
    refine ⟨⟨add_nonneg h₁ h₃, hup.size_eq ▸ lt_size_of_mem_nonzero hx⟩,
      ⟨add_nonneg h₂ h₄, hvp.size_eq ▸ lt_size_of_mem_nonzero hy⟩, ?_⟩
    simp only
    omega
  · rw [h.value_outer hup hvp, huc, hvc, map_smul, map_smul, O.denote_mul hp hbound ha ha' (by omega),
      P.denote_mul hp hbound hb hb' (by omega), h.value_cons, h.value_cons]
    simp only [Operators.Side.value, List.map_nil, List.sum_nil, add_zero, smul_mul_assoc, mul_smul_comm, Prime.cast_product,
      Nat.cast_one, one_smul, mul_smul]
    rw [h.tensor_mul hp h₂ h₄ ha' (by omega)]
    exact smul_comm _ _ _

theorem exists_times {x y : Tensors} {d e : ℤ} (hx : x.LiesIn A.prime d) (hy : y.LiesIn A.prime e) (hA : d + e < A.computed)
    (hlt : d + e < bound) : ∃ z, A.times x y = .ok z ∧ z.LiesIn A.prime (d + e) ∧ h.value z = h.value x * h.value y := by
  have hterm : ∀ st ∈ x.product y, ∃ z, A.timesTerm st.1 st.2 = .ok z ∧ Tensors.LiesIn A.prime (d + e) z ∧
      h.value z = h.value [st.1] * h.value [st.2] := by
    intro st hst
    obtain ⟨hs, ht⟩ := List.pair_mem_product.mp (show (st.1, st.2) ∈ x.product y from hst)
    exact exists_timesTerm hp h hbound (fun r hr => hx r (List.mem_singleton.mp hr ▸ hs))
      (fun r hr => hy r (List.mem_singleton.mp hr ▸ ht)) hA hlt
  choose! f hf hlies hvalue using hterm
  refine ⟨_, Result.bind_eq_ok.mpr ⟨_, Result.mapM_eq_ok hf, rfl⟩, fun r hr => ?_, ?_⟩
  · obtain ⟨z, hz, hr⟩ := List.mem_flatten.mp hr
    obtain ⟨st, hst, rfl⟩ := List.mem_map.mp hz
    exact hlies st hst r hr
  · have hone : ∀ t, h.value [t] = (t.1 : A.prime.Field) • h.tensor t.2.1 t.2.2 := fun t => List.sum_singleton
    have hsum : ∀ w : Tensors, (w.map fun t => h.value [t]).sum = h.value w := fun w => by
      simp only [hone]
      rfl
    calc h.value ((x.product y).map f).flatten
        = ((x.product y).map fun st => h.value [st.1] * h.value [st.2]).sum := by
          rw [h.value_flatten, List.map_map]
          exact congrArg List.sum (List.map_congr_left hvalue)
      _ = (x.map fun s => h.value [s]).sum * (y.map fun t => h.value [t]).sum := by
          rw [List.product, sum_flatMap, ← List.sum_map_mul_right]
          refine congrArg List.sum (List.map_congr_left fun s _ => ?_)
          rw [List.map_map, ← List.sum_map_mul_left]
          rfl
      _ = h.value x * h.value y := by rw [hsum, hsum]

/-- The coproduct of a factor. -/
theorem exists_coproduct {f : Operation} {y : MilnorElement} (hy : element? A.prime f = some y) (hfactor : IsFactor y)
    (hA : f.degree < A.computed) (hlt : f.degree < bound) : ∃ summands : List (Operation × Operation), A.coproduct f = .ok summands ∧
      Tensors.LiesIn A.prime f.degree (summands.map fun s => (1, s)) ∧
      h.value (summands.map fun s => (1, s)) = (h.operators (by omega)).operator f := by
  refine ⟨_, coproduct_eq hp hy (by omega) hA hfactor, fun t ht => ?_, ?_⟩
  · obtain ⟨s, hs, rfl⟩ := List.mem_map.mp ht
    exact isBasis_of_mem_summands hp hy (by omega) hfactor hs
  · rw [← h.sum_summands hp hy (by omega) hfactor, Operators.Side.value, List.map_map]
    refine congrArg List.sum (List.map_congr_left fun s _ => ?_)
    simp

/-- Multiplying with the coproducts of factors, one after the other. -/
theorem exists_foldlM_coproduct {factors : List Operation} (hfactors : ∀ f ∈ factors, ∃ y, element? A.prime f = some y ∧ IsFactor y)
    {x : Tensors} {d : ℤ} (hx : x.LiesIn A.prime d) (hd : 0 ≤ d) (hA : (factors.map (·.degree)).sum + d < A.computed)
    (hlt : (factors.map (·.degree)).sum + d < bound) :
    ∃ z, factors.foldlM (fun x f => do
        let y ← A.coproduct f
        A.times (y.map fun s => (1, s)) x) x = .ok z ∧ z.LiesIn A.prime ((factors.map (·.degree)).sum + d) ∧
      h.value z = (factors.map (h.operators (by omega)).operator).reverse.prod * h.value x := by
  induction factors generalizing x d with
  | nil => exact ⟨x, rfl, by simpa using hx, by simp⟩
  | cons f factors ih =>
    obtain ⟨y, hy, hfactor⟩ := hfactors f (by simp)
    have hrest : 0 ≤ (factors.map (·.degree)).sum := List.sum_nonneg fun e he => by
      obtain ⟨g, hg, rfl⟩ := List.mem_map.mp he
      obtain ⟨z, hz, _⟩ := hfactors g (by simp [hg])
      exact (mem_basis_of_element? hz).1.nonneg
    have hf := (mem_basis_of_element? hy).1.nonneg
    rw [List.map_cons, List.sum_cons] at hA hlt ⊢
    obtain ⟨summands, hsummands, hlies, hvalue⟩ := exists_coproduct hp h hbound hy hfactor (by omega) (by omega)
    obtain ⟨w, hw, hwlies, hwvalue⟩ := exists_times hp h hbound hlies hx (by omega) (by omega)
    obtain ⟨z, hz, hzlies, hzvalue⟩ := ih (fun g hg => hfactors g (by simp [hg])) hwlies (by omega) (by omega) (by omega)
    refine ⟨z, ?_, ?_, ?_⟩
    · rw [List.foldlM_cons, hsummands]
      exact Result.bind_eq_ok.mpr ⟨w, hw, hz⟩
    · rwa [add_comm f.degree, add_assoc]
    · rw [hzvalue, hwvalue, hvalue, List.map_cons, List.reverse_cons, List.prod_append, List.prod_singleton, mul_assoc]

/-- The coproduct of a basis element is what the element is on a product. -/
theorem exists_coproductOf {a : Operation} (ha : a.IsBasis A.prime) (hA : a.degree < A.computed) (hlt : a.degree < bound) :
    ∃ z, A.coproductOf a = .ok z ∧ z.LiesIn A.prime a.degree ∧ h.value z = (h.operators (by omega)).operator a := by
  obtain ⟨x, hx, _⟩ := element?_eq_some ha
  have ht : a.degree < trackedBelow := by omega
  have hone := Operation.isBasis_one A.prime
  have hsum := sum_degree_factorsOf hp hx ht
  have hfactors : ∀ f ∈ factorsOf A.prime a x, ∃ y, element? A.prime f = some y ∧ IsFactor y := fun f hf => by
    obtain ⟨y, hy, hfactor, _⟩ := isFactor_of_mem_factorsOf hp hx ht hf
    exact ⟨y, hy, hfactor⟩
  have hunit : Tensors.LiesIn A.prime 0 [(1, ⟨0, 0⟩, ⟨0, 0⟩)] := fun t ht => List.mem_singleton.mp ht ▸ ⟨hone, hone, rfl⟩
  obtain ⟨z, hz, hlies, hvalue⟩ := exists_foldlM_coproduct hp h hbound hfactors hunit (le_refl 0) (by omega) (by omega)
  rw [hsum, add_zero] at hlies
  refine ⟨z, by rw [coproductOf, factors_eq hp hx ht hA]; exact hz, hlies, ?_⟩
  rw [hvalue, (h.operators (by omega)).prod_factorsOf hp hx ht, h.value_cons]
  simp [Operators.Side.value, Operators.Side.tensor, Operators.operator_one]

/-- The coproduct of an element of the algebra is what the element is on a product. -/
theorem exists_coproductOfElement {d : ℤ} {v : Vec} (hv : Proper A.prime (dim A.prime d) v) (hd : 0 ≤ d) (hA : d < A.computed)
    (hlt : d < bound) : ∃ z, A.coproductOfElement d v = .ok z ∧ z.LiesIn A.prime d ∧
      h.value z = (h.operators (by omega)).denote d (v.coords A.prime) := by
  have hterm : ∀ x ∈ v.nonzero, ∃ z, A.coproductOf ⟨d, x.1⟩ = .ok z ∧ z.LiesIn A.prime d ∧
      h.value z = (h.operators (by omega)).operator ⟨d, x.1⟩ := fun x hx =>
    exists_coproductOf hp h hbound ⟨hd, hv.size_eq ▸ lt_size_of_mem_nonzero hx⟩ hA hlt
  choose! f hf hlies hvalue using hterm
  refine ⟨_, Result.bind_eq_ok.mpr ⟨_, Result.mapM_eq_ok fun x hx => Result.bind_eq_ok.mpr ⟨_, hf x hx, rfl⟩, rfl⟩,
    fun r hr => ?_, ?_⟩
  · obtain ⟨z, hz, hr⟩ := List.mem_flatten.mp hr
    obtain ⟨x, hx, rfl⟩ := List.mem_map.mp hz
    obtain ⟨t, ht, rfl⟩ := List.mem_map.mp hr
    exact hlies x hx t ht
  · rw [h.value_flatten, List.map_map, Operators.Side.denote_coords hv]
    refine congrArg List.sum (List.map_congr_left fun x hx => ?_)
    rw [Function.comp_apply, h.value_scale, hvalue x hx]

end Side

section Products

include hp

/-- Multiplying factors one after the other. -/
theorem exists_productOf {factors : List Operation} (hfactors : ∀ f ∈ factors, f.IsBasis A.prime) {d : ℤ} {v : Vec}
    (hv : Proper A.prime (dim A.prime d) v) (hd : 0 ≤ d) (hA : (factors.map (·.degree)).sum + d < A.computed)
    (ht : (factors.map (·.degree)).sum + d < trackedBelow) :
    ∃ w, factors.foldlM (fun x f => do
        let v ← A.multiplyElement 1 f x.1 x.2
        .ok (f.degree + x.1, v)) (d, v) = .ok ((factors.map (·.degree)).sum + d, w) ∧
      Proper A.prime (dim A.prime ((factors.map (·.degree)).sum + d)) w ∧
      (Faithful.operators (p := A.prime) (by omega) trackedBelow).denote ((factors.map (·.degree)).sum + d) (w.coords A.prime) =
        (factors.map (Faithful.operators (by omega) trackedBelow).operator).reverse.prod *
          (Faithful.operators (by omega) trackedBelow).denote d (v.coords A.prime) := by
  induction factors generalizing d v with
  | nil => exact ⟨v, by simp; rfl, by simpa using hv, by simp⟩
  | cons f factors ih =>
    have hf := hfactors f (by simp)
    have hrest : 0 ≤ (factors.map (·.degree)).sum := List.sum_nonneg fun e he => by
      obtain ⟨g, hg, rfl⟩ := List.mem_map.mp he
      exact (hfactors g (by simp [hg])).nonneg
    have hpos := hf.nonneg
    rw [List.map_cons, List.sum_cons] at hA ht
    obtain ⟨u, hu, hproper, hcoords⟩ := exists_multiplyElement hp hv hd hf (by omega) (by omega)
    obtain ⟨w, hw, hwproper, hwvalue⟩ := ih (fun g hg => hfactors g (by simp [hg])) hproper (by omega) (by omega) (by omega)
    have hdegree : (factors.map (·.degree)).sum + (f.degree + d) = ((f :: factors).map (·.degree)).sum + d := by
      rw [List.map_cons, List.sum_cons, add_comm f.degree, add_assoc, add_comm f.degree]
      omega
    rw [hdegree] at hw hwproper hwvalue
    refine ⟨w, ?_, hwproper, ?_⟩
    · rw [List.foldlM_cons, hu]
      exact hw
    · rw [hwvalue, hcoords, Operators.denote_combine_right _ hp le_rfl hd hf (by omega), List.map_cons, List.reverse_cons,
        List.prod_append, List.prod_singleton, mul_assoc]

end Products

end Algebra
end Steenrod
