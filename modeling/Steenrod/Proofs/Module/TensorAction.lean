import Steenrod.Proofs.Milnor.Multiplicative
import Steenrod.Proofs.Module.Rows
import Steenrod.Proofs.Module.TensorSpace
/-!
The action on a product of finite modules. Main statements: what the loops over summands, blocks and rows add up is what the operators
on tensors make of an element, for factors one after the other; so acting twice on an element of the product is acting by the product.
-/
namespace Steenrod

open Vec Milnor TensorProduct TensorTable

namespace Tensor

variable {p : Prime} {L R : FiniteModule} {t l r : ℤ} {k i n : ℕ} {v w : Vec}

/-- A tensor in its block. -/
theorem spread_outer {f g : ℕ → p.Field} (hf : f ∈ p.space (L.dimension (leftDegree L k))) (hg : g ∈ p.space (rowLength L R t k)) :
    spread p L R t (outer p (blockStart (width L R t) k) (L.dimension (leftDegree L k)) (rowLength L R t k) f g) =
      inDegree p (leftDegree L k) f ⊗ₜ inDegree p (t - leftDegree L k) g := by
  by_cases hk : k < span L
  · let χ : (ℕ → p.Field) →ₗ[p.Field] Space p := (TensorProduct.mk p.Field (Families p) (Families p)).flip
      (inDegree p (t - leftDegree L k) g) ∘ₗ inDegree p (leftDegree L k)
    have hunits := map_combine χ (L.dimension (leftDegree L k)) (fun i => Pi.single i 1) f
    rw [combine_units hf, combine_apply] at hunits
    rw [outer_apply, map_sum]
    refine (Finset.sum_congr rfl fun i hi => ?_).trans hunits.symm
    rw [map_smul]
    exact congrArg _ (spread_putBlock hk (Finset.mem_range.mp hi) hg)
  · have hzero : L.dimension (leftDegree L k) = 0 := by
      by_contra hne
      have hrange := FiniteModule.degrees_of_lt_dimension (Nat.pos_of_ne_zero hne)
      unfold leftDegree span at *
      omega
    rw [hzero, space_zero, Submodule.mem_bot] at hf
    rw [hf, map_zero, map_zero, LinearMap.zero_apply, map_zero, TensorProduct.zero_tmul]

section Action

variable {A : Algebra} {T : TensorTable} {a b : Operation} {t' : ℤ} {result : Vec} {c k' : ℕ}
variable (hp : A.prime.val < 1073741824) (hL : L.Closed A.prime) (hR : R.Closed A.prime)

/-- The image of a block, row by row. -/
theorem tensor_spreadBlock (ha : a.IsBasis A.prime) (hb : b.IsBasis A.prime) (hta : a.degree < trackedBelow)
    (htb : b.degree < trackedBelow) (f : ℕ → A.prime.Field) :
    (side hp hL hR).tensor a b (spreadBlock A.prime L R t k f) =
      ∑ i ∈ Finset.range (L.dimension (leftDegree L k)), (A.prime.sign (b.degree * leftDegree L k) : A.prime.Field) •
        (inDegree A.prime (leftDegree L k + a.degree) ((L.rep A.prime).act a (leftDegree L k) (Pi.single i 1)) ⊗ₜ
          inDegree A.prime (t - leftDegree L k + b.degree) ((R.rep A.prime).act b (t - leftDegree L k) (row A.prime L R t k i f))) := by
  rw [spreadBlock_apply, map_sum]
  refine Finset.sum_congr rfl fun i hi => ?_
  refine tensor_tmul hp hL hR ha hb hta htb (fun j hj => ?_) (row_mem f)
  have hi : i < L.dimension (leftDegree L k) := Finset.mem_range.mp hi
  exact Pi.single_eq_of_ne (by omega) _

/-- One summand of a coproduct on one block. -/
theorem exists_spread_actOnBlock (hT : Records L R T) (ha : a.IsBasis A.prime) (hb : b.IsBasis A.prime)
    (hA : a.degree + b.degree < A.computed) (ht : a.degree + b.degree < trackedBelow) (hk : k < reach L R t)
    (hdegree : t + a.degree + b.degree = t') (hnext : t' < T.offsets.nextDegree) (hv : Proper A.prime (TensorTable.total L R t) v)
    (hresult : Proper A.prime (TensorTable.total L R t') result) :
    ∃ w, actOnBlock (L.toGraded A) (R.toGraded A) T A.prime c a b t v (leftDegree L k) result = .ok w ∧
      Proper A.prime (TensorTable.total L R t') w ∧ spread A.prime L R t' (w.coords A.prime) =
        spread A.prime L R t' (result.coords A.prime) +
          (c : A.prime.Field) • (side hp hL hR).tensor a b (spreadBlock A.prime L R t k (v.coords A.prime)) := by
  have ha₀ := ha.nonneg
  have hb₀ := hb.nonneg
  have hspan : k < span L := hk.trans_le reach_le_span
  have hactsL := FiniteModule.actsAs (hL.stores.storedBelow A.computed) (leftDegree L k + a.degree)
  have hactsR := FiniteModule.actsAs (hR.stores.storedBelow A.computed) (t - leftDegree L k + b.degree)
  -- The block that the summand goes to.
  obtain ⟨k', hk'⟩ : ∃ k' : ℕ, k' = k + a.degree.toNat := ⟨_, rfl⟩
  have hleftDegree : leftDegree L k + a.degree = leftDegree L k' := by
    unfold leftDegree
    omega
  have hrightDegree : t - leftDegree L k + b.degree = t' - leftDegree L k' := by omega
  have hreach' : L.dimension (leftDegree L k + a.degree) ≠ 0 → R.dimension (t - leftDegree L k + b.degree) ≠ 0 → k' < reach L R t' := by
    intro hleft hright
    have hlow := (FiniteModule.degrees_of_lt_dimension (Nat.pos_of_ne_zero hleft)).2
    have hhigh := (FiniteModule.degrees_of_lt_dimension (Nat.pos_of_ne_zero hright)).1
    unfold leftDegree at hlow hhigh
    unfold reach
    omega
  have hmin : L.minDegree + R.minDegree ≤ t := by
    have hreach := hk
    unfold reach at hreach
    omega
  obtain ⟨w, hw, hproper, hcoords⟩ := exists_actOnBlock (T := T) (c := c) hactsL hactsR ha hb (by omega) (by omega) le_rfl le_rfl rfl rfl rfl rfl rfl
    (fun hleft hright _ _ => ⟨hT.offset_eq hmin (by omega) hk.le,
      (blockStart_add_le (D := width L R t) hspan).trans_eq hv.size_eq.symm, by
        rw [hdegree, hleftDegree]
        exact hT.offset_eq (by omega) hnext (hreach' hleft hright).le, by
        rw [hleftDegree, hrightDegree]
        exact blockStart_add_le ((hreach' hleft hright).trans_le reach_le_span)⟩) hresult
  refine ⟨w, hw, hproper, ?_⟩
  rw [hcoords, map_add, map_sum, tensor_spreadBlock hp hL hR ha hb (by omega) (by omega), Finset.smul_sum]
  refine congrArg _ (Finset.sum_congr rfl fun i hi => ?_)
  rw [map_smul, mul_smul]
  have hf := hL.stores.act_mem (d := leftDegree L k) ha (Pi.single i 1)
  have hg := hR.stores.act_mem (d := t - leftDegree L k) hb (row A.prime L R t k i (v.coords A.prime))
  change _ • _ • spread A.prime L R t' (outer A.prime _ (L.dimension (leftDegree L k + a.degree))
    (R.dimension (t - leftDegree L k + b.degree)) _ _) = _
  rw [hleftDegree] at hf ⊢
  rw [hrightDegree] at hg ⊢
  exact congrArg _ (congrArg _ (spread_outer hf hg))

/-- One summand of a coproduct on all blocks. -/
theorem exists_actOnBlocks (hT : Records L R T) (ha : a.IsBasis A.prime) (hb : b.IsBasis A.prime)
    (hA : a.degree + b.degree < A.computed) (ht : a.degree + b.degree < trackedBelow) (hdegree : t + a.degree + b.degree = t')
    (hnext : t' < T.offsets.nextDegree) (hv : Proper A.prime (TensorTable.total L R t) v)
    (hresult : Proper A.prime (TensorTable.total L R t') result) :
    ∃ w, (leftDegrees (L.toGraded A) (R.toGraded A) t).foldlM (fun result l =>
        actOnBlock (L.toGraded A) (R.toGraded A) T A.prime c a b t v l result) result = .ok w ∧
      Proper A.prime (TensorTable.total L R t') w ∧ spread A.prime L R t' (w.coords A.prime) =
        spread A.prime L R t' (result.coords A.prime) +
          (c : A.prime.Field) • (side hp hL hR).tensor a b (spread A.prime L R t (v.coords A.prime)) := by
  obtain ⟨w, hw, hproper, hspread⟩ := foldlM_map_add (spread A.prime L R t') (List.range (reach L R t)) (fun k hk x hx =>
    exists_spread_actOnBlock (k := k) (c := c) hp hL hR hT ha hb hA ht (List.mem_range.mp hk) hdegree hnext hv hx) hresult
  refine ⟨w, ?_, hproper, ?_⟩
  · rw [leftDegrees_eq, List.foldlM_map]
    exact hw
  · rw [hspread, spread_eq_sum_reach (t := t), map_sum, Finset.smul_sum, ← List.sum_toFinset _ List.nodup_range, List.toFinset_range]

/-- An element whose coproduct is known on its own acts as its operator. -/
theorem exists_actThroughCoproduct (hT : Records L R T) {y : MilnorElement} (hy : element? A.prime a = some y) (hfactor : IsFactor y)
    (hA : a.degree < A.computed) (ht : a.degree < trackedBelow) (hdegree : t + a.degree = t') (hnext : t' < T.offsets.nextDegree)
    (hv : Proper A.prime (TensorTable.total L R t) v) :
    ∃ w, actThroughCoproduct A (L.toGraded A) (R.toGraded A) T A.prime c a t v = .ok w ∧
      Proper A.prime (TensorTable.total L R t') w ∧ spread A.prime L R t' (w.coords A.prime) =
        (c : A.prime.Field) • (operators hp hL hR).operator a (spread A.prime L R t (v.coords A.prime)) := by
  let z := spread A.prime L R t (v.coords A.prime)
  obtain ⟨w, hw, hproper, hspread⟩ := foldlM_map_add (spread A.prime L R t') (summands A.prime a y) (fun s hs u hu => by
    obtain ⟨hbasis, hbasis', hsum⟩ := isBasis_of_mem_summands hp hy ht hfactor hs
    exact exists_actOnBlocks (c := c) (a := s.1) (b := s.2) hp hL hR hT hbasis hbasis' (hsum ▸ hA) (hsum ▸ ht)
      (by rw [add_assoc, hsum, hdegree]) hnext hv hu) Proper.zero
  refine ⟨w, ?_, hproper, ?_⟩
  · rw [actThroughCoproduct, hdegree, hT.dimension_eq A hnext, Result.ok_bind, A.coproduct_eq hp hy ht hA hfactor]
    exact hw
  · have hoperator : (operators hp hL hR).operator a = ((summands A.prime a y).map fun s => (side hp hL hR).tensor s.1 s.2).sum :=
      ((side hp hL hR).sum_summands hp hy ht hfactor).symm
    have heval : ∀ f : List (Module.End A.prime.Field (Space A.prime)), f.sum z = (f.map fun g => g z).sum := fun f =>
      map_list_sum (LinearMap.applyₗ z) f
    rw [hspread, coords_zero, map_zero, zero_add, hoperator, heval, List.smul_sum, List.map_map, List.map_map]
    rfl

/-- Factors act one after the other. -/
theorem exists_actByFactors (hT : Records L R T) {factors : List Operation} (hne : factors ≠ [])
    (hfactors : ∀ f ∈ factors, ∃ y, element? A.prime f = some y ∧ IsFactor y)
    (hA : (factors.map (·.degree)).sum < A.computed) (ht : (factors.map (·.degree)).sum < trackedBelow)
    (hdegree : t + (factors.map (·.degree)).sum = t') (hnext : t' < T.offsets.nextDegree)
    (hv : Proper A.prime (TensorTable.total L R t) v) :
    ∃ w, actByFactors A (L.toGraded A) (R.toGraded A) T A.prime c factors t v = .ok w ∧
      Proper A.prime (TensorTable.total L R t') w ∧ spread A.prime L R t' (w.coords A.prime) = (c : A.prime.Field) •
        (factors.map (operators hp hL hR).operator).reverse.prod (spread A.prime L R t (v.coords A.prime)) := by
  induction factors generalizing t v with
  | nil => exact absurd rfl hne
  | cons f rest ih =>
    obtain ⟨y, hy, hfactor⟩ := hfactors f (by simp)
    have hf := (mem_basis_of_element? hy).1.nonneg
    have hrest : 0 ≤ (rest.map (·.degree)).sum := List.sum_nonneg fun e he => by
      obtain ⟨g, hg, rfl⟩ := List.mem_map.mp he
      obtain ⟨z, hz, _⟩ := hfactors g (by simp [hg])
      exact (mem_basis_of_element? hz).1.nonneg
    rw [List.map_cons, List.sum_cons] at hA ht hdegree
    cases rest with
    | nil =>
      rw [List.map_nil, List.sum_nil, add_zero] at hA ht hdegree
      obtain ⟨w, hw, hproper, hspread⟩ := exists_actThroughCoproduct (c := c) hp hL hR hT hy hfactor hA ht hdegree hnext hv
      exact ⟨w, hw, hproper, by simpa using hspread⟩
    | cons g rest =>
      obtain ⟨u, hu, hup, huc⟩ :=
        exists_actThroughCoproduct (c := 1) hp hL hR hT hy hfactor (by omega) (by omega) rfl (by omega) hv
      obtain ⟨w, hw, hproper, hspread⟩ := ih (by simp) (fun h hh => hfactors h (by simp [hh])) (by omega) (by omega) (by omega) hup
      refine ⟨w, ?_, hproper, ?_⟩
      · change (actThroughCoproduct A (L.toGraded A) (R.toGraded A) T A.prime 1 f t v >>= fun v =>
          actByFactors A (L.toGraded A) (R.toGraded A) T A.prime c (g :: rest) (t + f.degree) v) = _
        rw [hu, Result.ok_bind, hw]
      · have hprod : ((f :: g :: rest).map (operators hp hL hR).operator).reverse.prod =
            ((g :: rest).map (operators hp hL hR).operator).reverse.prod * (operators hp hL hR).operator f := by
          generalize g :: rest = rest
          rw [List.map_cons, List.reverse_cons, List.prod_append, List.prod_singleton]
        rw [hspread, huc, Nat.cast_one, one_smul, hprod, Module.End.mul_apply]

/-- A basis element acts through its factors as its operator, also where the result has no room. -/
theorem exists_actByFactors_of_pos (hT : Records L R T) (ha : a.IsBasis A.prime) (hpos : 0 < a.degree) (hA : a.degree < A.computed)
    (ht : a.degree < trackedBelow) (hnext : t + a.degree < T.offsets.nextDegree) (hv : Proper A.prime (TensorTable.total L R t) v) :
    ∃ factors w, A.factors a = .ok factors ∧ actByFactors A (L.toGraded A) (R.toGraded A) T A.prime c factors t v = .ok w ∧
      Proper A.prime (TensorTable.total L R (t + a.degree)) w ∧ spread A.prime L R (t + a.degree) (w.coords A.prime) =
        (c : A.prime.Field) • (operators hp hL hR).operator a (spread A.prime L R t (v.coords A.prime)) := by
  obtain ⟨x, hx, _⟩ := element?_eq_some ha
  have hsum := sum_degree_factorsOf hp hx ht
  have hfactors : ∀ f ∈ factorsOf A.prime a x, ∃ y, element? A.prime f = some y ∧ IsFactor y := fun f hf => by
    obtain ⟨y, hy, hfactor, _⟩ := isFactor_of_mem_factorsOf hp hx ht hf
    exact ⟨y, hy, hfactor⟩
  have hne : factorsOf A.prime a x ≠ [] := fun hnil => by
    rw [hnil, List.map_nil, List.sum_nil] at hsum
    omega
  obtain ⟨w, hw, hproper, hspread⟩ := exists_actByFactors (c := c) hp hL hR hT hne hfactors (by rwa [hsum]) (by rwa [hsum])
    (by rw [hsum]) hnext hv
  refine ⟨_, w, A.factors_eq hp hx ht hA, hw, hproper, ?_⟩
  rw [hspread, Operators.prod_factorsOf hp hx ht]

/-- The program's action is that of the operators on tensors. -/
theorem exists_act (hT : Records L R T) (ha : a.IsBasis A.prime) (hA : a.degree < A.computed) (ht : a.degree < trackedBelow)
    (hnext : t + a.degree < T.offsets.nextDegree) (hv : Proper A.prime (TensorTable.total L R t) v) :
    ∃ w, act A (L.toGraded A) (R.toGraded A) T A.prime c a t v = .ok w ∧
      Proper A.prime (TensorTable.total L R (t + a.degree)) w ∧ spread A.prime L R (t + a.degree) (w.coords A.prime) =
        (c : A.prime.Field) • (operators hp hL hR).operator a (spread A.prime L R t (v.coords A.prime)) := by
  rw [act, hT.dimension_eq A hnext, Result.ok_bind]
  rcases ha.nonneg.eq_or_lt with hzero | hpos
  · obtain rfl := ha.eq_one hzero.symm
    simp only [add_zero]
    refine ⟨_, if_pos trivial, Proper.zero.add c v, ?_⟩
    rw [Proper.zero.coords_add c hv, coords_zero, zero_add, map_smul, Operators.operator_one, Module.End.one_apply]
  · obtain ⟨factors, w, hfactors, hw, hproper, hspread⟩ :=
      exists_actByFactors_of_pos (c := c) hp hL hR hT ha hpos hA ht hnext hv
    rw [if_neg hpos.ne']
    by_cases hroom : TensorTable.total L R (t + a.degree) = 0
    · rw [if_pos hroom]
      rw [hroom] at hproper ⊢
      refine ⟨Vec.zero 0, rfl, Proper.zero, ?_⟩
      rw [← hspread, ← hproper.eq_zero ((Submodule.eq_bot_iff _).mp space_zero _ hproper.coords_mem)]
    · rw [if_neg hroom, hfactors, Result.ok_bind]
      exact ⟨w, hw, hproper, hspread⟩

theorem exists_actOnBasis (hT : Records L R T) (ha : a.IsBasis A.prime) (hA : a.degree < A.computed) (ht : a.degree < trackedBelow)
    (hnext : t + a.degree < T.offsets.nextDegree) (hi : i < TensorTable.total L R t) :
    ∃ w, actOnBasis A (L.toGraded A) (R.toGraded A) T A.prime c a t i = .ok w ∧
      Proper A.prime (TensorTable.total L R (t + a.degree)) w ∧ spread A.prime L R (t + a.degree) (w.coords A.prime) =
        (c : A.prime.Field) • (operators hp hL hR).operator a (spread A.prime L R t (Pi.single i 1)) := by
  have ha₀ := ha.nonneg
  obtain ⟨w, hw, hproper, hspread⟩ := exists_act (c := c) hp hL hR hT ha hA ht hnext (proper_unit (TensorTable.total L R t) i)
  rw [coords_unit hi] at hspread
  refine ⟨w, ?_, hproper, hspread⟩
  rw [actOnBasis, hT.dimension_eq A (by omega), Result.ok_bind, decide_eq_true hi, require_true, Result.ok_bind, hw]

end Action

end Tensor
end Steenrod
