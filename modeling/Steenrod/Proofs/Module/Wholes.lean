import Steenrod.Proofs.Module.Mirrored
/-!
Products and sums as finite modules. Main statements: for two closed modules there is a closed one that every view of their product
shows, and for a list of closed modules, cut off below a degree, there is one that every view of their sum shows.
-/
namespace Steenrod

open Vec Milnor Growing

/-- An algebra over a given prime, computed as far as one likes. -/
theorem Algebra.exists_computed (p : Prime) (d : ℤ) : ∃ A : Algebra, A.prime = p ∧ d < A.computed := by
  refine ⟨(Algebra.new p none).extend d, (Algebra.new p none).prime_extend d, ?_⟩
  rw [(Algebra.new p none).computed_extend]
  split <;> omega

namespace Tensor

open FiniteModule TensorTable

variable {p : Prime} {L R M : FiniteModule} {A : Algebra} {T : TensorTable} {a : Operation} {top t : ℤ} {i : ℕ}
variable {names : ℤ → List String}

/-- `M` is the product of `L` and `R`: every view of that shows it, as far as the table reaches. -/
def IsProduct (p : Prime) (L R M : FiniteModule) : Prop :=
  ∀ ⦃A : Algebra⦄ ⦃T : TensorTable⦄, A.prime = p → Records L R T →
    (toGraded A (L.toGraded A) (R.toGraded A) T).Mirrors M A (T.offsets.nextDegree - 1)

/-- What is cut off from a product is closed. -/
theorem closed_cut (hp : A.prime.val < 1073741824) (hL : L.Closed A.prime) (hR : R.Closed A.prime) (hT : Records L R T)
    (hM : IsCut A.prime (toGraded A (L.toGraded A) (R.toGraded A) T) (TensorTable.total L R) names top M)
    (hA : top - (L.minDegree + R.minDegree) < A.computed) (hnext : top < T.offsets.nextDegree) : M.Closed A.prime where
  stores := hM.stores
  closedAt x hx _ := by
    obtain ⟨hlow, hlt, hhigh⟩ := mem_closingOrder.mp hx
    have hmin : M.minDegree = L.minDegree + R.minDegree := hM.minDegree_eq
    have hmax : M.maxDegree = max top (L.minDegree + R.minDegree - 1) := hM.maxDegree_eq
    refine ⟨fun k i hk _ hi hroom => ?_, relationsHold_cut hp hL hR hT hM hnext (by omega) (by omega)⟩
    have ha : (⟨x.2 - x.1, k⟩ : Operation).IsBasis A.prime := ⟨by simp only; omega, hk⟩
    have hdecomposes := decomposes_decomposition hp ha (by simp only; omega) (by simp only; omega)
    have htarget : x.1 + (x.2 - x.1) = x.2 := by omega
    have hsingle := single_mem_space (p := A.prime) hi
    have hterms := spread_termAct hp hL hR hT hM hdecomposes.liesIn (by simp only; omega) (by simp only; omega) (hmin ▸ hlow)
      (by simp only; omega) hnext hsingle
    have hact := spread_rep_act hp hL hR hT hM ha (by simp only; omega) (by simp only; omega) (hmin ▸ hlow) (by simp only; omega) hnext hsingle
    rw [hdecomposes.holds (operators hp hL hR) le_rfl (by simp only; omega), ← hact] at hterms
    have hdim : M.dimension (x.1 + (x.2 - x.1)) = TensorTable.total L R (x.1 + (x.2 - x.1)) := by
      rw [htarget]
      exact (hM.of_lt_dimension hroom).2.2
    have hmem := hM.stores.termAct_mem (d := x.1) hdecomposes.liesIn (Pi.single i 1)
    have hmem' := hM.stores.act_mem (d := x.1) ha (Pi.single i 1)
    rw [hdim] at hmem hmem'
    rw [FilledAt, spread_injective hmem hmem' hterms, rep_act_single _ _ _ hi]

/-- What a product is as a finite module: joined names, and the operators on tensors in coordinates. -/
structure Joins (hp : p.val < 1073741824) (hL : L.Closed p) (hR : R.Closed p) (M : FiniteModule) : Prop where
  name_eq : M.name = s!"{L.name} (x) {R.name}"
  minDegree_eq : M.minDegree = L.minDegree + R.minDegree
  dimension_eq : ∀ t, M.dimension t = TensorTable.total L R t
  nameOf_eq : ∀ {t : ℤ} {k i j : ℕ} {x y : String}, k < span L → i < L.dimension (leftDegree L k) → j < rowLength L R t k →
    L.nameOf (leftDegree L k) i = .ok x → R.nameOf (t - leftDegree L k) j = .ok y → M.nameOf t (rowStart L R t k i + j) = .ok s!"{x}.{y}"
  stores : M.Stores p
  spread_stored : ∀ {a : Operation} {t : ℤ} {i : ℕ}, a.IsBasis p → a.degree < trackedBelow → i < M.dimension t →
    spread p L R (t + a.degree) (M.stored p a t i) = (operators hp hL hR).operator a (spread p L R t (Pi.single i 1))

/-- Every view of a product shows it. -/
theorem Joins.mirrors {hp : A.prime.val < 1073741824} {hL : L.Closed A.prime} {hR : R.Closed A.prime} (h : Joins hp hL hR M)
    (hLN : L.Labelled) (hRN : R.Labelled) (hT : Records L R T) :
    (toGraded A (L.toGraded A) (R.toGraded A) T).Mirrors M A (T.offsets.nextDegree - 1) where
  name_eq := h.name_eq.symm
  prime_eq := rfl
  minDegree_eq := h.minDegree_eq.symm
  dimension_eq d hd := (hT.dimension_eq A (by omega)).trans (congrArg Except.ok (h.dimension_eq d).symm)
  nameOf_eq d hd i hi := by
    rw [h.dimension_eq] at hi
    obtain ⟨k, hk, i, hi', j, hj, rfl⟩ := exists_row hi
    obtain ⟨x, hx⟩ := hLN.mp hi'
    obtain ⟨y, hy⟩ := hRN.mp hj
    have hlow : L.minDegree + R.minDegree ≤ d := by
      by_contra hlt
      rw [total_eq_zero (.inl (not_le.mp hlt))] at hi
      exact absurd hi (Nat.not_lt_zero _)
    rw [h.nameOf_eq hk hi' hj hx hy]
    exact hT.nameOf_eq A (by omega) hi' hj hx hy
  actOnBasis_eq c a d i ha hA ht hd hi := by
    have hi' : i < TensorTable.total L R d := h.dimension_eq d ▸ hi
    obtain ⟨w, hw, hproper, hspread⟩ := exists_actOnBasis (c := c) hp hL hR hT ha hA ht (by omega) hi'
    obtain ⟨w', hw', hproper', hcoords⟩ := FiniteModule.actOnBasis_eq (h.stores.storedBelow _) ha hA hi c
    rw [h.dimension_eq] at hproper'
    rw [rep_act_single _ _ _ hi] at hcoords
    have heq : w = w' := hproper.ext hproper' <| spread_injective hproper.coords_mem hproper'.coords_mem <| by
      rw [hspread, hcoords, map_smul, h.spread_stored ha ht hi]
    exact hw.trans (heq ▸ hw'.symm)

/-- Where a product has no basis elements the operators on tensors leave nothing. -/
theorem operator_spread_eq_zero (hp : p.val < 1073741824) (hL : L.Closed p) (hR : R.Closed p) (ha : a.IsBasis p)
    (ht : a.degree < trackedBelow) (hi : i < TensorTable.total L R t) (hzero : TensorTable.total L R (t + a.degree) = 0) :
    (operators hp hL hR).operator a (spread p L R t (Pi.single i 1)) = 0 := by
  obtain ⟨A, rfl, hA⟩ := Algebra.exists_computed p a.degree
  obtain ⟨T, hextend⟩ := TensorTable.exists_extend A (TensorTable.new (L.toGraded A) (R.toGraded A)) (L := L) (R := R) (t + a.degree)
  obtain ⟨hT, hnext⟩ := (records_new A).extend hextend
  obtain ⟨w, _, hproper, hspread⟩ := exists_actOnBasis (c := 1) hp hL hR hT ha hA ht (by omega) hi
  rw [hzero] at hproper
  rw [Nat.cast_one, one_smul] at hspread
  rw [← hspread, (Submodule.eq_bot_iff _).mp space_zero _ hproper.coords_mem, map_zero]

/-- What is cut off from a product above its top degree is the product as a finite module. -/
theorem exists_joins (hp : p.val < 1073741824) (hL : L.Closed p) (hR : R.Closed p) (hLN : L.Labelled) (hRN : R.Labelled)
    (hzero : ∀ t, top < t → TensorTable.total L R t = 0) (htracked : top - (L.minDegree + R.minDegree) < trackedBelow) :
    ∃ M, M.maxDegree = max top (L.minDegree + R.minDegree - 1) ∧ M.Closed p ∧ M.Labelled ∧ Joins hp hL hR M := by
  obtain ⟨A, rfl, hA⟩ := Algebra.exists_computed p (top - (L.minDegree + R.minDegree))
  obtain ⟨T, hextend⟩ := TensorTable.exists_extend A (TensorTable.new (L.toGraded A) (R.toGraded A)) (L := L) (R := R) top
  obtain ⟨hT, hnext⟩ := (records_new A).extend hextend
  have hnext : top < T.offsets.nextDegree := by omega
  obtain ⟨names, M, A', hrun, hM⟩ := exists_run_truncate hp hL hR hT hLN hRN hA htracked hnext
  have hmin : M.minDegree = L.minDegree + R.minDegree := hM.minDegree_eq
  have hdim : ∀ t, M.dimension t = TensorTable.total L R t := fun t => by
    rw [hM.dimension_eq]
    split
    · rfl
    · next hnot =>
      have hmin' : (toGraded A (L.toGraded A) (R.toGraded A) T).minDegree = L.minDegree + R.minDegree := rfl
      by_cases hlow : t < L.minDegree + R.minDegree
      · exact (total_eq_zero (.inl hlow)).symm
      · exact (hzero t (by omega)).symm
  refine ⟨M, hM.maxDegree_eq, closed_cut hp hL hR hT hM hA hnext, labelled_of_run_truncate hrun,
    (entered_of_run_truncate hrun).1, hmin, hdim, fun {t k i j x y} hk hi hj hx hy => ?_, hM.stores, fun {a t i} ha ht hi => ?_⟩
  · have hplace := rowStart_add_lt_total hk hi hj
    obtain ⟨hlow, hhigh, _⟩ := hM.of_lt_dimension (hdim t ▸ hplace)
    exact (nameOf_of_run_truncate hrun).mpr ⟨hdim t ▸ hplace, hT.nameOf_eq A (by omega) hi hj hx hy⟩
  · have ha₀ := ha.nonneg
    obtain ⟨hlow, hhigh, _⟩ := hM.of_lt_dimension hi
    by_cases htarget : t + a.degree ≤ top
    · have hact := spread_rep_act hp hL hR hT hM ha (by have hlow : L.minDegree + R.minDegree ≤ t := hlow; omega) ht hlow htarget hnext
        (single_mem_space hi)
      rwa [rep_act_single _ _ _ hi] at hact
    · have hempty := hzero (t + a.degree) (by omega)
      rw [stored, if_pos ((hdim _).trans hempty), map_zero, operator_spread_eq_zero hp hL hR ha ht (hdim t ▸ hi) hempty]

/-- Two closed modules have a product that is a closed module. -/
theorem exists_isProduct (hp : p.val < 1073741824) (hL : L.Closed p) (hR : R.Closed p) (hLN : L.Labelled) (hRN : R.Labelled)
    (hzero : ∀ t, top < t → TensorTable.total L R t = 0) (htracked : top - (L.minDegree + R.minDegree) < trackedBelow) :
    ∃ M, M.minDegree = L.minDegree + R.minDegree ∧ M.maxDegree = max top (L.minDegree + R.minDegree - 1) ∧ M.Closed p ∧ M.Labelled ∧
      IsProduct p L R M := by
  obtain ⟨M, hmax, hclosed, hlabelled, hM⟩ := exists_joins hp hL hR hLN hRN hzero htracked
  refine ⟨M, hM.minDegree_eq, hmax, hclosed, hlabelled, fun A T hA hT => ?_⟩
  subst hA
  exact hM.mirrors hLN hRN hT

end Tensor

namespace Representation

variable {p : Prime} {X : Representation p} {low high top d : ℤ}

/-- The elements of degrees from `low` on. -/
def above (low : ℤ) (X : Representation p) : Representation p where
  dim d := if d < low then 0 else X.dim d
  act := X.act

theorem dim_above_of_le (hd : low ≤ d) : (X.above low).dim d = X.dim d := if_neg (not_lt.mpr hd)

theorem dim_above_of_lt (hd : d < low) : (X.above low).dim d = 0 := if_pos hd

/-- What is of degrees from `low` on is a module if the laws hold there. -/
theorem lawful_above
    (hmem : ∀ {a : Operation} {d : ℤ} {v : ℕ → p.Field}, a.IsBasis p → d + a.degree ≤ top → v ∈ p.space (X.dim d) →
      X.act a d v ∈ p.space (X.dim (d + a.degree)))
    (hone : ∀ {d : ℤ} {v : ℕ → p.Field}, d ≤ top → v ∈ p.space (X.dim d) → X.act ⟨0, 0⟩ d v = v)
    (hmul : ∀ {a b : Operation} {d : ℤ} {v : ℕ → p.Field}, a.IsBasis p → b.IsBasis p → low ≤ d → d + b.degree + a.degree ≤ top →
      v ∈ p.space (X.dim d) → X.act a (d + b.degree) (X.act b d v) =
        combine (Milnor.dim p (a.degree + b.degree)) (fun k => X.act ⟨a.degree + b.degree, k⟩ d v) (Milnor.mul p a b)) :
    (X.above low).LawfulThrough top := by
  have hzero : ∀ {d : ℤ} {v : ℕ → p.Field}, d < low → v ∈ p.space ((X.above low).dim d) → v = 0 := fun {d v} hd hv => by
    rw [dim_above_of_lt hd] at hv
    exact (Submodule.eq_bot_iff _).mp space_zero _ hv
  refine ⟨fun {a d v} ha hd hv => ?_, fun {d v} hd hv => ?_, fun {a b d v} ha hb hd hv => ?_⟩
  · have ha₀ := ha.nonneg
    by_cases hlow : d < low
    · obtain rfl := hzero hlow hv
      rw [map_zero]
      exact Submodule.zero_mem _
    · rw [dim_above_of_le (by omega)] at hv ⊢
      exact hmem ha hd hv
  · by_cases hlow : d < low
    · obtain rfl := hzero hlow hv
      exact map_zero _
    · rw [dim_above_of_le (by omega)] at hv
      exact hone hd hv
  · by_cases hlow : d < low
    · obtain rfl := hzero hlow hv
      simp only [map_zero, combine_apply, smul_zero, Finset.sum_const_zero]
    · rw [dim_above_of_le (by omega)] at hv
      exact hmul ha hb (not_lt.mp hlow) hd hv

theorem LawfulThrough.above (hX : X.LawfulThrough top) (low : ℤ) : (X.above low).LawfulThrough top :=
  lawful_above hX.act_mem hX.one_act fun ha hb _ hd hv => hX.mul_act ha hb hd hv

/-- The elements of degrees from some degree on form a module. -/
theorem IsFiniteModule.lawful_above {m : ℤ} (hX : X.IsFiniteModule m high) (htracked : top - low < trackedBelow) :
    (X.above low).LawfulThrough top := by
  have htracked' : ((2 : ℤ) ^ 25 - 1) = trackedBelow := by decide
  exact Representation.lawful_above (fun ha _ hv => hX.act_mem ha hv) (fun _ hv => hX.one_act hv)
    fun ha hb hlow hd hv => hX.mul_act ha hb (by omega) hv

end Representation

/-- What acts as a representation acts as that on the elements of degrees from some degree on. -/
theorem GradedModule.ActsAs.above {p : Prime} {N : GradedModule} {X : Representation p} {A : Algebra} {top : ℤ} (h : N.ActsAs X A top)
    (low : ℤ) : N.ActsAs (X.above low) A top := by
  intro c a d i ha hA hd hi
  have ha₀ := ha.nonneg
  have hlow : low ≤ d := by
    by_contra hlt
    rw [Representation.dim_above_of_lt (by omega)] at hi
    exact absurd hi (Nat.not_lt_zero i)
  rw [Representation.dim_above_of_le hlow] at hi
  obtain ⟨w, hw, hproper, hcoords⟩ := h c a d i ha hA hd hi
  have hdim : (X.above low).dim (d + a.degree) = X.dim (d + a.degree) := Representation.dim_above_of_le (by omega)
  exact ⟨w, hw, hdim ▸ hproper, hcoords⟩

namespace FiniteModule

variable {p : Prime} {M K : FiniteModule} {top : ℤ}

/-- What is cut off agrees with a representation as far as what it is cut off from acts as that. -/
theorem IsCut.agrees {X : Representation p} {N : GradedModule} {D : ℤ → ℕ} {names : ℤ → List String} {a : Operation} {d : ℤ}
    (hM : IsCut p N D names top M) (hX : X.LawfulThrough top) (hdim : ∀ d, M.dimension d = X.dim d)
    (ha : a.IsBasis p) (hmem : ∀ i, X.act a d (Pi.single i 1) ∈ p.space (X.dim (d + a.degree)))
    (hacts : ∀ i, i < M.dimension d → 0 < M.dimension (d + a.degree) →
      ∃ w, N.actOnBasis p 1 a d i = .ok w ∧ w.coords p = X.act a d (Pi.single i 1)) : Agrees X M a d := by
  intro i hi
  rcases Nat.eq_zero_or_pos (M.dimension (d + a.degree)) with hzero | hroom
  · have hmem := hmem i
    rw [← hdim, hzero] at hmem
    rw [stored, if_pos hzero, (Submodule.eq_bot_iff _).mp space_zero _ hmem]
  · obtain ⟨_, hhigh, _⟩ := hM.of_lt_dimension hroom
    rcases ha.nonneg.eq_or_lt with hunit | hpos
    · obtain rfl := ha.eq_one hunit.symm
      rw [stored, if_neg hroom.ne', if_pos rfl, hX.one_act (by omega) (hdim d ▸ single_mem_space hi)]
    · obtain ⟨w, hw, hcoords⟩ := hacts i hi hroom
      rw [hM.stored_eq ha hpos hi hroom, imageOf_eq hw, hcoords]

/-- A table that agrees with a representation on which the laws of a module hold is a module. -/
theorem isFiniteModule_of_agrees {X : Representation p} (hX : X.LawfulThrough top) (hM : M.Stores p) (hdim : ∀ d, M.dimension d = X.dim d)
    (hzero : ∀ d, top < d → X.dim d = 0) (hagrees : ∀ a d, a.IsBasis p → d + a.degree ≤ top → Agrees X M a d) :
    (M.rep p).IsFiniteModule M.minDegree M.maxDegree where
  dim_eq_zero d hd := by
    by_contra hne
    have := degrees_of_lt_dimension (M := M) (Nat.pos_of_ne_zero hne)
    omega
  act_mem ha _ := hM.act_mem ha _
  one_act hv := rep_one_act hv
  mul_act {a b d v} ha hb _ hv := by
    have hdegree : d + b.degree + a.degree = d + (a.degree + b.degree) := by omega
    by_cases htop : d + b.degree + a.degree ≤ top
    · have ha₀ := ha.nonneg
      have hb' := (hagrees b d hb (by omega)).act_eq hv
      have hmem := hM.act_mem (d := d) hb v
      rw [(hagrees a _ ha htop).act_eq hmem, hb', hX.mul_act ha hb htop (hdim d ▸ hv)]
      exact combine_congr (fun k hk => ((hagrees _ d (Representation.isBasis_of_lt hk) (by simp only; omega)).act_eq hv).symm) fun _ _ => rfl
    · have hempty : M.dimension (d + (a.degree + b.degree)) = 0 := (hdim _).trans (hzero _ (by omega))
      have hnone : ∀ k : ℕ, (M.rep p).act ⟨a.degree + b.degree, k⟩ d = 0 := fun k => rep_act_eq_zero hempty
      rw [rep_act_eq_zero (hdegree ▸ hempty), LinearMap.zero_apply]
      simp only [hnone, LinearMap.zero_apply, combine_apply, smul_zero, Finset.sum_const_zero]

/-- The part of a module is a module. -/
theorem IsPart.genuine (h : IsPart p M top K) (hp : p.val < 1073741824) (hM : M.Closed p) (hlabelled : M.Labelled)
    (htracked : top - M.minDegree < trackedBelow) : K.Genuine p where
  entered := h.entered
  named := by
    rw [h.names_eq, h.dims_eq]
    refine Graded.ext_get? rfl fun d => ?_
    rw [Graded.get?_map, get?_ofList_degrees, get?_ofList_degrees]
    split
    · rw [Option.map_some, hlabelled.length_namesIn]
    · rfl
  stores := h.stores
  lawful := by
    have hX := hM.isFiniteModule hp
    have hsame : ∀ {d : ℤ}, d ≤ top → K.dimension d = M.dimension d := h.dimension_of_le
    have htracked' : ((2 : ℤ) ^ 25 - 1) = trackedBelow := by decide
    let X : Representation p := ⟨K.dimension, (M.rep p).act⟩
    have hlawful : X.LawfulThrough top := by
      refine ⟨fun {a d v} ha hd hv => ?_, fun {d v} hd hv => ?_, fun {a b d v} ha hb hd hv => ?_⟩
      · have ha₀ := ha.nonneg
        have hv : v ∈ p.space (M.dimension d) := hsame (d := d) (by omega) ▸ hv
        change (M.rep p).act a d v ∈ p.space (K.dimension (d + a.degree))
        rw [hsame hd]
        exact hX.act_mem ha hv
      · have hv : v ∈ p.space (M.dimension d) := hsame hd ▸ hv
        exact hX.one_act hv
      · have ha₀ := ha.nonneg
        have hb₀ := hb.nonneg
        have hv : v ∈ p.space (M.dimension d) := hsame (d := d) (by omega) ▸ hv
        by_cases hlow : d < M.minDegree
        · rw [dimension_of_lt hlow] at hv
          obtain rfl := (Submodule.eq_bot_iff _).mp space_zero _ hv
          simp only [map_zero, combine_apply, smul_zero, Finset.sum_const_zero]
        · exact hX.mul_act ha hb (by omega) hv
    refine isFiniteModule_of_agrees hlawful h.stores (fun _ => rfl) (fun d hd => ?_) fun a d ha hd i hi => ?_
    · change K.dimension d = 0
      rw [h.dimension_eq, if_neg (by omega)]
    · have hi' : i < M.dimension d := by
        have ha₀ := ha.nonneg
        rwa [hsame (by omega)] at hi
      rw [h.stored_of_le ha hd hi]
      exact (rep_act_single p M a hi').symm

end FiniteModule

namespace SumTable

variable {Ms : List FiniteModule} {T : SumTable} {low t : ℤ}

/-- Extending a table of finite modules is answered. -/
theorem exists_extend (Ms : List FiniteModule) (A : Algebra) (T : SumTable) (t : ℤ) : ∃ T', T.extend (Ms.map (·.toGraded A)) t = .ok T' := by
  refine ⟨_, Result.bind_eq_ok.mpr ⟨_, Result.mapM_eq_ok fun d _ => row_eq_ok (D := widths Ms d) fun j N hN => ?_, rfl⟩⟩
  rw [List.getElem?_map] at hN
  obtain ⟨M, hM, rfl⟩ := Option.map_eq_some_iff.mp hN
  rw [widths_eq hM]
  exact FiniteModule.summandDimension_toGraded M A d

/-- Extending a table of finite modules adds rows of the same kind. -/
theorem Records.extend_finite {A : Algebra} {T' : SumTable} (hT : Records low Ms.length (widths Ms) T)
    (h : T.extend (Ms.map (·.toGraded A)) t = .ok T') :
    Records low Ms.length (widths Ms) T' ∧ T'.offsets.nextDegree = max T.offsets.nextDegree (t + 1) := by
  refine hT.extend (List.length_map _) (fun j N hN d _ _ => ?_) h
  rw [List.getElem?_map] at hN
  obtain ⟨M, hM, rfl⟩ := Option.map_eq_some_iff.mp hN
  rw [widths_eq hM]
  exact FiniteModule.summandDimension_toGraded M A d

end SumTable

namespace DirectSum

open FiniteModule SumTable

variable {p : Prime} {Ms : List FiniteModule} {M N : FiniteModule} {A : Algebra} {T : SumTable} {a : Operation} {low top d : ℤ} {i j : ℕ}

/-- `M` is the sum of the modules of a list, cut off below a degree: every view of that shows it, as far as the table reaches. -/
def IsSum (p : Prime) (low : ℤ) (Ms : List FiniteModule) (M : FiniteModule) : Prop :=
  ∀ ⦃A : Algebra⦄ ⦃T : SumTable⦄, A.prime = p → Records low Ms.length (widths Ms) T →
    (toGraded p (Ms.map (·.toGraded A)) T).Mirrors M A (T.offsets.nextDegree - 1)

/-- The summands as representations, cut off below a degree. -/
def parts (p : Prime) (low : ℤ) (Ms : List FiniteModule) (j : ℕ) : Representation p :=
  ((Ms[j]?.map (·.rep p)).getD (Representation.zero p)).above low

theorem parts_eq (hN : Ms[j]? = some N) : parts p low Ms j = (N.rep p).above low := by
  rw [parts, hN, Option.map_some, Option.getD_some]

theorem dim_parts (hd : low ≤ d) (j : ℕ) : (parts p low Ms j).dim d = widths Ms d j := by
  rw [parts, Representation.dim_above_of_le hd, widths]
  cases Ms[j]? <;> rfl

theorem dim_parts_of_lt (hd : d < low) (j : ℕ) : (parts p low Ms j).dim d = 0 := Representation.dim_above_of_lt hd

/-- A table records the dimensions of what is cut off below its least degree as well. -/
theorem records_parts (hT : Records low Ms.length (widths Ms) T) : Records low Ms.length (fun d j => (parts p low Ms j).dim d) T :=
  hT.congr fun _ hd => funext fun j => (dim_parts hd j).symm

theorem actsAs_parts (hMs : ∀ N ∈ Ms, N.Stores A.prime) (top : ℤ) (hj : j < Ms.length) :
    ∃ N, (Ms.map (·.toGraded A))[j]? = some N ∧ GradedModule.ActsAs N (parts A.prime low Ms j) A top := by
  have hN := List.getElem?_eq_getElem hj
  refine ⟨_, by rw [List.getElem?_map, hN]; rfl, ?_⟩
  rw [parts_eq hN]
  exact (FiniteModule.actsAs ((hMs _ (List.getElem_mem hj)).storedBelow _) top).above low

/-- What a sum is as a finite module: the names of its summands, and the sum of their actions. -/
structure Gathers (p : Prime) (low : ℤ) (Ms : List FiniteModule) (M : FiniteModule) : Prop where
  name_eq : M.name = if Ms.isEmpty then "0" else " + ".intercalate (Ms.map (·.name))
  minDegree_eq : M.minDegree = low
  dimension_eq : ∀ d, M.dimension d = (Representation.directSum Ms.length (parts p low Ms)).dim d
  nameOf_eq : ∀ {d : ℤ} {j i : ℕ} {N : FiniteModule}, Ms[j]? = some N → low ≤ d → i < N.dimension d →
    M.nameOf d (blockStart (widths Ms d) j + i) = N.nameOf d i
  stores : M.Stores p
  stored_eq : ∀ {a : Operation} {d : ℤ} {i : ℕ}, a.IsBasis p → i < M.dimension d →
    M.stored p a d i = (Representation.directSum Ms.length (parts p low Ms)).act a d (Pi.single i 1)

theorem Gathers.le_of_lt_dimension (h : Gathers p low Ms M) (hi : i < M.dimension d) : low ≤ d := by
  have := (degrees_of_lt_dimension hi).1
  rwa [h.minDegree_eq] at this

theorem dim_directSum_parts (hd : low ≤ d) : (Representation.directSum Ms.length (parts p low Ms)).dim d = blockStart (widths Ms d) Ms.length :=
  congrArg (blockStart · Ms.length) (funext fun j => dim_parts hd j)

theorem dim_directSum_parts_of_lt (hd : d < low) : (Representation.directSum Ms.length (parts p low Ms)).dim d = 0 := by
  change blockStart (fun j => (parts p low Ms j).dim d) Ms.length = 0
  exact Finset.sum_eq_zero fun j _ => dim_parts_of_lt hd j

theorem dim_directSum_parts_of_top (hzero : ∀ N ∈ Ms, ∀ d, top < d → N.dimension d = 0) (hd : top < d) :
    (Representation.directSum Ms.length (parts p low Ms)).dim d = 0 := by
  by_cases hlow : low ≤ d
  · refine (dim_directSum_parts hlow).trans (Finset.sum_eq_zero fun j hj => ?_)
    have hj := Finset.mem_range.mp hj
    rw [widths_eq (List.getElem?_eq_getElem hj), hzero _ (List.getElem_mem hj) d hd]
  · exact dim_directSum_parts_of_lt (not_le.mp hlow)

theorem lawful_directSum_parts (hp : p.val < 1073741824) (hMs : ∀ N ∈ Ms, N.Closed p) (htracked : top - low < trackedBelow) :
    (Representation.directSum Ms.length (parts p low Ms)).LawfulThrough top :=
  Representation.lawful_directSum fun j hj => by
    rw [parts_eq (List.getElem?_eq_getElem hj)]
    exact ((hMs _ (List.getElem_mem hj)).isFiniteModule hp).lawful_above htracked

/-- The name of a basis element is the one it has in its summand. -/
theorem nameOf_block (hT : Records low Ms.length (widths Ms) T) (hN : Ms[j]? = some N) (hlow : low ≤ d) (hd : d < T.offsets.nextDegree)
    (hi : i < widths Ms d j) : nameOf (Ms.map (·.toGraded A)) T d (blockStart (widths Ms d) j + i) = N.nameOf d i := by
  rw [nameOf, hT.locate_eq hlow hd (List.getElem?_eq_some_iff.mp hN).1 hi, Result.ok_bind]
  simp only
  rw [List.getElem?_map, hN]
  rfl

/-- Every view of a sum shows it. -/
theorem Gathers.mirrors (h : Gathers A.prime low Ms M) (hMs : ∀ N ∈ Ms, N.Stores A.prime) (hT : Records low Ms.length (widths Ms) T) :
    (toGraded A.prime (Ms.map (·.toGraded A)) T).Mirrors M A (T.offsets.nextDegree - 1) where
  name_eq := by
    rw [h.name_eq]
    change sumName (Ms.map (·.toGraded A)) = _
    rw [sumName, List.isEmpty_map, List.map_map]
    rfl
  prime_eq := rfl
  minDegree_eq := hT.minDegree_eq.trans h.minDegree_eq.symm
  dimension_eq d hd := by
    rw [h.dimension_eq]
    exact congrArg Except.ok ((records_parts hT).dimension_eq (fun _ hd j _ => dim_parts_of_lt hd j) (by omega))
  nameOf_eq d hd i hi := by
    have hlow := h.le_of_lt_dimension hi
    rw [h.dimension_eq, dim_directSum_parts hlow] at hi
    obtain ⟨j, hj, k, hk, rfl⟩ := exists_block hi
    have hN := List.getElem?_eq_getElem hj
    rw [h.nameOf_eq hN hlow (by rwa [widths_eq hN] at hk)]
    exact nameOf_block hT hN hlow (by omega) hk
  actOnBasis_eq c a d i ha hA ht hd hi := by
    obtain ⟨w, hw, hproper, hcoords⟩ := DirectSum.actOnBasis_eq (records_parts hT) (t := T.offsets.nextDegree - 1) (by omega)
      (fun _ hd j _ => dim_parts_of_lt hd j) (fun j hj => actsAs_parts hMs _ hj) ha hA hd (h.dimension_eq d ▸ hi) c
    obtain ⟨w', hw', hproper', hcoords'⟩ := FiniteModule.actOnBasis_eq (h.stores.storedBelow _) ha hA hi c
    rw [h.dimension_eq] at hproper'
    rw [rep_act_single _ _ _ hi, h.stored_eq ha hi, ← hcoords] at hcoords'
    exact hw.trans (hproper'.ext hproper hcoords' ▸ hw'.symm)

/-- The names of a degree are known. -/
theorem exists_names (hlabelled : ∀ N ∈ Ms, N.Labelled) (hT : Records low Ms.length (widths Ms) T) (hlow : low ≤ d)
    (hd : d < T.offsets.nextDegree) : ∃ l, (toGraded p (Ms.map (·.toGraded A)) T).names d = .ok l := by
  have hname : ∀ n < blockStart (widths Ms d) Ms.length, ∃ x, nameOf (Ms.map (·.toGraded A)) T d n = .ok x := by
    intro n hn
    obtain ⟨j, hj, k, hk, rfl⟩ := exists_block hn
    have hN := List.getElem?_eq_getElem hj
    rw [nameOf_block hT hN hlow hd hk]
    rw [widths_eq hN] at hk
    exact (hlabelled _ (List.getElem_mem hj)).mp hk
  choose! name hname using hname
  refine ⟨(List.range (blockStart (widths Ms d) Ms.length)).map name,
    Result.bind_eq_ok.mpr ⟨_, congrArg Except.ok (hT.dimension_of_le hlow hd), ?_⟩⟩
  exact Result.mapM_eq_ok fun n hn => hname n (List.mem_range.mp hn)

/-- What is cut off from a sum above the top degrees of the summands is the sum as a finite module. -/
theorem exists_gathers (hp : p.val < 1073741824) (hMs : ∀ N ∈ Ms, N.Closed p) (hlabelled : ∀ N ∈ Ms, N.Labelled)
    (hzero : ∀ N ∈ Ms, ∀ d, top < d → N.dimension d = 0) (htracked : top - low < trackedBelow) :
    ∃ M, M.maxDegree = max top (low - 1) ∧ M.Closed p ∧ M.Labelled ∧ Gathers p low Ms M := by
  obtain ⟨A, rfl, hA⟩ := Algebra.exists_computed p (top - low)
  obtain ⟨T, hextend⟩ := SumTable.exists_extend Ms A (SumTable.new low) top
  obtain ⟨hT, hnext⟩ := (SumTable.records_new low Ms.length (widths Ms)).extend_finite hextend
  have hnext : top < T.offsets.nextDegree := by omega
  let N := toGraded A.prime (Ms.map (·.toGraded A)) T
  let X := Representation.directSum Ms.length (parts A.prime low Ms)
  have hmin : N.minDegree = low := hT.minDegree_eq
  have hX : X.LawfulThrough top := lawful_directSum_parts hp hMs htracked
  have hempty : ∀ d, top < d → X.dim d = 0 := fun d hd => dim_directSum_parts_of_top hzero hd
  have hacts : ∀ (a : Operation) (d : ℤ) (i : ℕ), a.IsBasis A.prime → low ≤ d → d + a.degree ≤ top → i < X.dim d →
      ∃ w, N.actOnBasis A.prime 1 a d i = .ok w ∧ Proper A.prime (X.dim (d + a.degree)) w ∧
        w.coords A.prime = X.act a d (Pi.single i 1) := fun a d i ha hlow hd hi => by
    obtain ⟨w, hw, hproper, hcoords⟩ := DirectSum.actOnBasis_eq (records_parts hT) (t := top) hnext
      (fun _ hd j _ => dim_parts_of_lt hd j) (fun j hj => actsAs_parts (fun N hN => (hMs N hN).stores) _ hj) ha (by omega) hd hi 1
    exact ⟨w, hw, hproper, by rw [hcoords, Nat.cast_one, one_smul]⟩
  have hnames : ∀ d, N.minDegree ≤ d → d ≤ top → ∃ l, N.names d = .ok l := fun d hlow hd =>
    exists_names hlabelled hT (hmin ▸ hlow) (by omega)
  choose! names hnames using hnames
  obtain ⟨M, A', hrun, hM⟩ := exists_run_truncate (N := N) (D := X.dim) hp
    (by have htracked' : (trackedBelow : ℤ) ≤ maxSigned := by decide
        omega)
    (fun d _ hd => congrArg Except.ok ((records_parts hT).dimension_eq (fun _ hd j _ => dim_parts_of_lt hd j) (by omega))) hnames
    fun a d i ha _ hlow hd hi => by
      obtain ⟨w, hw, hproper, _⟩ := hacts a d i ha (hmin ▸ hlow) hd hi
      exact ⟨w, hw, hproper⟩
  have hdim : ∀ d, M.dimension d = X.dim d := fun d => by
    rw [hM.dimension_eq]
    split
    · rfl
    · next hnot =>
      by_cases hlow : low ≤ d
      · exact (hempty d (by omega)).symm
      · exact (dim_directSum_parts_of_lt (not_le.mp hlow)).symm
  have hagrees : ∀ a d, a.IsBasis A.prime → Agrees X M a d := fun a d ha => by
    refine hM.agrees hX hdim ha (fun i => ?_) fun i hi hroom => ?_
    · rw [Representation.directSum_act]
      exact Submodule.sum_mem _ fun j hj => Representation.inclusion_mem (Finset.mem_range.mp hj) _
    · obtain ⟨hlow, _, _⟩ := hM.of_lt_dimension hi
      obtain ⟨_, hhigh, _⟩ := hM.of_lt_dimension hroom
      obtain ⟨w, hw, _, hcoords⟩ := hacts a d i ha (hmin ▸ hlow) hhigh (hdim d ▸ hi)
      exact ⟨w, hw, hcoords⟩
  have hmodule : (M.rep A.prime).IsFiniteModule M.minDegree M.maxDegree :=
    isFiniteModule_of_agrees hX hM.stores hdim hempty fun a d ha _ => hagrees a d ha
  refine ⟨M, by rw [hM.maxDegree_eq, hmin], closed_of_isFiniteModule hp hM.stores hmodule, labelled_of_run_truncate hrun, ?_,
    hM.minDegree_eq.trans hmin, hdim, fun {d j i N} hN hlow hi => ?_, hM.stores, fun ha hi => hagrees _ _ ha _ hi⟩
  · rw [(entered_of_run_truncate hrun).1]
    change sumName (Ms.map (·.toGraded A)) = _
    rw [sumName, List.isEmpty_map, List.map_map]
    rfl
  · have htop : d ≤ top := by
      by_contra hlt
      rw [hzero N (List.mem_of_getElem? hN) d (not_le.mp hlt)] at hi
      exact absurd hi (Nat.not_lt_zero i)
    obtain ⟨x, hx⟩ := (hlabelled N (List.mem_of_getElem? hN)).mp hi
    rw [hx, DirectSum.nameOf_eq hT hnext hrun hN hi hlow htop, hx]

/-- Closed modules have a sum, cut off below a degree, that is a closed module. -/
theorem exists_isSum (hp : p.val < 1073741824) (hMs : ∀ N ∈ Ms, N.Closed p) (hlabelled : ∀ N ∈ Ms, N.Labelled)
    (hzero : ∀ N ∈ Ms, ∀ d, top < d → N.dimension d = 0) (htracked : top - low < trackedBelow) :
    ∃ M, M.minDegree = low ∧ M.maxDegree = max top (low - 1) ∧ M.Closed p ∧ M.Labelled ∧ IsSum p low Ms M := by
  obtain ⟨M, hmax, hclosed, hM, hgathers⟩ := exists_gathers hp hMs hlabelled hzero htracked
  refine ⟨M, hgathers.minDegree_eq, hmax, hclosed, hM, fun A T hA hT => ?_⟩
  subst hA
  exact hgathers.mirrors (fun N hN => (hMs N hN).stores) hT

end DirectSum
end Steenrod
