import Steenrod.Proofs.Map.View
import Steenrod.Map.Finite
/-!
Finite modules and their homomorphisms as representations and linear maps. Main statements: the view of a finite
module shows the representation that its stored actions give, which is a module if the program's own action is
associative, and a homomorphism that commutes with the program's action commutes with the representations.
-/
namespace Steenrod

open Vec

namespace FiniteModule

variable {p : Prime} {M : FiniteModule} {A B : Algebra} {n : ℤ}

theorem dimension_of_lt {d : ℤ} (h : d < M.minDegree) : M.dimension d = 0 := by
  have hlt : d < M.dims.minDegree := h
  simp [dimension, Graded.get?, hlt]

theorem degrees_of_lt_dimension {d : ℤ} {i : ℕ} (h : i < M.dimension d) : M.minDegree ≤ d ∧ d ≤ M.maxDegree := by
  have hsome : (M.dims.get? d).isSome := by
    cases hget : M.dims.get? d with
    | none =>
      rw [dimension, hget] at h
      simp at h
    | some _ => rfl
  obtain ⟨hlow, hhigh⟩ := (M.dims.get?_isSome_iff d).mp hsome
  exact ⟨hlow, by unfold maxDegree Graded.maxDegree; omega⟩

theorem dimension_of_nextDegree_le {d : ℤ} (h : M.dims.nextDegree ≤ d) : M.dimension d = 0 := by
  by_contra hne
  have hmax := (degrees_of_lt_dimension (Nat.pos_of_ne_zero hne)).2
  rw [maxDegree, Graded.maxDegree] at hmax
  omega

theorem dimension_of_maxDegree_lt {d : ℤ} (h : M.maxDegree < d) : M.dimension d = 0 :=
  dimension_of_nextDegree_le (by rw [maxDegree, Graded.maxDegree] at h; omega)

/-- The stored action of an operation on a basis element; it is not stored for operations of degree 0. -/
def stored (p : Prime) (M : FiniteModule) (a : Operation) (d : ℤ) (i : ℕ) : ℕ → p.Field :=
  if M.dimension (d + a.degree) = 0 then 0
  else if a.degree = 0 then Pi.single i 1
  else ((M.action? a d i).getD (Vec.zero 0)).coords p

/-- The representation that the stored actions give. -/
def rep (p : Prime) (M : FiniteModule) : Representation p where
  dim := M.dimension
  act a d := combine (M.dimension d) (M.stored p a d)

/-- The table of actions has all its entries for operations of degree less than `n`. -/
def StoredBelow (p : Prime) (n : ℤ) (M : FiniteModule) : Prop :=
  ∀ (a : Operation) (d : ℤ) (i : ℕ), a.IsBasis p → 0 < a.degree → a.degree < n → i < M.dimension d →
    0 < M.dimension (d + a.degree) → ∃ v, M.action? a d i = some v ∧ v.size = M.dimension (d + a.degree)

theorem rep_act_single (p : Prime) (M : FiniteModule) (a : Operation) {d : ℤ} {i : ℕ} (hi : i < M.dimension d) :
    (M.rep p).act a d (Pi.single i 1) = M.stored p a d i := by
  change combine _ _ _ = _
  rw [combine_single hi, one_smul]

/-- Nothing is left where there is no place for it. -/
theorem rep_act_eq_zero {a : Operation} {d : ℤ} (h : M.dimension (d + a.degree) = 0) : (M.rep p).act a d = 0 := by
  refine LinearMap.ext fun v => ?_
  change combine (M.dimension d) (M.stored p a d) v = 0
  rw [combine_apply]
  exact Finset.sum_eq_zero fun i _ => by rw [stored, if_pos h, smul_zero]

/-- Operations of degree zero act as the identity. -/
theorem rep_act_of_degree_eq_zero {a : Operation} (ha : a.degree = 0) {d : ℤ} {v : ℕ → p.Field} (hv : v ∈ p.space (M.dimension d)) :
    (M.rep p).act a d v = v := by
  refine (combine_congr (fun i hi => ?_) fun _ _ => rfl).trans (combine_units hv)
  rw [stored, if_neg (by rw [ha, add_zero]; omega), if_pos ha]

/-- The unit acts as the identity. -/
theorem rep_one_act {d : ℤ} {v : ℕ → p.Field} (hv : v ∈ p.space (M.dimension d)) : (M.rep p).act ⟨0, 0⟩ d v = v :=
  rep_act_of_degree_eq_zero rfl hv

/-- The action on a basis element is what is stored. -/
theorem actOnBasis_eq (h : M.StoredBelow A.prime A.computed) {a : Operation} (ha : a.IsBasis A.prime)
    (hlt : a.degree < A.computed) {d : ℤ} {i : ℕ} (hi : i < M.dimension d) (c : ℕ) :
    ∃ w, M.actOnBasis A A.prime c a d i = .ok w ∧ Proper A.prime (M.dimension (d + a.degree)) w ∧
      w.coords A.prime = (c : A.prime.Field) • (M.rep A.prime).act a d (Pi.single i 1) := by
  rw [rep_act_single _ _ _ hi, actOnBasis, Algebra.dimension_of_lt hlt, Result.ok_bind, decide_eq_true ha.index_lt,
    require_true, Result.ok_bind, decide_eq_true hi, require_true, Result.ok_bind, stored]
  simp only
  by_cases hm : M.dimension (d + a.degree) = 0
  · rw [if_pos hm, if_pos hm, hm]
    exact ⟨_, rfl, Proper.zero, by rw [coords_zero, smul_zero]⟩
  · rw [if_neg hm, if_neg hm]
    by_cases hdeg : a.degree = 0
    · rw [if_pos hdeg, if_pos hdeg]
      have hi' : i < M.dimension (d + a.degree) := by rwa [hdeg, add_zero]
      refine ⟨_, rfl, Proper.zero.addAt i c, ?_⟩
      rw [coords_addAt (by rwa [size_zero]), coords_zero, zero_add, ← Pi.single_smul', smul_eq_mul, mul_one]
    · rw [if_neg hdeg, if_neg hdeg]
      have hpos : 0 < a.degree := lt_of_le_of_ne ha.nonneg (Ne.symm hdeg)
      obtain ⟨v, hv, hsize⟩ := h a d i ha hpos hlt hi (Nat.pos_of_ne_zero hm)
      refine ⟨_, by rw [hv]; rfl, Proper.zero.add c v, ?_⟩
      rw [coords_add (reduced_zero _ _) c (by rw [size_zero, hsize]), coords_zero, zero_add, hv, Option.getD_some]

/-- The view of a finite module shows the representation. -/
theorem shows (h : M.StoredBelow A.prime A.computed) (top : ℤ) : (M.toGraded A).Shows (M.rep A.prime) A top where
  prime_eq := rfl
  dimension_eq _ _ := rfl
  act_eq c a d v ha hlt _ hv := by
    change ∃ w, GradedModule.actLinearly A.prime (fun e => .ok (M.dimension e)) (M.actOnBasis A) A.prime c a d v =
      .ok w ∧ _
    refine GradedModule.actLinearly_eq ?_ ?_ (fun _ hi e => actOnBasis_eq h ha hlt hi e) hv c
    · rfl
    · rfl

/-- A finite module over the algebra as far as that is known: its table of actions is complete, and acting twice is
acting by the product. -/
structure IsModule (A : Algebra) (M : FiniteModule) : Prop where
  stored : M.StoredBelow A.prime A.computed
  assoc : ∀ (a b : Operation) (d : ℤ) (x : Vec), a.IsBasis A.prime → b.IsBasis A.prime →
    a.degree + b.degree < A.computed → Proper A.prime (M.dimension d) x →
    ∃ n y z w, (M.toGraded A).act A.prime 1 b d x = .ok y ∧ (M.toGraded A).act A.prime 1 a (d + b.degree) y = .ok w ∧
      A.dimension (a.degree + b.degree) = .ok n ∧ A.multiply 1 a b = .ok z ∧
      (M.toGraded A).actByElement n 1 (a.degree + b.degree) z d x = .ok w

theorem stored_mem (h : M.StoredBelow p n) {a : Operation} (ha : a.IsBasis p) (hlt : a.degree < n) {d : ℤ} {i : ℕ}
    (hi : i < M.dimension d) : M.stored p a d i ∈ p.space (M.dimension (d + a.degree)) := by
  unfold stored
  split
  · exact Submodule.zero_mem _
  · next hm =>
    split
    · next hdeg =>
      intro j hj
      rw [hdeg, add_zero] at hj
      exact Pi.single_eq_of_ne (by omega) _
    · next hdeg =>
      obtain ⟨v, hv, hsize⟩ := h a d i ha (lt_of_le_of_ne ha.nonneg (Ne.symm hdeg)) hlt hi (Nat.pos_of_ne_zero hm)
      rw [hv, Option.getD_some, ← hsize]
      exact fun j hj => coords_of_size_le hj

/-- Acting by an element of the algebra combines the actions of basis elements. -/
theorem actByElement_eq (h : M.StoredBelow A.prime A.computed) {e d : ℤ} {z x : Vec}
    (hz : Proper A.prime (Milnor.dim A.prime e) z) (he : e < A.computed) (hx : Proper A.prime (M.dimension d) x)
    (c : ℕ) :
    ∃ w, (M.toGraded A).actByElement (Milnor.dim A.prime e) c e z d x = .ok w ∧
      Proper A.prime (M.dimension (d + e)) w ∧ w.coords A.prime = (c : A.prime.Field) •
        combine (Milnor.dim A.prime e) (fun l => (M.rep A.prime).act ⟨e, l⟩ d (x.coords A.prime)) (z.coords A.prime) :=
  (shows h (d + e)).actByElement_eq hz he (le_refl _) hx c

/-- Where acting twice is acting by the product in the representation, it is so in the answers. -/
theorem exists_act_twice (h : M.StoredBelow A.prime A.computed) {a b : Operation} {z : Vec} (hz : A.multiply 1 a b = .ok z)
    {d : ℤ} {x : Vec} (hx : Proper A.prime (M.dimension d) x)
    (hassoc : (M.rep A.prime).act a (d + b.degree) ((M.rep A.prime).act b d (x.coords A.prime)) =
      combine (Milnor.dim A.prime (a.degree + b.degree))
        (fun l => (M.rep A.prime).act ⟨a.degree + b.degree, l⟩ d (x.coords A.prime)) (Milnor.mul A.prime a b)) :
    ∃ n y z w, (M.toGraded A).act A.prime 1 b d x = .ok y ∧ (M.toGraded A).act A.prime 1 a (d + b.degree) y = .ok w ∧
      A.dimension (a.degree + b.degree) = .ok n ∧ A.multiply 1 a b = .ok z ∧
      (M.toGraded A).actByElement n 1 (a.degree + b.degree) z d x = .ok w := by
  obtain ⟨n, y, w, hn, hy, hw, hproduct⟩ := (shows h _).exists_act_twice hz le_rfl hx hassoc
  exact ⟨n, y, z, w, hy, hw, hn, hz, hproduct⟩

/-- A finite module gives a representation that satisfies the laws. -/
theorem IsModule.lawful (h : M.IsModule A) :
    (M.rep A.prime).LawfulThrough (A.computed - 1 + M.minDegree) := by
  have hzero : ∀ {d : ℤ} {v : ℕ → A.prime.Field}, d < M.minDegree → v ∈ A.prime.space (M.dimension d) → v = 0 := by
    intro d v hd hv
    rw [dimension_of_lt hd] at hv
    exact funext fun i => hv i (Nat.zero_le i)
  refine ⟨fun {a d v} ha hd hv => ?_, fun {d v} hd hv => ?_, fun {a b d v} ha hb hd hv => ?_⟩
  · by_cases hlow : d < M.minDegree
    · rw [hzero hlow hv, map_zero]
      exact Submodule.zero_mem _
    · exact combine_mem (fun i hi => stored_mem h.stored ha (by omega) hi) v
  · by_cases hlow : d < M.minDegree
    · rw [hzero hlow hv, map_zero]
    · exact rep_one_act hv
  · by_cases hlow : d < M.minDegree
    · rw [hzero hlow hv, map_zero, map_zero, combine_apply]
      simp
    · obtain ⟨x, hx, rfl⟩ := exists_proper hv
      have ha₀ := ha.nonneg
      have hb₀ := hb.nonneg
      obtain ⟨n, y, z, w, hy, hw, hn, hz, hw'⟩ := h.assoc a b d x ha hb (by omega) hx
      obtain rfl := (Algebra.dimension_eq_ok hn).1
      obtain ⟨_, _, _, hzp, hzc⟩ := Algebra.multiply_eq_ok hz
      obtain ⟨y', hy', hyp, hyc⟩ := (shows h.stored (d + b.degree)).act_eq 1 b d x hb (by omega) (le_refl _) hx
      obtain rfl := Except.ok.inj (hy.symm.trans hy')
      obtain ⟨w₁, hw₁, _, hwc⟩ := (shows h.stored _).act_eq 1 a (d + b.degree) y ha (by omega) (le_refl _) hyp
      obtain rfl := Except.ok.inj (hw.symm.trans hw₁)
      obtain ⟨w₂, hw₂, _, helement⟩ := actByElement_eq h.stored hzp (by omega) hx 1
      obtain rfl := Except.ok.inj (hw'.symm.trans hw₂)
      rw [Nat.cast_one, one_smul] at hyc hwc hzc helement
      rw [← hyc, ← hwc, helement, hzc]

/-- A finite module keeps the promise of those who make requests. -/
theorem shows_of_isModule {M : FiniteModule} {A C : Algebra} {t : ℤ} (hM : M.IsModule C) (hp : A.prime = C.prime)
    (hle : A.computed ≤ C.computed) (ht : t - M.minDegree < A.computed) :
    (M.toGraded A).Shows (M.rep C.prime) A t ∧ (M.rep C.prime).LawfulThrough t := by
  have hstored : M.StoredBelow A.prime A.computed := fun a d i ha hpos hlt hi hdim =>
    hM.stored a d i (hp ▸ ha) hpos (by omega) hi hdim
  exact ⟨hp ▸ FiniteModule.shows hstored t, hM.lawful.mono (by omega)⟩

end FiniteModule

namespace FiniteMap

variable {A : Algebra} {f : FiniteMap} {p : Prime}

/-- The image of a basis element. -/
def rowAt (p : Prime) (f : FiniteMap) (d : ℤ) (i : ℕ) : ℕ → p.Field :=
  match f.matrices.get? (d - f.shift) with
  | none => 0
  | some N => if N.columns = 0 then 0 else ((N.row? i).getD (Vec.zero 0)).coords p

/-- The homomorphism in degree `d` of the source. -/
def linear (p : Prime) (f : FiniteMap) (d : ℤ) : (ℕ → p.Field) →ₗ[p.Field] (ℕ → p.Field) :=
  combine (f.source.dimension d) (f.rowAt p d)

/-- The matrices have a row of the right size for each basis element of the source. -/
def HasRows (f : FiniteMap) : Prop :=
  ∀ (d : ℤ) (N : Matrix), f.matrices.get? (d - f.shift) = some N → N.columns ≠ 0 → ∀ i < f.source.dimension d,
    ∃ r, N.row? i = some r ∧ r.size = f.target.dimension (d - f.shift)

theorem applyToBasis_eq (h : f.HasRows) {d : ℤ} {i : ℕ} (hi : i < f.source.dimension d) (c : ℕ) :
    ∃ w, f.applyToBasis p c d i = .ok w ∧ Proper p (f.target.dimension (d - f.shift)) w ∧
      w.coords p = (c : p.Field) • f.linear p d (Pi.single i 1) := by
  rw [linear, combine_single hi, one_smul, applyToBasis, rowAt]
  cases hN : f.matrices.get? (d - f.shift) with
  | none => exact ⟨_, rfl, Proper.zero, by rw [coords_zero, smul_zero]⟩
  | some N =>
    simp only
    by_cases hcol : N.columns = 0
    · rw [if_pos hcol, if_pos hcol]
      exact ⟨_, rfl, Proper.zero, by rw [coords_zero, smul_zero]⟩
    · rw [if_neg hcol, if_neg hcol]
      obtain ⟨r, hr, hsize⟩ := h d N hN hcol i hi
      refine ⟨_, by rw [hr]; rfl, Proper.zero.add c r, ?_⟩
      rw [coords_add (reduced_zero _ _) c (by rw [size_zero, hsize]), coords_zero, zero_add, hr, Option.getD_some]

/-- What is computed for an element is its image. -/
theorem apply_eq (h : f.HasRows) (A B : Algebra) {d : ℤ} {v : Vec} (hv : Proper A.prime (f.source.dimension d) v)
    (c : ℕ) : ∃ w, (f.toMap (f.source.toGraded A) (f.target.toGraded B)).apply c d v = .ok w ∧
      Proper A.prime (f.target.dimension (d - f.shift)) w ∧
      w.coords A.prime = (c : A.prime.Field) • f.linear A.prime d (v.coords A.prime) :=
  ModuleMap.apply_eq rfl rfl (fun _ hi _ e => applyToBasis_eq h hi e) hv c

theorem apply_of_prime_eq (h : f.HasRows) (hp : A.prime = p) (B : Algebra) {d : ℤ} {v : Vec}
    (hv : Proper p (f.source.dimension d) v) (c : ℕ) :
    ∃ w, (f.toMap (f.source.toGraded A) (f.target.toGraded B)).apply c d v = .ok w ∧
      Proper p (f.target.dimension (d - f.shift)) w ∧ w.coords p = (c : p.Field) • f.linear p d (v.coords p) := by
  subst hp
  exact apply_eq h A B hv c

theorem linear_mem (h : f.HasRows) (p : Prime) (d : ℤ) (v : ℕ → p.Field) :
    f.linear p d v ∈ p.space (f.target.dimension (d - f.shift)) := by
  refine combine_mem (fun i hi => ?_) v
  obtain ⟨w, _, hp, hc⟩ := applyToBasis_eq (p := p) h hi 1
  rw [linear, combine_single hi, one_smul, Nat.cast_one, one_smul] at hc
  exact hc ▸ hp.coords_mem

/-- A homomorphism over the algebra as far as that is known: it answers, and acting before it is acting after it. -/
structure IsLinear (A : Algebra) (f : FiniteMap) : Prop where
  rows : f.HasRows
  map_act : ∀ (a : Operation) (d : ℤ) (x : Vec), a.IsBasis A.prime → a.degree < A.computed →
    Proper A.prime (f.source.dimension d) x → ∃ u y w,
      (f.source.toGraded A).act A.prime 1 a d x = .ok u ∧
      (f.toMap (f.source.toGraded A) (f.target.toGraded A)).apply 1 (d + a.degree) u = .ok w ∧
      (f.toMap (f.source.toGraded A) (f.target.toGraded A)).apply 1 d x = .ok y ∧
      (f.target.toGraded A).act A.prime 1 a (d - f.shift) y = .ok w

/-- A homomorphism of finite modules commutes with the representations. -/
theorem IsLinear.commutes (h : f.IsLinear A) (hS : f.source.IsModule A) (hT : f.target.IsModule A) {top : ℤ}
    (htop : top + f.shift - f.source.minDegree < A.computed) :
    Representation.Commutes (f.source.rep A.prime) (f.target.rep A.prime) f.shift top (f.linear A.prime) := by
  refine ⟨fun {a d v} ha hd hv => ?_⟩
  by_cases hlow : d < f.source.minDegree
  · have hzero : v = 0 := by
      rw [show (f.source.rep A.prime).dim d = 0 from FiniteModule.dimension_of_lt hlow] at hv
      exact funext fun i => hv i (Nat.zero_le i)
    rw [hzero, map_zero, map_zero, map_zero, map_zero]
  · obtain ⟨x, hx, rfl⟩ := exists_proper hv
    have hlt : a.degree < A.computed := by omega
    obtain ⟨u, y, w, hu, hw, hy, hw'⟩ := h.map_act a d x ha hlt hx
    obtain ⟨u', hu', hup, huc⟩ := (FiniteModule.shows hS.stored _).act_eq 1 a d x ha hlt (le_refl _) hx
    obtain rfl := Except.ok.inj (hu.symm.trans hu')
    obtain ⟨y', hy', hyp, hyc⟩ := apply_eq h.rows A A hx 1
    obtain rfl := Except.ok.inj (hy.symm.trans hy')
    obtain ⟨w₁, hw₁, _, hwc⟩ := apply_eq h.rows A A hup 1
    obtain rfl := Except.ok.inj (hw.symm.trans hw₁)
    obtain ⟨w₂, hw₂, _, hwc'⟩ := (FiniteModule.shows hT.stored _).act_eq 1 a (d - f.shift) y ha hlt (le_refl _) hyp
    obtain rfl := Except.ok.inj (hw'.symm.trans hw₂)
    rw [Nat.cast_one, one_smul] at huc hyc hwc hwc'
    rw [← huc, ← hwc, hwc', hyc]

section Identity

variable {M : FiniteModule}

theorem exists_row_identity {d : ℤ} {i : ℕ} (hi : i < M.dimension d) :
    (identity M).matrices.get? d = some (Matrix.identity (M.dimension d)) ∧
      (Matrix.identity (M.dimension d)).row? i = some (Vec.unit (M.dimension d) i) := by
  obtain ⟨n, hn⟩ : ∃ n, M.dims.get? d = some n := by
    by_contra hnone
    rw [FiniteModule.dimension, Option.eq_none_iff_forall_ne_some.mpr fun n hn => hnone ⟨n, hn⟩] at hi
    exact absurd hi (Nat.not_lt_zero i)
  have hdim : M.dimension d = n := by rw [FiniteModule.dimension, hn, Option.getD_some]
  refine ⟨?_, ?_⟩
  · rw [hdim, identity, Graded.get?_map, hn, Option.map_some]
  · rw [Matrix.row?, Matrix.identity, List.getElem?_map, List.getElem?_range hi, Option.map_some]

theorem hasRows_identity (M : FiniteModule) : (identity M).HasRows := by
  intro d N hN _ i hi
  simp only [identity, sub_zero] at hN hi ⊢
  obtain ⟨hget, hrow⟩ := exists_row_identity hi
  obtain rfl := Option.some.inj (hN.symm.trans hget)
  exact ⟨_, hrow, size_unit _ _⟩

/-- The identity sends every element to itself. -/
theorem linear_identity {d : ℤ} {v : ℕ → p.Field} (hv : v ∈ p.space (M.dimension d)) :
    (identity M).linear p d v = v := by
  refine (combine_congr (fun i hi => ?_) fun _ _ => rfl).trans (combine_units hv)
  have hi : i < M.dimension d := hi
  obtain ⟨hget, hrow⟩ := exists_row_identity hi
  have hcol : (Matrix.identity (M.dimension d)).columns ≠ 0 := Nat.ne_of_gt (Nat.zero_lt_of_lt hi)
  rw [rowAt, show d - (identity M).shift = d from sub_zero d, hget]
  simp only
  rw [if_neg hcol, hrow, Option.getD_some, coords_unit hi]

theorem apply_identity (A B : Algebra) {d : ℤ} {v : Vec} (hv : Proper A.prime (M.dimension d) v) :
    ((identity M).toMap (M.toGraded A) (M.toGraded B)).apply 1 d v = .ok v := by
  obtain ⟨w, hw, hwp, hwc⟩ := apply_eq (hasRows_identity M) A B hv 1
  have hwp : Proper A.prime (M.dimension d) w := by
    rw [show d - (identity M).shift = d from sub_zero d] at hwp
    exact hwp
  rw [Nat.cast_one, one_smul, linear_identity hv.coords_mem] at hwc
  exact hwp.ext hv hwc ▸ hw

theorem isLinear_identity (h : M.StoredBelow A.prime A.computed) : (identity M).IsLinear A where
  rows := hasRows_identity M
  map_act a d x ha hlt hx := by
    obtain ⟨u, hu, hup, _⟩ := (FiniteModule.shows h _).act_eq 1 a d x ha hlt (le_refl _) hx
    refine ⟨u, x, u, hu, apply_identity A A hup, apply_identity A A hx, ?_⟩
    rw [show d - (identity M).shift = d from sub_zero d]
    exact hu

end Identity

end FiniteMap
end Steenrod
