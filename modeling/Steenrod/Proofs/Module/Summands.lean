import Steenrod.Proofs.Module.Wholes
/-!
Direct sums of modules of which any may be zero in any degrees, cut off below a least degree. Main statement: as far as its table
reaches, a direct sum numbers the basis elements of the summands block by block and finds them again, and an operation acts on every
part of an element as on the summand; so its action is associative and has a unit, and what lies in one summand stays there.
-/
namespace Steenrod

open Vec

/-- The view `N` over the algebra `A` is that of a module in degrees up to `top`: it has the dimensions of `X` and acts on basis elements
as `X` does, where the laws of a module hold. -/
structure GradedModule.Presents {A : Algebra} (N : GradedModule) (X : Representation A.prime) (top : ℤ) : Prop where
  dims : N.HasDimensions X.dim top
  acts : N.ActsAs X A top
  lawful : X.LawfulThrough top

/-- The view of a genuine module presents it. -/
theorem FiniteModule.Genuine.presents {A : Algebra} {M : FiniteModule} {top : ℤ} (hM : M.Genuine A.prime)
    (htracked : top - M.minDegree < Milnor.trackedBelow) : (M.toGraded A).Presents ((M.rep A.prime).above M.minDegree) top where
  dims := ⟨fun _ hlow _ => congrArg Except.ok (if_neg (not_lt.mpr hlow)).symm, fun _ hd => Representation.dim_above_of_lt hd⟩
  acts := (FiniteModule.actsAs (hM.stores.storedBelow _) top).above _
  lawful := hM.lawful.lawful_above htracked

namespace SumTable

variable {D : ℕ → ℤ → ℕ} {T : SumTable} {views : List GradedModule} {m t d : ℤ} {n j : ℕ}

/-- The tables from degree `m` on of `n` summands with the dimensions `D`: they are extended any number of times, by views that reach as
far as that. -/
inductive Extended (m : ℤ) (n : ℕ) (D : ℕ → ℤ → ℕ) : SumTable → Prop
  | new : Extended m n D (SumTable.new m)
  | extend {T T' : SumTable} {views : List GradedModule} {t : ℤ} (hT : Extended m n D T) (hlen : views.length = n)
    (hviews : ∀ (j : ℕ) (N : GradedModule), views[j]? = some N → N.HasDimensions (D j) t) (h : T.extend views t = .ok T') : Extended m n D T'

theorem summandDimension_eq {N : GradedModule} {D : ℤ → ℕ} (h : N.HasDimensions D t) (hd : d ≤ t) : summandDimension N d = .ok (D d) := by
  unfold summandDimension
  split
  · next hlt => rw [h.eq_zero d hlt]
  · next hle => exact h.dimension_eq d (not_lt.mp hle) hd

theorem Extended.records (h : Extended m n D T) : Records m n (fun d j => D j d) T := by
  induction h with
  | new => exact records_new m n _
  | extend _ hlen hviews h ih => exact (ih.extend hlen (fun j N hN d _ hd => summandDimension_eq (hviews j N hN) hd) h).1

/-- A table can be extended as far as the summands are known. -/
theorem Extended.exists_extend (hT : Extended m n D T) (hlen : views.length = n)
    (hviews : ∀ (j : ℕ) (N : GradedModule), views[j]? = some N → N.HasDimensions (D j) t) :
    ∃ T', T.extend views t = .ok T' ∧ Extended m n D T' ∧ T'.offsets.nextDegree = max T.offsets.nextDegree (t + 1) := by
  have hrows : (GradedModule.degreesBetween T.offsets.nextDegree t).mapM (row views) =
      .ok ((GradedModule.degreesBetween T.offsets.nextDegree t).map fun d => starts (fun j => D j d) views.length) :=
    Result.mapM_eq_ok fun d hd => row_eq_ok fun j N hN =>
      summandDimension_eq (hviews j N hN) (GradedModule.mem_degreesBetween.mp hd).2
  have hextend : T.extend views t = .ok _ := Result.bind_eq_ok.mpr ⟨_, hrows, rfl⟩
  exact ⟨_, hextend, hT.extend hlen hviews hextend,
    (hT.records.extend hlen (fun j N hN d _ hd => summandDimension_eq (hviews j N hN) hd) hextend).2⟩

/-- Where the block of a summand starts. -/
def start (T : SumTable) (d : ℤ) (j : ℕ) : ℕ := (T.offset d j).toOption.getD 0

/-- The part of an element in a summand: the coordinates between the start of its block and that of the next one. -/
def part (p : Prime) (T : SumTable) (d : ℤ) (j : ℕ) : (ℕ → p.Field) →ₗ[p.Field] (ℕ → p.Field) :=
  takeBlock p (T.start d j) (T.start d (j + 1) - T.start d j)

theorem Records.start_eq {D : ℤ → ℕ → ℕ} (hT : Records m n D T) (hm : m ≤ d) (hd : d < T.offsets.nextDegree) (hj : j ≤ n) :
    T.start d j = blockStart (D d) j := by
  rw [start, hT.offset_eq hm hd hj]
  rfl

end SumTable

namespace DirectSum

open SumTable

variable {A : Algebra} {X : ℕ → Representation A.prime} {summands : List GradedModule} {T : SumTable} {m t d : ℤ} {j : ℕ}

/-- In degrees from `m` to `t` the table `T` and the view of the sum are those of the direct sum of the modules `X`. -/
structure IsDirectSum (A : Algebra) (X : ℕ → Representation A.prime) (summands : List GradedModule) (T : SumTable) (m t : ℤ) : Prop where
  /-- Nothing is left below the least degree. -/
  dimension_of_lt : ∀ d < m, (toGraded A.prime summands T).dimension d = .ok 0
  dimension_eq : ∀ d, m ≤ d → d ≤ t →
    (toGraded A.prime summands T).dimension d = .ok (∑ j ∈ Finset.range summands.length, (X j).dim d)
  offset_eq : ∀ d, m ≤ d → d ≤ t → ∀ j ≤ summands.length, T.offset d j = .ok (T.start d j)
  /-- The place of a basis element of a summand, which is found again and has the name from the summand. -/
  locate_eq : ∀ d, m ≤ d → d ≤ t → ∀ j < summands.length, ∀ i < (X j).dim d,
    T.start d j + i < T.dimension d ∧ T.locate d (T.start d j + i) = .ok (j, i)
  nameOf_eq : ∀ d, m ≤ d → d ≤ t → ∀ j N, summands[j]? = some N → ∀ i < (X j).dim d,
    (toGraded A.prime summands T).nameOf d (T.start d j + i) = N.nameOf d i
  /-- Every place is that of a basis element of a summand. -/
  exists_place : ∀ d, m ≤ d → d ≤ t → ∀ k < T.dimension d, ∃ j < summands.length, ∃ i < (X j).dim d, k = T.start d j + i
  /-- The elements of a degree are the families of elements of the summands. -/
  exists_element : ∀ d, m ≤ d → d ≤ t → ∀ f : ℕ → ℕ → A.prime.Field, (∀ j < summands.length, f j ∈ A.prime.space ((X j).dim d)) →
    ∃ v, Proper A.prime (T.dimension d) v ∧ ∀ j < summands.length, T.part A.prime d j (v.coords A.prime) = f j
  eq_of_parts : ∀ d, m ≤ d → d ≤ t → ∀ v w : Vec, Proper A.prime (T.dimension d) v → Proper A.prime (T.dimension d) w →
    (∀ j < summands.length, T.part A.prime d j (v.coords A.prime) = T.part A.prime d j (w.coords A.prime)) → v = w
  actOnBasis_eq : ∀ (c : ℕ) (a : Operation) (d : ℤ), a.IsBasis A.prime → a.degree < A.computed → m ≤ d → d + a.degree ≤ t →
    ∀ j < summands.length, ∀ i < (X j).dim d, ∃ w, (toGraded A.prime summands T).actOnBasis A.prime c a d (T.start d j + i) = .ok w ∧
      Proper A.prime (T.dimension (d + a.degree)) w ∧ ∀ k < summands.length, T.part A.prime (d + a.degree) k (w.coords A.prime) =
        if k = j then (c : A.prime.Field) • (X j).act a d (Pi.single i 1) else 0
  /-- An operation acts part by part. -/
  act_eq : ∀ (c : ℕ) (a : Operation) (d : ℤ) (v : Vec), a.IsBasis A.prime → a.degree < A.computed → m ≤ d → d + a.degree ≤ t →
    Proper A.prime (T.dimension d) v → ∃ w, (toGraded A.prime summands T).act A.prime c a d v = .ok w ∧
      Proper A.prime (T.dimension (d + a.degree)) w ∧ ∀ j < summands.length, T.part A.prime (d + a.degree) j (w.coords A.prime) =
        (c : A.prime.Field) • (X j).act a d (T.part A.prime d j (v.coords A.prime))
  one_act : ∀ (d : ℤ) (v : Vec), 0 < A.computed → m ≤ d → d ≤ t → Proper A.prime (T.dimension d) v →
    (toGraded A.prime summands T).act A.prime 1 ⟨0, 0⟩ d v = .ok v
  mul_act : ∀ (a b : Operation) (d : ℤ) (v z : Vec), A.multiply 1 a b = .ok z → m ≤ d → d + b.degree + a.degree ≤ t →
    Proper A.prime (T.dimension d) v → ∃ n u w, A.dimension (a.degree + b.degree) = .ok n ∧
      (toGraded A.prime summands T).act A.prime 1 b d v = .ok u ∧
      (toGraded A.prime summands T).act A.prime 1 a (d + b.degree) u = .ok w ∧
      (toGraded A.prime summands T).actByElement n 1 (a.degree + b.degree) z d v = .ok w
  /-- The elements of a summand stay there. -/
  act_within : ∀ (c : ℕ) (a : Operation) (d : ℤ) (v w : Vec), a.IsBasis A.prime → a.degree < A.computed → m ≤ d → d + a.degree ≤ t →
    Proper A.prime (T.dimension d) v → (toGraded A.prime summands T).act A.prime c a d v = .ok w → ∀ j < summands.length,
      (∀ k < summands.length, k ≠ j → T.part A.prime d k (v.coords A.prime) = 0) →
      ∀ k < summands.length, k ≠ j → T.part A.prime (d + a.degree) k (w.coords A.prime) = 0

/-- The summands, cut off below a degree. -/
def cutOff (X : ℕ → Representation A.prime) (m : ℤ) (j : ℕ) : Representation A.prime := (X j).above m

section Summands

variable (hT : Records m summands.length (fun d j => (X j).dim d) T) (ht : t < T.offsets.nextDegree)
variable (hsummands : ∀ (j : ℕ) (N : GradedModule), summands[j]? = some N → N.Presents (X j) t)

theorem dim_cutOff (hd : m ≤ d) (j : ℕ) : (cutOff X m j).dim d = (X j).dim d := Representation.dim_above_of_le hd

include hT in
theorem records_cutOff : Records m summands.length (fun d j => (cutOff X m j).dim d) T :=
  hT.congr fun _ hd => funext fun j => (dim_cutOff hd j).symm

include hT ht in
theorem part_eq (hm : m ≤ d) (hd : d ≤ t) (hj : j < summands.length) :
    T.part A.prime d j = Representation.projection (cutOff X m) j d := by
  have hstart := hT.start_eq hm (by omega) hj.le
  have hnext := hT.start_eq hm (by omega) hj
  rw [part, hstart, hnext, blockStart_succ, Nat.add_sub_cancel_left]
  simp only [Representation.projection, dim_cutOff hm]

include hT ht in
theorem dimension_cutOff (hd : d ≤ t) : T.dimension d = (Representation.directSum summands.length (cutOff X m)).dim d :=
  (records_cutOff hT).dimension_eq (fun _ hlt _ _ => Representation.dim_above_of_lt hlt) (by omega)

include hT ht in
/-- There is an element with any given parts. -/
theorem exists_element (hm : m ≤ d) (hd : d ≤ t) {f : ℕ → ℕ → A.prime.Field}
    (hf : ∀ j < summands.length, f j ∈ A.prime.space ((X j).dim d)) :
    ∃ v, Proper A.prime (T.dimension d) v ∧ ∀ j < summands.length, T.part A.prime d j (v.coords A.prime) = f j := by
  have hmem : ∑ j ∈ Finset.range summands.length, Representation.inclusion (cutOff X m) j d (f j) ∈ A.prime.space (T.dimension d) := by
    rw [dimension_cutOff hT ht hd]
    exact Submodule.sum_mem _ fun j hj => Representation.inclusion_mem (Finset.mem_range.mp hj) _
  obtain ⟨v, hv, hcoords⟩ := exists_proper hmem
  refine ⟨v, hv, fun j hj => ?_⟩
  rw [part_eq hT ht hm hd hj, hcoords]
  exact Representation.projection_sum hj ((dim_cutOff hm j).symm ▸ hf j hj)

include hT ht in
/-- An element is given by its parts. -/
theorem eq_of_parts (hm : m ≤ d) (hd : d ≤ t) {v w : Vec} (hv : Proper A.prime (T.dimension d) v) (hw : Proper A.prime (T.dimension d) w)
    (hparts : ∀ j < summands.length, T.part A.prime d j (v.coords A.prime) = T.part A.prime d j (w.coords A.prime)) : v = w := by
  have hsum : ∀ {u : Vec}, Proper A.prime (T.dimension d) u → ∑ j ∈ Finset.range summands.length,
      Representation.inclusion (cutOff X m) j d (Representation.projection (cutOff X m) j d (u.coords A.prime)) = u.coords A.prime :=
    fun hu => Representation.sum_inclusion_projection (dimension_cutOff hT ht hd ▸ hu.coords_mem)
  refine hv.ext hw ?_
  rw [← hsum hv, ← hsum hw]
  refine Finset.sum_congr rfl fun j hj => ?_
  rw [← part_eq hT ht hm hd (Finset.mem_range.mp hj), hparts j (Finset.mem_range.mp hj)]

include hsummands in
theorem lawful_cutOff : ∀ j < summands.length, (cutOff X m j).LawfulThrough t :=
  fun j hj => (hsummands j _ (List.getElem?_eq_getElem hj)).lawful.above m

include hsummands in
theorem lawful_directSum_cutOff : (Representation.directSum summands.length (cutOff X m)).LawfulThrough t :=
  Representation.lawful_directSum (lawful_cutOff hsummands)

include hT ht hsummands in
theorem shows_cutOff : (toGraded A.prime summands T).Shows (Representation.directSum summands.length (cutOff X m)) A t :=
  shows (records_cutOff hT) ht (fun _ hlt _ _ => Representation.dim_above_of_lt hlt) fun j hj =>
    ⟨_, List.getElem?_eq_getElem hj, (hsummands j _ (List.getElem?_eq_getElem hj)).acts.above m⟩

include hT ht hsummands in
/-- The parts of what an operation makes of an element. -/
theorem part_act {a : Operation} {v : ℕ → A.prime.Field} (ha : a.IsBasis A.prime) (hm : m ≤ d) (hd : d + a.degree ≤ t)
    (hv : v ∈ A.prime.space (T.dimension d)) (hj : j < summands.length) :
    T.part A.prime (d + a.degree) j ((Representation.directSum summands.length (cutOff X m)).act a d v) =
      (X j).act a d (T.part A.prime d j v) := by
  have ha₀ := ha.nonneg
  rw [part_eq hT ht (by omega) hd hj, part_eq hT ht hm (by omega) hj]
  rw [dimension_cutOff hT ht (by omega)] at hv
  have hmap := (Representation.hom_projection hj (lawful_cutOff hsummands j hj)).map_act ha hd hv
  rw [sub_zero] at hmap
  exact hmap

include hT ht hsummands in
/-- An operation acts on an element part by part. -/
theorem exists_act {a : Operation} {v : Vec} (c : ℕ) (ha : a.IsBasis A.prime) (hA : a.degree < A.computed) (hm : m ≤ d)
    (hd : d + a.degree ≤ t) (hv : Proper A.prime (T.dimension d) v) :
    ∃ w, (toGraded A.prime summands T).act A.prime c a d v = .ok w ∧ Proper A.prime (T.dimension (d + a.degree)) w ∧
      w.coords A.prime = (c : A.prime.Field) • (Representation.directSum summands.length (cutOff X m)).act a d (v.coords A.prime) ∧
      ∀ j < summands.length, T.part A.prime (d + a.degree) j (w.coords A.prime) =
        (c : A.prime.Field) • (X j).act a d (T.part A.prime d j (v.coords A.prime)) := by
  have ha₀ := ha.nonneg
  have hv' := hv
  rw [dimension_cutOff hT ht (by omega)] at hv'
  obtain ⟨w, hw, hproper, hcoords⟩ := (shows_cutOff hT ht hsummands).act_eq c a d v ha hA hd hv'
  rw [← dimension_cutOff hT ht hd] at hproper
  refine ⟨w, hw, hproper, hcoords, fun j hj => ?_⟩
  rw [hcoords, map_smul, part_act hT ht hsummands ha hm hd hv.coords_mem hj]

include hT ht hsummands in
/-- An operation acts on a basis element in its summand. -/
theorem exists_actOnBasis {a : Operation} {i : ℕ} (c : ℕ) (ha : a.IsBasis A.prime) (hA : a.degree < A.computed) (hm : m ≤ d)
    (hd : d + a.degree ≤ t) (hj : j < summands.length) (hi : i < (X j).dim d) :
    ∃ w, (toGraded A.prime summands T).actOnBasis A.prime c a d (T.start d j + i) = .ok w ∧
      Proper A.prime (T.dimension (d + a.degree)) w ∧ ∀ k < summands.length, T.part A.prime (d + a.degree) k (w.coords A.prime) =
        if k = j then (c : A.prime.Field) • (X j).act a d (Pi.single i 1) else 0 := by
  have ha₀ := ha.nonneg
  rw [hT.start_eq hm (by omega) hj.le]
  have hi' : i < (cutOff X m j).dim d := (dim_cutOff hm j).symm ▸ hi
  have hunit : Pi.single (blockStart (fun j => (X j).dim d) j + i) 1 =
      Representation.inclusion (cutOff X m) j d (Pi.single i 1 : ℕ → A.prime.Field) := by
    simp only [Representation.inclusion, dim_cutOff hm]
    exact (putBlock_single hi).symm
  have hplace : blockStart (fun j => (X j).dim d) j + i < T.dimension d := by
    rw [hT.dimension_of_le hm (by omega)]
    exact (Nat.add_lt_add_left hi _).trans_le (blockStart_add_le (D := fun j => (X j).dim d) hj)
  obtain ⟨w, hw, hproper, hcoords⟩ := actOnBasis_eq (records_cutOff hT) ht (fun _ hlt _ _ => Representation.dim_above_of_lt hlt)
    (fun k hk => ⟨_, List.getElem?_eq_getElem hk, (hsummands k _ (List.getElem?_eq_getElem hk)).acts.above m⟩) ha hA hd
    ((dimension_cutOff hT ht (d := d) (by omega)) ▸ hplace) c
  rw [← dimension_cutOff hT ht hd] at hproper
  refine ⟨w, hw, hproper, fun k hk => ?_⟩
  rw [hcoords, map_smul, part_act hT ht hsummands ha hm hd (FiniteModule.single_mem_space hplace) hk, part_eq hT ht hm (by omega) hk, hunit]
  split
  · next heq =>
    obtain rfl := heq
    rw [Representation.projection_inclusion (FiniteModule.single_mem_space hi')]
  · next hne => rw [Representation.projection_inclusion_of_ne hne, map_zero, smul_zero]

include hT ht hsummands in
/-- The operation of degree 0 leaves every element as it is. -/
theorem one_act {v : Vec} (hA : 0 < A.computed) (hm : m ≤ d) (hd : d ≤ t)
    (hv : Proper A.prime (T.dimension d) v) : (toGraded A.prime summands T).act A.prime 1 ⟨0, 0⟩ d v = .ok v := by
  obtain ⟨w, hw, hproper, hcoords, _⟩ := exists_act hT ht hsummands 1 (Operation.isBasis_one A.prime) (Int.natCast_pos.mpr hA) hm
    (by simpa using hd) hv
  have hmem := hv.coords_mem
  rw [dimension_cutOff hT ht hd] at hmem
  rw [Nat.cast_one, one_smul, (lawful_directSum_cutOff (m := m) hsummands).one_act hd hmem] at hcoords
  simp only [add_zero] at hproper
  rw [hw, hproper.ext hv hcoords]

include hT ht hsummands in
/-- Acting twice is acting by the product. -/
theorem exists_act_twice {a b : Operation} {v z : Vec} (hz : A.multiply 1 a b = .ok z) (hd : d + b.degree + a.degree ≤ t)
    (hv : Proper A.prime (T.dimension d) v) :
    ∃ n u w, A.dimension (a.degree + b.degree) = .ok n ∧ (toGraded A.prime summands T).act A.prime 1 b d v = .ok u ∧
      (toGraded A.prime summands T).act A.prime 1 a (d + b.degree) u = .ok w ∧
      (toGraded A.prime summands T).actByElement n 1 (a.degree + b.degree) z d v = .ok w := by
  obtain ⟨ha, hb, _⟩ := Algebra.multiply_eq_ok hz
  have ha₀ := ha.nonneg
  have hb₀ := hb.nonneg
  rw [dimension_cutOff hT ht (by omega)] at hv
  exact (shows_cutOff hT ht hsummands).exists_act_twice hz hd hv
    ((lawful_directSum_cutOff hsummands).mul_act ha hb hd hv.coords_mem)

end Summands

/-- The view of a sum is that of the direct sum of the modules that the summands show, as far as the table of the sum reaches. -/
theorem isDirectSum (hT : Extended m summands.length (fun j => (X j).dim) T) (ht : t < T.offsets.nextDegree)
    (hsummands : ∀ (j : ℕ) (N : GradedModule), summands[j]? = some N → N.Presents (X j) t) : IsDirectSum A X summands T m t := by
  have hT := hT.records
  have hdim : ∀ d, m ≤ d → d ≤ t → T.dimension d = ∑ j ∈ Finset.range summands.length, (X j).dim d := fun d hm hd =>
    hT.dimension_of_le hm (by omega)
  have hplace : ∀ d, m ≤ d → d ≤ t → ∀ j < summands.length, ∀ i < (X j).dim d,
      T.start d j + i < T.dimension d ∧ T.locate d (T.start d j + i) = .ok (j, i) := fun d hm hd j hj i hi => by
    have hend := blockStart_add_le (D := fun j => (X j).dim d) hj
    rw [hT.start_eq hm (by omega) hj.le, hdim d hm hd]
    exact ⟨(Nat.add_lt_add_left hi _).trans_le hend, hT.locate_eq hm (by omega) hj hi⟩
  exact {
    dimension_of_lt := fun d hd => by
      have hnone : T.offsets.get? d = none := by
        rw [← Option.not_isSome_iff_eq_none, Graded.get?_isSome_iff, hT.minDegree_eq]
        omega
      refine congrArg Except.ok ?_
      rw [SumTable.dimension, hnone]
      rfl
    dimension_eq := fun d hm hd => congrArg Except.ok (hdim d hm hd)
    offset_eq := fun d hm hd j hj => by rw [hT.start_eq hm (by omega) hj, hT.offset_eq hm (by omega) hj]
    locate_eq := hplace
    nameOf_eq := fun d hm hd j N hN i hi => by
      have hj := (List.getElem?_eq_some_iff.mp hN).1
      change nameOf summands T d (T.start d j + i) = _
      rw [nameOf, (hplace d hm hd j hj i hi).2, Result.ok_bind]
      simp only
      rw [hN, Result.ofOption_some, Result.ok_bind]
    exists_place := fun d hm hd k hk => by
      rw [hdim d hm hd] at hk
      obtain ⟨j, hj, i, hi, rfl⟩ := exists_block hk
      exact ⟨j, hj, i, hi, by rw [hT.start_eq hm (by omega) hj.le]⟩
    exists_element := fun d hm hd f hf => exists_element hT ht hm hd hf
    eq_of_parts := fun d hm hd v w hv hw hparts => eq_of_parts hT ht hm hd hv hw hparts
    actOnBasis_eq := fun c a d ha hA hm hd j hj i hi => exists_actOnBasis hT ht hsummands c ha hA hm hd hj hi
    act_eq := fun c a d v ha hA hm hd hv => by
      obtain ⟨w, hw, hproper, _, hparts⟩ := exists_act hT ht hsummands c ha hA hm hd hv
      exact ⟨w, hw, hproper, hparts⟩
    one_act := fun d v hA hm hd hv => one_act hT ht hsummands hA hm hd hv
    mul_act := fun a b d v z hz _ hd hv => exists_act_twice hT ht hsummands hz hd hv
    act_within := fun c a d v w ha hA hm hd hv hw j hj hzero k hk hne => by
      obtain ⟨w', hw', _, _, hparts⟩ := exists_act hT ht hsummands c ha hA hm hd hv
      obtain rfl := Except.ok.inj (hw.symm.trans hw')
      rw [hparts k hk, hzero k hk hne, map_zero, smul_zero] }

/-- The sum of no modules is zero. -/
theorem presents_nil : (toGraded A.prime [] (SumTable.new m)).Presents (Representation.zero A.prime) t where
  dims := ⟨fun d _ _ => congrArg Except.ok (by simp [SumTable.dimension, SumTable.new, Representation.zero]), fun _ _ => rfl⟩
  acts _ _ _ _ _ _ _ hi := absurd hi (Nat.not_lt_zero _)
  lawful := Representation.zero_lawful t

/-- A module, nothing, and the module again. -/
def apart (A : Algebra) (M : FiniteModule) : List GradedModule := [M.toGraded A, toGraded A.prime [] (SumTable.new 0), M.toGraded A]

/-- Question marks with nothing between them, without their lowest elements. -/
theorem isDirectSum_questionMarks : ∃ M A' X T, FiniteModule.questionMark.build.run (Algebra.new Prime.two none) = (.ok M, A') ∧
    (∀ (j : ℕ) (N : GradedModule), (apart Tensor.throughSix M)[j]? = some N → N.Presents (X j) 6) ∧
    IsDirectSum Tensor.throughSix X (apart Tensor.throughSix M) T 1 6 ∧ T.dimension 0 = 0 ∧ T.dimension 3 = 2 := by
  have hrun : (match FiniteModule.questionMark.build.run (Algebra.new Prime.two none) with
      | (.ok M, _) => decide (M.minDegree = 0 ∧ M.dimension 3 = 1)
      | (.error _, _) => false) = true := by decide +kernel
  split at hrun
  · next M A' hbuild =>
    obtain ⟨hmin, hdim⟩ := of_decide_eq_true hrun
    have hgenuine : M.Genuine Tensor.throughSix.prime := FiniteModule.genuine_of_run_build (A := Algebra.new Prime.two none) (by decide) hbuild
    let X : ℕ → Representation Tensor.throughSix.prime := fun j =>
      if j = 1 then Representation.zero _ else (M.rep _).above M.minDegree
    have hsummands : ∀ (j : ℕ) (N : GradedModule), (apart Tensor.throughSix M)[j]? = some N → N.Presents (X j) 6 := by
      have hmodule : (M.toGraded Tensor.throughSix).Presents ((M.rep _).above M.minDegree) 6 :=
        hgenuine.presents (by rw [hmin]; decide)
      rintro (_ | _ | _ | j) N hN
      · obtain rfl := Option.some.inj hN
        exact hmodule
      · obtain rfl := Option.some.inj hN
        exact presents_nil
      · obtain rfl := Option.some.inj hN
        exact hmodule
      · cases hN
    obtain ⟨T, _, hT, hnext⟩ := (Extended.new (m := 1) (n := (apart Tensor.throughSix M).length) (D := fun j => (X j).dim)).exists_extend
      (t := 6) rfl fun j N hN => (hsummands j N hN).dims
    have hempty : (SumTable.new 1).offsets.nextDegree = 1 := rfl
    have hsum := isDirectSum hT (t := 6) (by omega) hsummands
    refine ⟨M, A', X, T, hbuild, hsummands, hsum, Except.ok.inj (hsum.dimension_of_lt 0 (by decide)), ?_⟩
    have htop := Except.ok.inj (hsum.dimension_eq 3 (by decide) (by decide))
    have hdims : ∑ j ∈ Finset.range 3, (X j).dim 3 = 2 := by
      have hmodule : ((M.rep Tensor.throughSix.prime).above M.minDegree).dim 3 = 1 :=
        (Representation.dim_above_of_le (by omega)).trans hdim
      rw [Finset.sum_range_succ, Finset.sum_range_succ, Finset.sum_range_one]
      change ((M.rep _).above M.minDegree).dim 3 + 0 + ((M.rep _).above M.minDegree).dim 3 = 2
      rw [hmodule]
    exact htop.trans hdims
  · cases hrun

end DirectSum
end Steenrod
