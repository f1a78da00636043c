import Steenrod.Proofs.Linear.Blocks
import Steenrod.Proofs.Module.Finite
import Steenrod.Proofs.Module.Maps
import Steenrod.Module.DirectSum
/-!
Direct sums of representations, and the views that show them. Main statements: a direct sum of modules is a module, with
inclusions and projections that commute with the action; and the view of a direct sum, whose table has been extended far
enough, shows the direct sum of what the summands show.
-/
namespace Steenrod

open Vec

namespace Representation

variable {p : Prime} {X : ℕ → Representation p} {n i j : ℕ} {d τ : ℤ} {a : Operation}

/-- The direct sum of the first `n` of a sequence; elements are divided into blocks. -/
def directSum (n : ℕ) (X : ℕ → Representation p) : Representation p where
  dim d := blockStart (fun j => (X j).dim d) n
  act a d := ∑ j ∈ Finset.range n,
    putBlock p (blockStart (fun i => (X i).dim (d + a.degree)) j) ((X j).dim (d + a.degree)) ∘ₗ
      (X j).act a d ∘ₗ takeBlock p (blockStart (fun i => (X i).dim d) j) ((X j).dim d)

/-- A summand as a part of the direct sum. -/
def inclusion (X : ℕ → Representation p) (j : ℕ) : Family p :=
  fun d => putBlock p (blockStart (fun i => (X i).dim d) j) ((X j).dim d)

/-- The part of an element of the direct sum in a summand. -/
def projection (X : ℕ → Representation p) (j : ℕ) : Family p :=
  fun d => takeBlock p (blockStart (fun i => (X i).dim d) j) ((X j).dim d)

theorem directSum_act (n : ℕ) (X : ℕ → Representation p) (a : Operation) (d : ℤ) (v : ℕ → p.Field) :
    (directSum n X).act a d v =
      ∑ j ∈ Finset.range n, inclusion X j (d + a.degree) ((X j).act a d (projection X j d v)) := by
  simp only [directSum, LinearMap.sum_apply, LinearMap.comp_apply, inclusion, projection]

theorem projection_mem (v : ℕ → p.Field) : projection X j d v ∈ p.space ((X j).dim d) := takeBlock_mem _ _ _

theorem inclusion_mem (hj : j < n) (v : ℕ → p.Field) : inclusion X j d v ∈ p.space ((directSum n X).dim d) :=
  putBlock_mem (blockStart_add_le (D := fun i => (X i).dim d) hj) v

theorem projection_inclusion {v : ℕ → p.Field} (hv : v ∈ p.space ((X j).dim d)) :
    projection X j d (inclusion X j d v) = v := takeBlock_putBlock hv

theorem projection_inclusion_of_ne (h : i ≠ j) (v : ℕ → p.Field) : projection X i d (inclusion X j d v) = 0 := by
  refine takeBlock_putBlock_of_disjoint ?_ v
  rcases Nat.lt_or_gt_of_ne h with h | h
  · exact .inl (blockStart_add_le (D := fun i => (X i).dim d) h)
  · exact .inr (blockStart_add_le (D := fun i => (X i).dim d) h)

/-- An element of the direct sum is the sum of its parts. -/
theorem sum_inclusion_projection {v : ℕ → p.Field} (hv : v ∈ p.space ((directSum n X).dim d)) :
    ∑ j ∈ Finset.range n, inclusion X j d (projection X j d v) = v :=
  (sum_putBlock_takeBlock (fun j => (X j).dim d) n v).trans (cut_eq_self hv)

theorem projection_sum (hj : j < n) {f : ℕ → ℕ → p.Field} (hf : f j ∈ p.space ((X j).dim d)) :
    projection X j d (∑ i ∈ Finset.range n, inclusion X i d (f i)) = f j := by
  rw [map_sum, Finset.sum_eq_single_of_mem j (Finset.mem_range.mpr hj) fun i _ hi =>
    projection_inclusion_of_ne (Ne.symm hi) (f i), projection_inclusion hf]

/-- The laws hold in a direct sum of modules. -/
theorem lawful_directSum (hX : ∀ j < n, (X j).LawfulThrough τ) : (directSum n X).LawfulThrough τ where
  act_mem {a d v} _ _ _ := by
    rw [directSum_act]
    exact Submodule.sum_mem _ fun j hj => inclusion_mem (Finset.mem_range.mp hj) _
  one_act {d v} hd hv := by
    rw [directSum_act]
    simp only [add_zero]
    rw [← sum_inclusion_projection hv]
    refine Finset.sum_congr rfl fun j hj => ?_
    rw [sum_inclusion_projection hv, (hX j (Finset.mem_range.mp hj)).one_act hd (projection_mem v)]
  mul_act {a b d v} ha hb hd _ := by
    have ha₀ := ha.nonneg
    have hdeg : d + b.degree + a.degree = d + (a.degree + b.degree) := by omega
    rw [directSum_act, directSum_act, combine_apply]
    simp only [directSum_act, Finset.smul_sum]
    rw [Finset.sum_comm]
    refine Finset.sum_congr rfl fun j hj => ?_
    have hj := Finset.mem_range.mp hj
    have hb := (hX j hj).act_mem (v := projection X j d v) hb (by omega) (projection_mem v)
    rw [projection_sum hj (f := fun j => (X j).act b d (projection X j d v)) hb,
      (hX j hj).mul_act ha ‹b.IsBasis p› hd (projection_mem v), map_combine, hdeg, combine_apply]

/-- The elements of a summand go where the summand sends them. -/
theorem directSum_act_inclusion (hj : j < n) {v : ℕ → p.Field} (hv : v ∈ p.space ((X j).dim d)) :
    (directSum n X).act a d (inclusion X j d v) = inclusion X j (d + a.degree) ((X j).act a d v) := by
  rw [directSum_act, Finset.sum_eq_single_of_mem j (Finset.mem_range.mpr hj), projection_inclusion hv]
  intro i _ hi
  rw [projection_inclusion_of_ne hi, map_zero, map_zero]

theorem hom_inclusion (hj : j < n) : Hom (X j) (directSum n X) 0 τ (inclusion X j) where
  mem {d v} _ _ := by
    rw [sub_zero]
    exact inclusion_mem hj v
  map_act {a d v} _ _ hv := by
    rw [sub_zero, directSum_act_inclusion hj hv]

theorem hom_projection (hj : j < n) (hX : (X j).LawfulThrough τ) : Hom (directSum n X) (X j) 0 τ (projection X j) where
  mem {d v} _ _ := by
    rw [sub_zero]
    exact projection_mem v
  map_act {a d v} ha hd _ := by
    rw [sub_zero, directSum_act]
    exact projection_sum hj (f := fun j => (X j).act a d (projection X j d v)) (hX.act_mem ha hd (projection_mem v))

end Representation

/-- The view `M` over the algebra `A` acts on basis elements as the representation `X` does, for results in degrees up to
`top`. -/
def GradedModule.ActsAs {p : Prime} (M : GradedModule) (X : Representation p) (A : Algebra) (top : ℤ) : Prop :=
  ∀ (c : ℕ) (a : Operation) (d : ℤ) (i : ℕ), a.IsBasis p → a.degree < A.computed → d + a.degree ≤ top → i < X.dim d →
    ∃ w, M.actOnBasis p c a d i = .ok w ∧ Proper p (X.dim (d + a.degree)) w ∧
      w.coords p = (c : p.Field) • X.act a d (Pi.single i 1)

theorem FiniteModule.actsAs {A : Algebra} {M : FiniteModule} (h : M.StoredBelow A.prime A.computed) (top : ℤ) :
    (M.toGraded A).ActsAs (M.rep A.prime) A top :=
  fun c _ _ _ ha hlt _ hi => actOnBasis_eq h ha hlt hi c

theorem FiniteModule.summandDimension_toGraded (M : FiniteModule) (A : Algebra) (d : ℤ) :
    SumTable.summandDimension (M.toGraded A) d = .ok (M.dimension d) := by
  unfold SumTable.summandDimension
  split
  · next hd => exact congrArg Except.ok (dimension_of_lt hd).symm
  · rfl

theorem Graded.get?_foldl_push {α : Type} (g : Graded α) (l : List α) (d : ℤ) :
    (l.foldl Graded.push g).nextDegree = g.nextDegree + l.length ∧
      (l.foldl Graded.push g).get? d = if d < g.nextDegree then g.get? d else l[(d - g.nextDegree).toNat]? := by
  induction l generalizing g with
  | nil =>
    refine ⟨(Int.add_zero _).symm, ?_⟩
    split
    · rfl
    · next hd =>
      rw [List.getElem?_nil, List.foldl_nil, ← Option.not_isSome_iff_eq_none, Graded.get?_isSome_iff]
      omega
  | cons x l ih =>
    obtain ⟨hnext, hget⟩ := ih (g.push x)
    rw [List.foldl_cons, hnext, hget, Graded.nextDegree_push, Graded.get?_push, List.length_cons]
    refine ⟨by push_cast; omega, ?_⟩
    by_cases hlt : d < g.nextDegree
    · rw [if_pos (by omega), if_pos hlt, if_neg (by omega)]
    · rw [if_neg hlt]
      by_cases heq : d = g.nextDegree
      · rw [if_pos (by omega), if_pos heq, heq, sub_self]
        rfl
      · rw [if_neg (by omega), (by omega : (d - g.nextDegree).toNat = (d - (g.nextDegree + 1)).toNat + 1),
          List.getElem?_cons_succ]

namespace SumTable

variable {D : ℤ → ℕ → ℕ} {summands : List GradedModule} {T T' : SumTable} {m t d : ℤ} {n i j k : ℕ}

/-- The offsets of blocks of the widths `D`, and their end. -/
def starts (D : ℕ → ℕ) (n : ℕ) : Array ℕ := ((List.range (n + 1)).map (blockStart D)).toArray

/-- A table from degree `m` on for summands of the dimensions `D`. -/
structure Records (m : ℤ) (n : ℕ) (D : ℤ → ℕ → ℕ) (T : SumTable) : Prop where
  minDegree_eq : T.offsets.minDegree = m
  row_eq : ∀ {d : ℤ} {row : Array ℕ}, T.offsets.get? d = some row → row = starts (D d) n

theorem records_new (m : ℤ) (n : ℕ) (D : ℤ → ℕ → ℕ) : Records m n D (SumTable.new m) :=
  ⟨rfl, fun h => by simp [SumTable.new] at h⟩

/-- A table records dimensions from its least degree on only. -/
theorem Records.congr {D' : ℤ → ℕ → ℕ} (hT : Records m n D T) (h : ∀ d, m ≤ d → D d = D' d) : Records m n D' T where
  minDegree_eq := hT.minDegree_eq
  row_eq {d row} hrow := by
    have hrange := (Graded.get?_isSome_iff T.offsets d).mp (Option.isSome_of_eq_some hrow)
    rw [hT.row_eq hrow, h d (hT.minDegree_eq ▸ hrange.1)]

/-- The offsets of a degree are computed from left to right. -/
theorem row_eq_ok {D : ℕ → ℕ} (h : ∀ j M, summands[j]? = some M → summandDimension M d = .ok (D j)) :
    row summands d = .ok (starts D summands.length) := by
  have hloop : ∀ (l : List GradedModule) (D : ℕ → ℕ) (done : Array ℕ) (start : ℕ),
      (∀ j M, l[j]? = some M → summandDimension M d = .ok (D j)) →
      l.foldlM (fun x M => do
        let n ← summandDimension M d
        (.ok (x.1.push x.2, x.2 + n) : Result (Array ℕ × ℕ))) (done, start) =
        .ok (done ++ ((List.range l.length).map fun j => start + blockStart D j).toArray, start + blockStart D l.length) := by
    intro l
    induction l with
    | nil =>
      intro D done start _
      exact congrArg Except.ok (by simp)
    | cons M l ih =>
      intro D done start hl
      rw [List.foldlM_cons]
      refine Result.bind_eq_ok.mpr ⟨(done.push start, start + D 0), ?_, ?_⟩
      · exact Result.bind_eq_ok.mpr ⟨D 0, hl 0 M rfl, rfl⟩
      · rw [ih (fun j => D (j + 1)) _ _ fun j N hN => hl (j + 1) N hN, List.length_cons, blockStart_succ',
          List.range_succ_eq_map, List.map_cons, List.map_map, Nat.add_assoc]
        congr 2
        simp [Function.comp_def, blockStart_succ', Nat.add_assoc]
  refine Result.bind_eq_ok.mpr ⟨_, hloop summands D #[] 0 h, ?_⟩
  simp [starts, List.range_succ]

/-- Extending a table adds rows of the same kind. -/
theorem Records.extend (hT : Records m n D T) (hlen : summands.length = n)
    (hdim : ∀ j M, summands[j]? = some M → ∀ d, m ≤ d → d ≤ t → summandDimension M d = .ok (D d j)) (h : T.extend summands t = .ok T') :
    Records m n D T' ∧ T'.offsets.nextDegree = max T.offsets.nextDegree (t + 1) := by
  subst hlen
  obtain ⟨rows, hrows, heq⟩ := Result.bind_eq_ok.mp h
  obtain rfl := Except.ok.inj heq
  have hlen := (Result.of_mapM_eq_ok hrows).length_eq
  rw [GradedModule.length_degreesBetween] at hlen
  have hfold := Graded.get?_foldl_push T.offsets rows
  refine ⟨⟨?_, fun {d row} hrow => ?_⟩, ?_⟩
  · exact (Graded.minDegree_foldl_push T.offsets rows).trans hT.minDegree_eq
  · rw [(hfold d).2] at hrow
    split at hrow
    · exact hT.row_eq hrow
    · next hd =>
      obtain ⟨e, he, hrow⟩ := (Result.getElem?_of_mapM hrows).mp hrow
      rw [GradedModule.getElem?_degreesBetween] at he
      split at he
      · obtain rfl : d = e := by
          have := Option.some.inj he
          omega
        have hmin := hT.minDegree_eq
        have hnext : T.offsets.nextDegree = T.offsets.minDegree + T.offsets.entries.size := rfl
        exact Except.ok.inj (hrow.symm.trans (row_eq_ok fun j M hM => hdim j M hM d (by omega) (by omega)))
      · cases he
  · have hnext := (hfold 0).1
    change (rows.foldl Graded.push T.offsets).nextDegree = _
    omega

section Reading

variable (hT : Records m n D T)

include hT

theorem Records.get?_eq (hm : m ≤ d) (hd : d < T.offsets.nextDegree) :
    T.offsets.get? d = some (starts (D d) n) := by
  obtain ⟨row, hrow⟩ := Option.isSome_iff_exists.mp
    ((Graded.get?_isSome_iff T.offsets d).mpr ⟨hT.minDegree_eq.trans_le hm, hd⟩)
  rw [hrow, hT.row_eq hrow]

theorem Records.dimension_of_le (hm : m ≤ d) (hd : d < T.offsets.nextDegree) : T.dimension d = blockStart (D d) n := by
  rw [dimension, hT.get?_eq hm hd, Option.bind_some, starts, List.back?_toArray, List.range_succ, List.map_append, List.map_singleton,
    List.getLast?_concat, Option.getD_some]

theorem Records.dimension_eq (hzero : ∀ d < m, ∀ j < n, D d j = 0) (hd : d < T.offsets.nextDegree) :
    T.dimension d = blockStart (D d) n := by
  by_cases hm : m ≤ d
  · exact hT.dimension_of_le hm hd
  · have hnone : T.offsets.get? d = none := by
      rw [← Option.not_isSome_iff_eq_none, Graded.get?_isSome_iff, hT.minDegree_eq]
      omega
    rw [dimension, hnone, Option.bind_none, Option.getD_none]
    exact (Finset.sum_eq_zero fun j hj => hzero d (by omega) j (Finset.mem_range.mp hj)).symm

theorem Records.offset_eq (hm : m ≤ d) (hd : d < T.offsets.nextDegree) (hj : j ≤ n) :
    T.offset d j = .ok (blockStart (D d) j) := by
  rw [offset, hT.get?_eq hm hd, Option.bind_some, starts]
  refine Result.ofOption_eq_ok.mpr ?_
  rw [List.getElem?_toArray, List.getElem?_map, List.getElem?_range (by omega), Option.map_some]

/-- A place in a block is found to be there; blocks that are empty start where the next one does. -/
theorem Records.locate_eq (hm : m ≤ d) (hd : d < T.offsets.nextDegree) (hj : j < n) (hk : k < D d j) :
    T.locate d (blockStart (D d) j + k) = .ok (j, k) := by
  have hlt : blockStart (D d) j + k < blockStart (D d) (j + 1) := by
    rw [blockStart_succ]
    exact Nat.add_lt_add_left hk _
  have hwhile : (((List.range (n + 1)).map (blockStart (D d))).takeWhile (· ≤ blockStart (D d) j + k)).length = j + 1 := by
    have hsplit : (List.range (n + 1)).map (blockStart (D d)) = (List.range (j + 1)).map (blockStart (D d)) ++
        blockStart (D d) (j + 1) :: (List.range (n - j - 1)).map fun i => blockStart (D d) (j + 1 + (i + 1)) := by
      have hrest := List.range_succ_eq_map (n := n - j - 1)
      rw [(by omega : n + 1 = j + 1 + (n - j - 1 + 1)), List.range_add, List.map_append, hrest, List.map_cons,
        List.map_cons, List.map_map, List.map_map, Nat.add_zero]
      rfl
    rw [hsplit, List.takeWhile_append_of_pos, List.takeWhile_cons_of_neg, List.append_nil, List.length_map,
      List.length_range]
    · rw [decide_eq_true_eq, not_le]
      exact hlt
    · intro x hx
      obtain ⟨i, hi, rfl⟩ := List.mem_map.mp hx
      have hle := blockStart_mono (D d) (Nat.lt_succ_iff.mp (List.mem_range.mp hi))
      exact decide_eq_true (hle.trans (Nat.le_add_right _ _))
  have hdim : blockStart (D d) j + k < T.dimension d := by
    rw [hT.dimension_of_le hm hd]
    exact hlt.trans_le (blockStart_mono (D d) hj)
  rw [locate, hT.get?_eq hm hd, Result.ofOption_some, Result.ok_bind, decide_eq_true hdim, require_true, Result.ok_bind]
  have hstarts : starts (D d) n = ((List.range (n + 1)).map (blockStart (D d))).toArray := rfl
  simp only [hstarts, hwhile, Nat.add_sub_cancel]
  rw [List.getElem?_toArray, List.getElem?_map, List.getElem?_range (by omega), Option.map_some, Result.ofOption_some,
    Result.ok_bind, Nat.add_sub_cancel_left]

end Reading

end SumTable

namespace DirectSum

variable {A : Algebra} {X : ℕ → Representation A.prime} {summands : List GradedModule} {T : SumTable} {m t d : ℤ} {n i : ℕ}

section Showing

variable (hT : SumTable.Records m n (fun d j => (X j).dim d) T) (ht : t < T.offsets.nextDegree)
variable (hzero : ∀ d < m, ∀ j < n, (X j).dim d = 0)
variable (hacts : ∀ j < n, ∃ M, summands[j]? = some M ∧ GradedModule.ActsAs M (X j) A t)

include hT ht hzero hacts

/-- The action on a basis element is that of the summand in whose block it is. -/
theorem actOnBasis_eq {a : Operation} (ha : a.IsBasis A.prime) (hlt : a.degree < A.computed) (hd : d + a.degree ≤ t)
    (hi : i < (Representation.directSum n X).dim d) (c : ℕ) :
    ∃ w, actOnBasis summands T A.prime c a d i = .ok w ∧
      Proper A.prime ((Representation.directSum n X).dim (d + a.degree)) w ∧
      w.coords A.prime = (c : A.prime.Field) • (Representation.directSum n X).act a d (Pi.single i 1) := by
  have ha₀ := ha.nonneg
  have hm : m ≤ d := by
    by_contra hm
    have hdim : (Representation.directSum n X).dim d = 0 :=
      Finset.sum_eq_zero fun j hj => hzero d (by omega) j (Finset.mem_range.mp hj)
    omega
  obtain ⟨j, hj, k, hk, rfl⟩ := exists_block hi
  obtain ⟨M, hM, hacts⟩ := hacts j hj
  obtain ⟨u, hu, hup, huc⟩ := hacts c a d k ha hlt hd hk
  set D := fun j => (X j).dim (d + a.degree) with hD
  have hdim := hT.dimension_eq hzero (d := d + a.degree) (by omega)
  have hact : (Representation.directSum n X).act a d (Pi.single (blockStart (fun j => (X j).dim d) j + k) 1) =
      putBlock A.prime (blockStart D j) (D j) ((X j).act a d (Pi.single k 1)) := by
    rw [← putBlock_single hk]
    exact Representation.directSum_act_inclusion hj fun i hi => Pi.single_eq_of_ne (by omega) _
  rw [actOnBasis, hdim]
  change ∃ w, (if blockStart D n = 0 then _ else _) = _ ∧ Proper A.prime (blockStart D n) w ∧ _
  have hfit : blockStart D j + D j ≤ blockStart D n := blockStart_add_le hj
  by_cases hn : blockStart D n = 0
  · rw [if_pos hn, hn, hact, (by omega : D j = 0), putBlock_zero_width, smul_zero]
    exact ⟨_, rfl, Proper.zero, coords_zero _⟩
  · have hstart : T.offset (d + a.degree) j = .ok (blockStart D j) := hT.offset_eq (by omega) (by omega) hj.le
    have hstop : T.offset (d + a.degree) (j + 1) = .ok (blockStart D j + D j) := by
      rw [hT.offset_eq (by omega) (by omega) hj, blockStart_succ]
    rw [if_neg hn, hT.locate_eq hm (by omega) hj hk, Result.ok_bind]
    simp only
    rw [hstart, Result.ok_bind, hstop, Result.ok_bind]
    by_cases hwidth : D j = 0
    · rw [if_pos (by omega), hact, hwidth, putBlock_zero_width, smul_zero]
      exact ⟨_, rfl, Proper.zero, coords_zero _⟩
    · rw [if_neg (by omega), hM, Result.ofOption_some, Result.ok_bind, hu, Result.ok_bind, Nat.add_sub_cancel_left]
      have hblock : Proper A.prime (D j) (u.block 0 (D j)) := hup.block (a := 0) (le_refl _)
      refine ⟨(Vec.zero (blockStart D n)).splice (blockStart D j) (u.block 0 (D j)), ?_,
        Proper.zero.splice hblock.reduced (by rw [hblock.size_eq]; exact hfit), ?_⟩
      · rw [splice?, if_pos (by rw [size_zero, hblock.size_eq]; exact hfit)]
        rfl
      · rw [hact]
        funext l
        rw [coords_splice (by rw [size_zero, hblock.size_eq]; exact hfit), hblock.size_eq, coords_zero, Pi.smul_apply,
          putBlock_apply, coords_block, huc]
        by_cases hl : blockStart D j ≤ l ∧ l < blockStart D j + D j
        · rw [if_pos hl, if_pos hl, if_pos (by omega), Nat.zero_add]
          rfl
        · rw [if_neg hl, if_neg hl, smul_zero]
          rfl

/-- The view of a direct sum shows the direct sum of what the summands show. -/
theorem shows : (toGraded A.prime summands T).Shows (Representation.directSum n X) A t where
  prime_eq := rfl
  dimension_eq d hd := congrArg Except.ok (hT.dimension_eq hzero (by omega))
  act_eq c a d v ha hlt hd hv := by
    have ha₀ := ha.nonneg
    change ∃ w, GradedModule.actLinearly A.prime (fun e => .ok (T.dimension e)) (actOnBasis summands T) A.prime c a d v =
      .ok w ∧ _
    refine GradedModule.actLinearly_eq ?_ ?_ (fun i hi c => actOnBasis_eq hT ht hzero hacts ha hlt hd hi c) hv c
    · exact congrArg Except.ok (hT.dimension_eq hzero (by omega))
    · exact congrArg Except.ok (hT.dimension_eq hzero (by omega))

end Showing

theorem shows_of_prime_eq {p : Prime} {X : ℕ → Representation p} (hp : A.prime = p)
    (hT : SumTable.Records m n (fun d j => (X j).dim d) T) (ht : t < T.offsets.nextDegree)
    (hzero : ∀ d < m, ∀ j < n, (X j).dim d = 0)
    (hacts : ∀ j < n, ∃ M, summands[j]? = some M ∧ GradedModule.ActsAs M (X j) A t) :
    (toGraded A.prime summands T).Shows (Representation.directSum n X) A t := by
  subst hp
  exact shows hT ht hzero hacts

end DirectSum
end Steenrod
