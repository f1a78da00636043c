import Steenrod.Module.Tensor
import Steenrod.Proofs.Module.DirectSum
import Steenrod.Proofs.Module.Stored
/-!
The tables of tensor products of finite modules. Main statements: the offsets that a table records are where the blocks start whose
widths are the products of the dimensions, and every place of a degree lies in exactly one block.
-/
namespace Steenrod
namespace TensorTable

variable {L R : FiniteModule} {A : Algebra} {T T' : TensorTable} {t d : ℤ} {k i j : ℕ}

/-- The left degree of a block. -/
def leftDegree (L : FiniteModule) (k : ℕ) : ℤ := L.minDegree + k

/-- The length of the rows of a block, one for each basis element of the left factor. -/
def rowLength (L R : FiniteModule) (t : ℤ) (k : ℕ) : ℕ := R.dimension (t - leftDegree L k)

/-- The dimension of a block. -/
def width (L R : FiniteModule) (t : ℤ) (k : ℕ) : ℕ := L.dimension (leftDegree L k) * rowLength L R t k

/-- The number of left degrees. -/
def span (L : FiniteModule) : ℕ := (L.maxDegree + 1 - L.minDegree).toNat

/-- The number of left degrees that leave a right degree. -/
def reach (L R : FiniteModule) (t : ℤ) : ℕ := (min L.maxDegree (t - R.minDegree) + 1 - L.minDegree).toNat

/-- The dimension of a degree. -/
def total (L R : FiniteModule) (t : ℤ) : ℕ := blockStart (width L R t) (span L)

theorem leftDegrees_eq (A : Algebra) (t : ℤ) :
    leftDegrees (L.toGraded A) (R.toGraded A) t = (List.range (reach L R t)).map (leftDegree L) := rfl

theorem reach_le_span : reach L R t ≤ span L := by
  unfold reach span
  omega

/-- Rows beyond the reach are empty. -/
theorem rowLength_eq_zero (h : reach L R t ≤ k) (hk : k < span L) : rowLength L R t k = 0 := by
  unfold reach at h
  unfold span at hk
  exact FiniteModule.dimension_of_lt (by unfold leftDegree; omega)

theorem width_eq_zero (h : reach L R t ≤ k) (hk : k < span L) : width L R t k = 0 := by
  rw [width, rowLength_eq_zero h hk, Nat.mul_zero]

theorem blockStart_reach (h : reach L R t ≤ k) (hk : k ≤ span L) : blockStart (width L R t) k = blockStart (width L R t) (reach L R t) := by
  induction k, h using Nat.le_induction with
  | base => rfl
  | succ k h ih => rw [blockStart_succ, width_eq_zero h hk, Nat.add_zero, ih (by omega)]

theorem total_eq_zero {t : ℤ} (h : t < L.minDegree + R.minDegree ∨ L.maxDegree + R.maxDegree < t) : total L R t = 0 := by
  rw [total, blockStart]
  refine Finset.sum_eq_zero fun k hk => ?_
  have hk := Finset.mem_range.mp hk
  unfold span at hk
  have hzero : rowLength L R t k = 0 := by
    unfold rowLength leftDegree
    rcases h with h | h
    · exact FiniteModule.dimension_of_lt (by omega)
    · refine FiniteModule.dimension_of_nextDegree_le ?_
      have hmax : R.maxDegree = R.dims.nextDegree - 1 := rfl
      omega
  rw [width, hzero, Nat.mul_zero]

theorem le_of_lt_total {n : ℕ} (hn : n < total L R t) : L.minDegree + R.minDegree ≤ t := by
  by_contra hlt
  rw [total_eq_zero (.inl (not_le.mp hlt))] at hn
  exact absurd hn (Nat.not_lt_zero n)

theorem lt_span (hi : i < L.dimension (leftDegree L k)) : k < span L := by
  have hrange := FiniteModule.degrees_of_lt_dimension hi
  unfold leftDegree at hrange
  unfold span
  omega

theorem lt_reach (hk : k < span L) (hj : j < rowLength L R t k) : k < reach L R t := by
  by_contra hle
  rw [rowLength_eq_zero (not_lt.mp hle) hk] at hj
  exact absurd hj (Nat.not_lt_zero j)

/-- Where a row of a block starts. -/
def rowStart (L R : FiniteModule) (t : ℤ) (k i : ℕ) : ℕ := blockStart (width L R t) k + i * rowLength L R t k

theorem rowStart_add_le (hi : i < L.dimension (leftDegree L k)) :
    rowStart L R t k i + rowLength L R t k ≤ blockStart (width L R t) (k + 1) := by
  have hle := Nat.mul_le_mul_right (rowLength L R t k) (Nat.succ_le_of_lt hi)
  have hwidth : width L R t k = L.dimension (leftDegree L k) * rowLength L R t k := rfl
  rw [Nat.succ_mul] at hle
  rw [rowStart, blockStart_succ, hwidth, Nat.add_assoc]
  exact Nat.add_le_add_left hle _

theorem rowStart_add_lt_total (hk : k < span L) (hi : i < L.dimension (leftDegree L k)) (hj : j < rowLength L R t k) :
    rowStart L R t k i + j < total L R t := by
  have hend := (rowStart_add_le (R := R) (t := t) hi).trans (blockStart_mono (width L R t) (Nat.succ_le_of_lt hk))
  have hlt : rowStart L R t k i + j < rowStart L R t k i + rowLength L R t k := Nat.add_lt_add_left hj _
  exact hlt.trans_le hend

/-- Every place lies in a row. -/
theorem exists_row {n : ℕ} (hn : n < total L R t) : ∃ k < span L, ∃ i < L.dimension (leftDegree L k), ∃ j < rowLength L R t k,
    n = rowStart L R t k i + j := by
  obtain ⟨k, hk, m, hm, rfl⟩ := exists_block hn
  have hpos : 0 < rowLength L R t k := Nat.pos_of_ne_zero fun hzero => by
    rw [width, hzero] at hm
    exact absurd hm (Nat.not_lt_zero m)
  refine ⟨k, hk, m / rowLength L R t k, (Nat.div_lt_iff_lt_mul hpos).mpr hm, m % rowLength L R t k, Nat.mod_lt _ hpos, ?_⟩
  rw [rowStart, Nat.add_assoc, Nat.mul_comm, Nat.div_add_mod]

theorem row_add_lt_width (hi : i < L.dimension (leftDegree L k)) (hj : j < rowLength L R t k) :
    i * rowLength L R t k + j < width L R t k := by
  have hle := Nat.mul_le_mul_right (rowLength L R t k) (Nat.succ_le_of_lt hi)
  rw [Nat.succ_mul] at hle
  exact (Nat.add_lt_add_left hj _).trans_le hle

/-- The row of a place, and how far it is along the row. -/
theorem div_mod_row {n : ℕ} (hj : j < n) : (i * n + j) / n = i ∧ (i * n + j) % n = j := by
  have hpos : 0 < n := Nat.zero_lt_of_lt hj
  constructor
  · rw [Nat.mul_comm, Nat.mul_add_div hpos, Nat.div_eq_of_lt hj, Nat.add_zero]
  · rw [Nat.mul_comm, Nat.mul_add_mod, Nat.mod_eq_of_lt hj]

/-- A place lies in one row only. -/
theorem rowStart_inj {k' i' j' : ℕ} (hi : i < L.dimension (leftDegree L k)) (hj : j < rowLength L R t k)
    (hi' : i' < L.dimension (leftDegree L k')) (hj' : j' < rowLength L R t k') (h : rowStart L R t k i + j = rowStart L R t k' i' + j') :
    k = k' ∧ i = i' ∧ j = j' := by
  rw [rowStart, rowStart, Nat.add_assoc, Nat.add_assoc] at h
  obtain ⟨rfl, hplace⟩ := block_inj (row_add_lt_width hi hj) (row_add_lt_width hi' hj') h
  have hdiv := congrArg (· / rowLength L R t k) hplace
  have hmod := congrArg (· % rowLength L R t k) hplace
  simp only [(div_mod_row hj).1, (div_mod_row hj').1] at hdiv
  simp only [(div_mod_row hj).2, (div_mod_row hj').2] at hmod
  exact ⟨rfl, hdiv, hmod⟩

/-- The offsets of a degree. -/
def starts (L R : FiniteModule) (t : ℤ) : Graded ℕ :=
  Graded.ofList L.minDegree ((List.range (reach L R t + 1)).map (blockStart (width L R t)))

/-- The offsets of a degree are computed from left to right. -/
theorem row_eq (A : Algebra) (t : ℤ) : row (L.toGraded A) (R.toGraded A) t = .ok (starts L R t) := by
  have hloop : ∀ n, ((List.range n).map (leftDegree L)).foldlM (fun x l => do
      let m ← (L.toGraded A).dimension l
      let n ← (R.toGraded A).dimension (t - l)
      (.ok (x.1.push x.2, x.2 + m * n) : Result (Graded ℕ × ℕ))) (Graded.empty L.minDegree, 0) =
      .ok (Graded.ofList L.minDegree ((List.range n).map (blockStart (width L R t))), blockStart (width L R t) n) := by
    intro n
    induction n with
    | zero => rfl
    | succ n ih =>
      rw [List.range_succ, List.map_append, List.foldlM_append, ih]
      refine congrArg Except.ok (Prod.ext ?_ (blockStart_succ _ n).symm)
      simp [Graded.ofList, Graded.push]
  refine Result.bind_eq_ok.mpr ⟨_, hloop (reach L R t), congrArg Except.ok ?_⟩
  simp [starts, Graded.ofList, Graded.push, List.range_succ]

theorem pairs_starts (L R : FiniteModule) (t : ℤ) :
    (starts L R t).pairs = (List.range (reach L R t + 1)).map fun k => (leftDegree L k, blockStart (width L R t) k) := by
  have hsize : (starts L R t).entries.size = reach L R t + 1 := by simp [starts, Graded.ofList]
  rw [Graded.pairs, Graded.degrees, hsize, show (starts L R t).toList = (List.range (reach L R t + 1)).map (blockStart (width L R t)) from rfl,
    List.zip_map']
  rfl

theorem last_starts (L R : FiniteModule) (t : ℤ) : (starts L R t).last?.getD 0 = total L R t := by
  have hlast : (starts L R t).last? = some (blockStart (width L R t) (reach L R t)) := by
    simp [starts, Graded.last?, Graded.ofList, List.range_succ]
  rw [hlast, Option.getD_some, total, blockStart_reach reach_le_span le_rfl]

/-- The last block that starts at a place or before it is the one that the place lies in: later blocks start beyond it, also those that are
empty. -/
theorem find_starts (hk : k < span L) {n : ℕ} (hn : n < width L R t k) :
    ((starts L R t).pairs.dropLast.reverse.find? fun x => x.2 ≤ blockStart (width L R t) k + n) =
      some (leftDegree L k, blockStart (width L R t) k) := by
  have hlt : blockStart (width L R t) k + n < blockStart (width L R t) (k + 1) := by
    rw [blockStart_succ]
    exact Nat.add_lt_add_left hn _
  have hreach : k < reach L R t := by
    by_contra hle
    rw [width_eq_zero (not_lt.mp hle) hk] at hn
    exact absurd hn (Nat.not_lt_zero n)
  have hsplit : List.range (reach L R t) = List.range k ++ k :: (List.range (reach L R t - k - 1)).map (k + 1 + ·) := by
    rw [(by omega : reach L R t = k + 1 + (reach L R t - k - 1)), List.range_add, List.range_succ, List.append_assoc, List.singleton_append]
    congr
    omega
  rw [pairs_starts, List.range_succ, List.map_append, List.map_singleton, List.dropLast_concat, hsplit, List.map_append, List.map_cons,
    List.reverse_append, List.reverse_cons, List.append_assoc, List.find?_append, List.find?_eq_none.mpr, Option.none_or,
    List.singleton_append, List.find?_cons_of_pos]
  · exact decide_eq_true (Nat.le_add_right _ _)
  · intro x hx
    rw [List.mem_reverse, List.map_map] at hx
    obtain ⟨j, _, rfl⟩ := List.mem_map.mp hx
    have hle := blockStart_mono (width L R t) (Nat.le_add_right (k + 1) j)
    rw [decide_eq_true_eq, not_le]
    exact hlt.trans_le hle

/-- A table of the product of `L` and `R`. -/
structure Records (L R : FiniteModule) (T : TensorTable) : Prop where
  minDegree_eq : T.offsets.minDegree = L.minDegree + R.minDegree
  row_eq : ∀ {d : ℤ} {row : Graded ℕ}, T.offsets.get? d = some row → row = starts L R d

theorem records_new (A : Algebra) : Records L R (TensorTable.new (L.toGraded A) (R.toGraded A)) :=
  ⟨rfl, fun h => by simp [TensorTable.new] at h⟩

/-- Extending a table adds rows of the same kind. -/
theorem Records.extend (hT : Records L R T) (h : T.extend (L.toGraded A) (R.toGraded A) t = .ok T') :
    Records L R T' ∧ T'.offsets.nextDegree = max T.offsets.nextDegree (t + 1) := by
  obtain ⟨rows, hrows, heq⟩ := Result.bind_eq_ok.mp h
  obtain rfl := Except.ok.inj heq
  have hall : rows = (GradedModule.degreesBetween T.offsets.nextDegree t).map (starts L R) :=
    Except.ok.inj (hrows.symm.trans (Result.mapM_eq_ok fun d _ => TensorTable.row_eq A d))
  have hfold := Graded.get?_foldl_push T.offsets rows
  refine ⟨⟨(Graded.minDegree_foldl_push T.offsets rows).trans hT.minDegree_eq, fun {d row} hrow => ?_⟩, ?_⟩
  · rw [(hfold d).2] at hrow
    split at hrow
    · exact hT.row_eq hrow
    · next hd =>
      rw [hall, List.getElem?_map, GradedModule.getElem?_degreesBetween] at hrow
      split at hrow
      · rw [Option.map_some, (by omega : T.offsets.nextDegree + ((d - T.offsets.nextDegree).toNat : ℤ) = d)] at hrow
        exact (Option.some.inj hrow).symm
      · cases hrow
  · have hnext := (hfold 0).1
    rw [hall, List.length_map, GradedModule.length_degreesBetween] at hnext
    change (rows.foldl Graded.push T.offsets).nextDegree = _
    rw [hall]
    omega

/-- Extending a table is answered. -/
theorem exists_extend (A : Algebra) (T : TensorTable) (t : ℤ) : ∃ T', T.extend (L.toGraded A) (R.toGraded A) t = .ok T' :=
  ⟨_, Result.bind_eq_ok.mpr ⟨_, Result.mapM_eq_ok fun d _ => row_eq A d, rfl⟩⟩

/-- Every table that was extended some number of times is a table of the product. -/
theorem records_of_foldlM {steps : List (Algebra × ℤ)}
    (h : steps.foldlM (fun T x => T.extend (L.toGraded x.1) (R.toGraded x.1) x.2) (TensorTable.new (L.toGraded A) (R.toGraded A)) = .ok T) :
    Records L R T :=
  Result.foldlM_invariant (fun _ _ _ _ hT hstep => (hT.extend hstep).1) (records_new A) h

section Reading

variable (hT : Records L R T)

include hT

theorem Records.get?_eq (hm : L.minDegree + R.minDegree ≤ t) (ht : t < T.offsets.nextDegree) :
    T.offsets.get? t = some (starts L R t) := by
  obtain ⟨row, hrow⟩ := Option.isSome_iff_exists.mp
    ((Graded.get?_isSome_iff T.offsets t).mpr ⟨hT.minDegree_eq.trans_le hm, ht⟩)
  rw [hrow, hT.row_eq hrow]

theorem Records.offset_eq (hm : L.minDegree + R.minDegree ≤ t) (ht : t < T.offsets.nextDegree) (hk : k ≤ reach L R t) :
    T.offset t (leftDegree L k) = .ok (blockStart (width L R t) k) := by
  unfold leftDegree
  rw [offset, hT.get?_eq hm ht, Option.bind_some, starts, Graded.get?_ofList, if_neg (by omega)]
  refine Result.ofOption_eq_ok.mpr ?_
  rw [List.getElem?_map, List.getElem?_range (by omega), Option.map_some]
  congr
  omega

end Reading

end TensorTable
end Steenrod
