import Steenrod.Proofs.Linear.ReducedForm
/-!
Subspaces that are gathered from vectors given one after the other. Main statements: whatever calls led to it, a subspace keeps
the reduced echelon basis of the span of all that was given; it tells the vectors of the span from the others, and two subspaces
are equal exactly if they have the same vectors.
-/
namespace Steenrod
namespace Subspace

open Vec

variable {p : Prime} {S T : Subspace} {n m : ℕ} {given given' : List Vec} {v w : Vec}

/-- The subspaces that calls with vectors of size `n` lead to, and all the vectors given on the way. -/
inductive Gathered (p : Prime) (n : ℕ) : List Vec → Subspace → Prop
  | empty : Gathered p n [] (Subspace.empty n)
  | entire : Gathered p n ((List.range n).map (Vec.unit n)) (Subspace.entire n)
  | ofRows {rows : List Vec} {S : Subspace} (hrows : ∀ v ∈ rows, Proper p n v) (h : ofRows? p n rows = some S) :
    Gathered p n rows S
  | insert {given : List Vec} {S T : Subspace} {v : Vec} {grew : Bool} (hS : Gathered p n given S) (hv : Proper p n v)
    (h : S.insert? p v = some (grew, T)) : Gathered p n (given ++ [v]) T

/-- The rows of a subspace as a matrix. -/
def matrix (S : Subspace) : Matrix := ⟨S.columns, S.basis⟩

theorem insert_of_isZero (S : Subspace) (h : (S.reduce p v).isZero = true) : S.insert p v = S := by
  rw [insert_eq, firstNonzero?_eq_none.mpr h]

theorem dimension_insert (S : Subspace) (h : (S.reduce p v).isZero = false) : (S.insert p v).dimension = S.dimension + 1 := by
  rw [insert_eq]
  split
  · next hnone => exact absurd (firstNonzero?_eq_none.mp hnone) (Bool.eq_false_iff.mp h)
  · simp only [dimension, length_place, clearWith, List.length_map]

namespace Echelon

theorem covers (h : Echelon p S) (hv : Proper p S.columns v) : S.covers v = true := by
  refine List.all_eq_true.mpr fun x hx => decide_eq_true ?_
  rw [hv.size_eq]
  exact h.lt_columns x hx

theorem reduce?_eq (h : Echelon p S) (hv : Proper p S.columns v) : S.reduce? p v = some (S.reduce p v) := by
  rw [reduce?, if_pos (h.covers hv)]

theorem contains?_eq (h : Echelon p S) (hv : Proper p S.columns v) : S.contains? p v = some (S.reduce p v).isZero := by
  rw [contains?, h.reduce?_eq hv, Option.map_some]

theorem contains?_iff (h : Echelon p S) (hv : Proper p S.columns v) :
    S.contains? p v = some true ↔ v.coords p ∈ S.space p := by
  rw [h.contains?_eq hv, Option.some.injEq, h.isZero_reduce_iff hv]

theorem insert?_eq (h : Echelon p S) (hv : Proper p S.columns v) :
    S.insert? p v = some (!(S.reduce p v).isZero, S.insert p v) := by
  rw [insert?, h.reduce?_eq hv]
  cases hzero : (S.reduce p v).isZero
  · simp [hzero]
  · simp [hzero, insert_of_isZero S hzero]

/-- Vectors reduce to the same exactly if they differ by an element of the span. -/
theorem reduce_eq_iff (h : Echelon p S) (hv : Proper p S.columns v) (hw : Proper p S.columns w) :
    S.reduce p v = S.reduce p w ↔ v.coords p - w.coords p ∈ S.space p := by
  have hcoords : (S.reduce p v).coords p = (S.reduce p w).coords p ↔ v.coords p - w.coords p ∈ S.space p := by
    rw [h.coords_reduce hv, h.coords_reduce hw, h.mem_space_iff, map_sub, sub_eq_sub_iff_sub_eq_sub]
    exact eq_comm
  refine Iff.trans ⟨fun heq => by rw [heq], fun heq => ?_⟩ hcoords
  exact (h.proper_reduce hv).ext (h.proper_reduce hw) heq

theorem matrix_proper (h : Echelon p S) : S.matrix.Proper p := by
  intro r hr
  obtain ⟨x, hx, rfl⟩ := List.mem_map.mp hr
  exact h.proper x hx

/-- Row reduction finds the rows of a subspace again. -/
theorem rowSpace_matrix (h : Echelon p S) : S.matrix.rowSpace p = S := by
  refine (Matrix.echelon_rowSpace h.matrix_proper).eq_of_space_eq h (columns_span p _ _) ?_
  rw [Matrix.space_rowSpace h.matrix_proper, space_eq_spanOf]
  rfl

theorem rowReduce_matrix (h : Echelon p S) : S.matrix.rowReduce p = S.matrix := by
  have hheight : S.matrix.height - S.dimension = 0 := by simp [Matrix.height, matrix, basis, dimension]
  rw [Matrix.rowReduce, h.rowSpace_matrix, hheight, List.replicate_zero, List.append_nil]
  rfl

theorem isReducedForm (h : Echelon p S) : S.matrix.IsReducedForm p S.dimension S.pivots := by
  have hform := Matrix.isReducedForm_rowReduce h.matrix_proper
  rwa [h.rowReduce_matrix, Matrix.rank, h.rowSpace_matrix] at hform

theorem entry_reduce (h : Echelon p S) (hv : Proper p S.columns v) {c i : ℕ} (hc : S.pivots[c]? = some (some i)) :
    (S.reduce p v).entry c = 0 := by
  obtain ⟨d, hd, hfind⟩ := Option.map_eq_some_iff.mp (List.getElem?_map (i := c) ▸ hc)
  obtain ⟨_, rfl⟩ := List.getElem?_eq_some_iff.mp hd
  rw [List.getElem_range] at hfind
  obtain ⟨hi, hlead, _⟩ := List.findIdx?_eq_some_iff_getElem.mp hfind
  rw [← beq_iff_eq.mp hlead]
  exact (coords_eq_zero_iff (h.proper_reduce hv).reduced).mp (h.coords_reduce_lead hv (List.getElem_mem hi))

/-- Elimination, after what is left of a new vector was put below the rows, leads to the rows with the vector inserted. -/
theorem rowReduce_pushRow (h : Echelon p S) (hv : Proper p S.columns v) (hne : (S.reduce p v).isZero = false) :
    (S.matrix.pushRow (S.reduce p v)).rowReduce p = (S.insert p v).matrix := by
  have hproper : (S.matrix.pushRow (S.reduce p v)).Proper p := by
    intro r hr
    rcases List.mem_append.mp hr with hr | hr
    · exact h.matrix_proper r hr
    · exact List.mem_singleton.mp hr ▸ h.proper_reduce hv
  have hsame : S.insert p (S.reduce p v) = S.insert p v := by
    have hdiff : (S.reduce p v).coords p - v.coords p ∈ S.space p := by
      rw [h.coords_reduce hv, sub_sub_cancel_left]
      exact Submodule.neg_mem _ (expand_mem S.leads _)
    rw [insert_eq, insert_eq, (h.reduce_eq_iff (h.proper_reduce hv) hv).mpr hdiff]
  have hspace : (S.matrix.pushRow (S.reduce p v)).rowSpace p = S.insert p v := by
    refine (Matrix.echelon_rowSpace hproper).eq_of_space_eq (h.insert hv) ?_ ?_
    · rw [columns_insert]
      exact columns_span p _ _
    · rw [Matrix.space_rowSpace hproper, ← hsame, h.space_insert (h.proper_reduce hv), space_eq_spanOf, Matrix.rowSpan]
      exact (spanOf_append S.basis [S.reduce p v]).trans (congrArg _ (by simp [spanOf]))
  have hheight : (S.matrix.pushRow (S.reduce p v)).height - (S.insert p v).dimension = 0 := by
    rw [dimension_insert S hne]
    simp [Matrix.height, Matrix.pushRow, matrix, basis, dimension]
  rw [Matrix.rowReduce, hspace, hheight, List.replicate_zero, List.append_nil]
  exact congrArg (Matrix.mk · _) (columns_insert p S v).symm

end Echelon

/-- The reduced echelon basis of the span of what was given. -/
structure Spans (p : Prime) (n : ℕ) (given : List Vec) (S : Subspace) : Prop where
  proper : ∀ v ∈ given, Proper p n v
  columns_eq : S.columns = n
  echelon : S.Echelon p
  space_eq : S.space p = spanOf p given

namespace Spans

theorem insert (h : Spans p n given S) (hv : Proper p n v) : Spans p n (given ++ [v]) (S.insert p v) where
  proper u hu := by
    rcases List.mem_append.mp hu with hu | hu
    · exact h.proper u hu
    · exact List.mem_singleton.mp hu ▸ hv
  columns_eq := (columns_insert p S v).trans h.columns_eq
  echelon := h.echelon.insert (h.columns_eq.symm ▸ hv)
  space_eq := by
    have hsingle : spanOf p [v] = Submodule.span p.Field {v.coords p} := by simp [spanOf]
    rw [h.echelon.space_insert (h.columns_eq.symm ▸ hv), h.space_eq, spanOf_append, hsingle]

end Spans

/-- No call leaves the reduced echelon form, and each adds what it was given to the span. -/
theorem Gathered.spans (h : Gathered p n given S) : Spans p n given S := by
  induction h with
  | empty =>
    exact ⟨fun v hv => absurd hv (List.not_mem_nil), rfl, echelon_empty n, by rw [space_empty, spanOf_zero]; simp⟩
  | entire =>
    refine ⟨fun v hv => ?_, rfl, echelon_entire n, ?_⟩
    · obtain ⟨i, _, rfl⟩ := List.mem_map.mp hv
      exact proper_unit n i
    · rw [space_eq_spanOf]
      simp [basis, Subspace.entire, Function.comp_def]
  | @ofRows rows S hrows h =>
    have hsizes : rows.all (·.size == n) = true := by
      refine List.all_eq_true.mpr fun v hv => ?_
      rw [(hrows v hv).size_eq, beq_self_eq_true]
    rw [ofRows?, if_pos hsizes] at h
    obtain rfl := Option.some.inj h
    exact ⟨hrows, columns_span p n rows, echelon_span hrows, space_span hrows⟩
  | insert _ hv h ih =>
    rw [ih.echelon.insert?_eq (ih.columns_eq.symm ▸ hv)] at h
    obtain ⟨_, rfl⟩ := Prod.mk.inj (Option.some.inj h)
    exact ih.insert hv

namespace Spans

/-- The vectors of a subspace are those of the span. -/
theorem contains?_iff (h : Spans p n given S) (hv : Proper p n v) :
    S.contains? p v = some true ↔ v.coords p ∈ spanOf p given := by
  rw [h.echelon.contains?_iff (h.columns_eq.symm ▸ hv), h.space_eq]

/-- In one go elimination finds the same basis. -/
theorem rowSpace_eq (h : Spans p n given S) : (Matrix.mk n given).rowSpace p = S := by
  have hproper : (Matrix.mk n given).Proper p := h.proper
  refine (Matrix.echelon_rowSpace hproper).eq_of_space_eq h.echelon ((columns_span p n given).trans h.columns_eq.symm) ?_
  rw [Matrix.space_rowSpace hproper, h.space_eq]
  rfl

/-- Subspaces with the same vectors are equal. -/
theorem eq_iff (hS : Spans p n given S) (hT : Spans p m given' T) : S = T ↔ ∀ v,
    (Proper p n v ∧ S.contains? p v = some true ↔ Proper p m v ∧ T.contains? p v = some true) := by
  constructor
  · rintro rfl v
    rw [hS.columns_eq.symm.trans hT.columns_eq]
  · intro hsame
    -- The zero vector gives away the size of the vectors.
    have hzero : S.contains? p (Vec.zero n) = some true := by
      rw [hS.contains?_iff Proper.zero, coords_zero]
      exact Submodule.zero_mem _
    obtain ⟨hproper, _⟩ := (hsame (Vec.zero n)).mp ⟨Proper.zero, hzero⟩
    obtain rfl : n = m := (size_zero n).symm.trans hproper.size_eq
    have hmem : ∀ f ∈ p.space n, (f ∈ S.space p ↔ f ∈ T.space p) := by
      intro f hf
      obtain ⟨v, hv, rfl⟩ := exists_proper hf
      have hv' := hsame v
      rw [hS.contains?_iff hv, hT.contains?_iff hv, ← hS.space_eq, ← hT.space_eq] at hv'
      exact ⟨fun h => (hv'.mp ⟨hv, h⟩).2, fun h => (hv'.mpr ⟨hv, h⟩).2⟩
    refine hS.echelon.eq_of_space_eq hT.echelon (hS.columns_eq.trans hT.columns_eq.symm)
      (le_antisymm (fun f hf => ?_) fun f hf => ?_)
    · exact (hmem f (hS.columns_eq ▸ hS.echelon.space_le hf)).mp hf
    · exact (hmem f (hT.columns_eq ▸ hT.echelon.space_le hf)).mpr hf

end Spans

/-- A subspace is a faithful representation of the span of what was given, whatever calls led to it: its rows are the reduced
echelon basis, it contains the vectors of the span, another vector makes it grow by one dimension exactly if the span misses it,
vectors reduce to the same exactly if they differ by an element of the span, and what they reduce to is zero where a row leads.
Subspaces with the same vectors are equal. -/
theorem gathered_faithful (h : Gathered p n given S) :
    (S.columns = n ∧ S.matrix.IsReducedForm p S.dimension S.pivots ∧ S.matrix.rowSpan p = spanOf p given ∧
      S.dimension = Module.finrank p.Field (spanOf p given) ∧ (Matrix.mk n given).rowSpace p = S ∧
      ∀ T, Echelon p T → T.columns = n → T.space p = spanOf p given → T = S) ∧
    (∀ v, Proper p n v →
      (∃ b, S.contains? p v = some b ∧ (b = true ↔ v.coords p ∈ spanOf p given)) ∧
      (∃ grew T, S.insert? p v = some (grew, T) ∧ (grew = true ↔ v.coords p ∉ spanOf p given) ∧
        (grew = true → T.dimension = S.dimension + 1 ∧ (S.matrix.pushRow (S.reduce p v)).rowReduce p = T.matrix) ∧
        (grew = false → T = S)) ∧
      (∃ r, S.reduce? p v = some r ∧ Proper p n r ∧ ∀ c i, S.pivots[c]? = some (some i) → r.entry c = 0) ∧
      ∀ w, Proper p n w → (S.reduce? p v = S.reduce? p w ↔ v.coords p - w.coords p ∈ spanOf p given)) ∧
    ∀ m given' T, Gathered p m given' T →
      (S = T ↔ ∀ v, (Proper p n v ∧ S.contains? p v = some true ↔ Proper p m v ∧ T.contains? p v = some true)) := by
  have hS := h.spans
  obtain ⟨hgiven, rfl, hechelon, hspace⟩ := h.spans
  refine ⟨⟨rfl, hechelon.isReducedForm, ?_, ?_, hS.rowSpace_eq, fun T hT hcolumns hspan => ?_⟩,
    fun v hv => ⟨?_, ?_, ?_, fun w hw => ?_⟩, fun m given' T hT => hS.eq_iff hT.spans⟩
  · rw [← hspace, space_eq_spanOf]
    rfl
  · rw [← hspace, hechelon.finrank_space]
  · exact hT.eq_of_space_eq hechelon hcolumns (hspan.trans hspace.symm)
  · exact ⟨_, hechelon.contains?_eq hv, by rw [hechelon.isZero_reduce_iff hv, hspace]⟩
  · refine ⟨_, _, hechelon.insert?_eq hv, ?_, fun hgrew => ?_, fun hgrew => ?_⟩
    · rw [Bool.not_eq_true', ← Bool.not_eq_true, hechelon.isZero_reduce_iff hv, hspace]
    · have hne : (S.reduce p v).isZero = false := by simpa using hgrew
      exact ⟨dimension_insert S hne, hechelon.rowReduce_pushRow hv hne⟩
    · exact insert_of_isZero S (by simpa using hgrew)
  · exact ⟨_, hechelon.reduce?_eq hv, hechelon.proper_reduce hv, fun c i hc => hechelon.entry_reduce hv hc⟩
  · rw [hechelon.reduce?_eq hv, hechelon.reduce?_eq hw, Option.some.injEq, hechelon.reduce_eq_iff hv hw, hspace]

theorem gathered_threeRows :
    Gathered Prime.five 3 (Matrix.threeRows.rows ++ [Vec.unit 3 2]) (Subspace.entire 3) ∧
      Module.finrank Prime.five.Field (spanOf Prime.five (Matrix.threeRows.rows ++ [Vec.unit 3 2])) = 3 := by
  have hrows : ofRows? Prime.five 3 Matrix.threeRows.rows = some (span Prime.five 3 Matrix.threeRows.rows) := by decide +kernel
  have hinsert : (span Prime.five 3 Matrix.threeRows.rows).insert? Prime.five (Vec.unit 3 2) =
      some (true, Subspace.entire 3) := by decide +kernel
  have hentire := Gathered.insert (Gathered.ofRows Matrix.threeRows_proper hrows) (proper_unit 3 2) hinsert
  obtain ⟨⟨_, _, _, hdimension, _⟩, _⟩ := gathered_faithful hentire
  exact ⟨hentire, hdimension.symm.trans rfl⟩

end Subspace
end Steenrod
