import Steenrod.Proofs.Linear.Elimination
import Steenrod.Proofs.Linear.Reduction
/-!
What row reduction computes. Main statement: the result is the reduced row echelon form, with the pivots and the
rank that come with it; it has the same row space, the sweep through the columns computes it, and matrices of one
shape with the same row space have the same reduced form.
-/
namespace Steenrod

open Vec

def Prime.five : Prime := ⟨5, by decide⟩

namespace Matrix

/-- The entry in row `i` and column `c`, zero outside the matrix. -/
def entry (M : Matrix) (i c : ℕ) : ℕ := (M.rows[i]?.getD (Vec.zero 0)).entry c

/-- The row space. -/
def rowSpan (p : Prime) (M : Matrix) : Submodule p.Field (ℕ → p.Field) := spanOf p M.rows

/-- Row `i` has its first entry in column `c`. -/
def LeadsIn (M : Matrix) (i c : ℕ) : Prop := M.entry i c ≠ 0 ∧ ∀ j < c, M.entry i j = 0

/-- A matrix in reduced row echelon form, with its rank and the row that leads in each column. -/
structure IsReducedForm (p : Prime) (M : Matrix) (rank : ℕ) (pivots : List (Option ℕ)) : Prop where
  proper : M.Proper p
  rank_le : rank ≤ M.height
  length_pivots : pivots.length = M.columns
  leads : ∀ i < rank, ∃ c < M.columns, M.LeadsIn i c
  increasing : ∀ i j c d, i < j → j < rank → M.LeadsIn i c → M.LeadsIn j d → c < d
  one : ∀ i c, i < rank → M.LeadsIn i c → M.entry i c = 1
  cleared : ∀ i c, i < rank → M.LeadsIn i c → ∀ k, k ≠ i → M.entry k c = 0
  zero : ∀ i, rank ≤ i → i < M.height → M.rows[i]? = some (Vec.zero M.columns)
  pivot_iff : ∀ c < M.columns, ∀ i, pivots[c]? = some (some i) ↔ i < rank ∧ M.LeadsIn i c

theorem LeadsIn.unique {M : Matrix} {i c d : ℕ} (hc : M.LeadsIn i c) (hd : M.LeadsIn i d) : c = d := by
  rcases Nat.lt_trichotomy c d with hlt | rfl | hgt
  · exact absurd (hd.2 c hlt) hc.1
  · rfl
  · exact absurd (hc.2 d hgt) hd.1

section Rows

variable {p : Prime} {M : Matrix}

theorem rows_rowReduce (M : Matrix) : (M.rowReduce p).rows =
    (M.rowSpace p).basis ++ List.replicate (M.height - M.rank p) (Vec.zero M.columns) := rfl

theorem echelon_rowSpace (hM : M.Proper p) : Subspace.Echelon p (M.rowSpace p) := Subspace.echelon_span hM

theorem space_rowSpace (hM : M.Proper p) : (M.rowSpace p).space p = M.rowSpan p := Subspace.space_span hM

theorem rank_eq_finrank (hM : M.Proper p) : M.rank p = Module.finrank p.Field (M.rowSpan p) := by
  rw [← space_rowSpace hM, (echelon_rowSpace hM).finrank_space]
  rfl

theorem rank_le_height (hM : M.Proper p) : M.rank p ≤ M.height := by
  obtain ⟨_, _, hrank⟩ := sweep_eq hM
  have hheight := (Sweep.done_sweep hM).height_eq
  omega

@[simp] theorem height_rowReduce (hM : M.Proper p) : (M.rowReduce p).height = M.height := by
  have hle := rank_le_height hM
  have hbasis : (M.rowSpace p).basis.length = M.rank p := List.length_map ..
  rw [height, rows_rowReduce, List.length_append, hbasis, List.length_replicate]
  omega

/-- Row `i` of the reduced form, one that leads. -/
theorem entry_rowReduce_of_lt {i : ℕ} (hi : i < (M.rowSpace p).leads.length) (c : ℕ) :
    (M.rowReduce p).entry i c = ((M.rowSpace p).leads[i]).2.entry c := by
  have hbasis : i < (M.rowSpace p).basis.length := by rw [Subspace.basis, List.length_map]; exact hi
  rw [entry, rows_rowReduce, List.getElem?_append_left hbasis, List.getElem?_eq_getElem hbasis, Option.getD_some]
  simp only [Subspace.basis, List.getElem_map]

theorem row_rowReduce_of_le {i : ℕ} (hi : M.rank p ≤ i) (hheight : i < M.height) :
    (M.rowReduce p).rows[i]? = some (Vec.zero M.columns) := by
  have hbasis : (M.rowSpace p).basis.length = M.rank p := List.length_map ..
  rw [rows_rowReduce, List.getElem?_append_right (by omega), hbasis, List.getElem?_replicate,
    if_pos (by omega)]

theorem entry_rowReduce_of_le {i : ℕ} (hi : M.rank p ≤ i) (c : ℕ) : (M.rowReduce p).entry i c = 0 := by
  have hbasis : (M.rowSpace p).basis.length = M.rank p := List.length_map ..
  rw [entry, rows_rowReduce, List.getElem?_append_right (by omega), hbasis, List.getElem?_replicate]
  split <;> simp

theorem lead_one (hM : M.Proper p) {x : ℕ × Vec} (hx : x ∈ (M.rowSpace p).leads) : x.2.entry x.1 = 1 := by
  have hS := echelon_rowSpace hM
  refine p.eq_of_cast_eq (reduced_iff.mp (hS.proper x hx).reduced x.1) p.two_le ?_
  rw [Nat.cast_one]
  exact hS.leading x hx

theorem lead_before (hM : M.Proper p) {x : ℕ × Vec} (hx : x ∈ (M.rowSpace p).leads) {j : ℕ} (hj : j < x.1) :
    x.2.entry j = 0 :=
  (coords_eq_zero_iff ((echelon_rowSpace hM).proper x hx).reduced).mp ((echelon_rowSpace hM).before x hx j hj)

/-- A row of the reduced form leads in its column and in no other. -/
theorem leadsIn_rowReduce_iff (hM : M.Proper p) {i : ℕ} (hi : i < (M.rowSpace p).leads.length) {c : ℕ} :
    (M.rowReduce p).LeadsIn i c ↔ ((M.rowSpace p).leads[i]).1 = c := by
  have hmem := List.getElem_mem hi
  have hlead : (M.rowReduce p).LeadsIn i ((M.rowSpace p).leads[i]).1 := by
    refine ⟨?_, fun j hj => ?_⟩
    · rw [entry_rowReduce_of_lt hi, lead_one hM hmem]
      exact one_ne_zero
    · rw [entry_rowReduce_of_lt hi, lead_before hM hmem hj]
  exact ⟨hlead.unique, fun hc => hc ▸ hlead⟩

theorem sorted_leads (hM : M.Proper p) {i j : ℕ} (hij : i < j) (hj : j < (M.rowSpace p).leads.length) :
    ((M.rowSpace p).leads[i]).1 < ((M.rowSpace p).leads[j]).1 :=
  List.pairwise_iff_getElem.mp (echelon_rowSpace hM).sorted i j _ hj hij

theorem lead_ne (hM : M.Proper p) {i j : ℕ} (hij : i ≠ j) (hi : i < (M.rowSpace p).leads.length)
    (hj : j < (M.rowSpace p).leads.length) : ((M.rowSpace p).leads[i]).1 ≠ ((M.rowSpace p).leads[j]).1 := by
  rcases Nat.lt_or_gt_of_ne hij with hlt | hgt
  · exact Nat.ne_of_lt (sorted_leads hM hlt hj)
  · exact (Nat.ne_of_lt (sorted_leads hM hgt hi)).symm

/-- In the column where row `i` leads the other rows are zero. -/
theorem entry_cleared (hM : M.Proper p) {i k : ℕ} (hi : i < (M.rowSpace p).leads.length) (hk : k ≠ i) :
    (M.rowReduce p).entry k ((M.rowSpace p).leads[i]).1 = 0 := by
  rcases Nat.lt_or_ge k (M.rowSpace p).leads.length with hlt | hge
  · have hS := echelon_rowSpace hM
    have hmem := List.getElem_mem hlt
    rw [entry_rowReduce_of_lt hlt]
    refine (coords_eq_zero_iff (hS.proper _ hmem).reduced).mp ?_
    exact hS.cleared _ (List.getElem_mem hi) _ hmem (lead_ne hM hk.symm hi hlt)
  · exact entry_rowReduce_of_le hge _

theorem pivots_eq_some_iff (hM : M.Proper p) {c i : ℕ} (hc : c < M.columns) :
    (M.rowSpace p).pivots[c]? = some (some i) ↔
      ∃ hi : i < (M.rowSpace p).leads.length, ((M.rowSpace p).leads[i]).1 = c := by
  have hcolumns : (M.rowSpace p).columns = M.columns := Subspace.columns_span ..
  rw [Subspace.pivots, List.getElem?_map, hcolumns, List.getElem?_range hc, Option.map_some, Option.some.injEq,
    List.findIdx?_eq_some_iff_getElem]
  simp only [beq_iff_eq]
  constructor
  · rintro ⟨hi, hlead, _⟩
    exact ⟨hi, hlead⟩
  · rintro ⟨hi, rfl⟩
    exact ⟨hi, rfl, fun j hj => lead_ne hM (Nat.ne_of_lt hj) (Nat.lt_trans hj hi) hi⟩

/-- Row reduction gives a reduced row echelon form. -/
theorem isReducedForm_rowReduce (hM : M.Proper p) :
    (M.rowReduce p).IsReducedForm p (M.rank p) (M.rowSpace p).pivots := by
  have hS := echelon_rowSpace hM
  have hcolumns : (M.rowSpace p).columns = M.columns := Subspace.columns_span ..
  constructor
  case proper =>
    intro r hr
    rw [rows_rowReduce] at hr
    rcases List.mem_append.mp hr with hr | hr
    · obtain ⟨x, hx, rfl⟩ := List.mem_map.mp hr
      exact hcolumns ▸ hS.proper x hx
    · rw [List.eq_of_mem_replicate hr]
      exact Vec.Proper.zero
  case rank_le =>
    rw [height_rowReduce hM]
    exact rank_le_height hM
  case length_pivots => rw [Subspace.length_pivots, hcolumns]; rfl
  case leads =>
    intro i hi
    refine ⟨(M.rowSpace p).leads[i].1, ?_, (leadsIn_rowReduce_iff hM hi).mpr rfl⟩
    exact hcolumns ▸ hS.lt_columns _ (List.getElem_mem hi)
  case increasing =>
    intro i j c d hij hj hc hd
    have hi : i < M.rank p := Nat.lt_trans hij hj
    rw [← (leadsIn_rowReduce_iff hM hi).mp hc, ← (leadsIn_rowReduce_iff hM hj).mp hd]
    exact sorted_leads hM hij hj
  case one =>
    intro i c hi hc
    rw [← (leadsIn_rowReduce_iff hM hi).mp hc, entry_rowReduce_of_lt hi]
    exact lead_one hM (List.getElem_mem hi)
  case cleared =>
    intro i c hi hc k hk
    rw [← (leadsIn_rowReduce_iff hM hi).mp hc]
    exact entry_cleared hM hi hk
  case zero =>
    intro i hi hheight
    rw [height_rowReduce hM] at hheight
    exact row_rowReduce_of_le hi hheight
  case pivot_iff =>
    intro c hc i
    rw [pivots_eq_some_iff hM hc]
    constructor
    · rintro ⟨hi, hlead⟩
      exact ⟨hi, (leadsIn_rowReduce_iff hM hi).mpr hlead⟩
    · rintro ⟨hi, hlead⟩
      exact ⟨hi, (leadsIn_rowReduce_iff hM hi).mp hlead⟩

theorem rowSpan_rowReduce (hM : M.Proper p) : (M.rowReduce p).rowSpan p = M.rowSpan p := by
  have hzero : spanOf p (List.replicate (M.height - M.rank p) (Vec.zero M.columns)) = ⊥ :=
    spanOf_zero fun v hv => by rw [List.eq_of_mem_replicate hv, coords_zero]
  rw [rowSpan, rows_rowReduce, spanOf_append, hzero, sup_bot_eq, ← Subspace.space_eq_spanOf, space_rowSpace hM]

/-- Matrices of one shape with the same row space have the same reduced form. -/
theorem rowReduce_eq_of_rowSpan_eq {N : Matrix} (hM : M.Proper p) (hN : N.Proper p) (hcolumns : N.columns = M.columns)
    (hheight : N.height = M.height) (hspan : N.rowSpan p = M.rowSpan p) :
    N.rowReduce p = M.rowReduce p ∧ (N.rowSpace p).pivots = (M.rowSpace p).pivots := by
  have hspace : N.rowSpace p = M.rowSpace p := by
    refine (echelon_rowSpace hN).eq_of_space_eq (echelon_rowSpace hM) ?_ ?_
    · rw [rowSpace, rowSpace, Subspace.columns_span, Subspace.columns_span, hcolumns]
    · rw [space_rowSpace hN, space_rowSpace hM, hspan]
  refine ⟨?_, by rw [hspace]⟩
  rw [rowReduce, rowReduce, hspace, hcolumns, hheight]

end Rows

/-- Row reduction computes the canonical reduced row echelon form of a matrix with reduced entries, of any shape,
together with its pivots and its rank; the sweep through the columns does the same, and what comes out depends on
the shape and on the row space only. -/
theorem rowReduce_canonical {p : Prime} {M : Matrix} (hM : M.Proper p) :
    (M.rowReduce p).columns = M.columns ∧ (M.rowReduce p).height = M.height ∧
      (M.rowReduce p).rowSpan p = M.rowSpan p ∧
      (M.rowReduce p).IsReducedForm p (M.rank p) (M.rowSpace p).pivots ∧
      M.rank p = Module.finrank p.Field (M.rowSpan p) ∧
      ((M.sweep p).leads.map (·.2) ++ (M.sweep p).rest = (M.rowReduce p).rows ∧
        (M.sweep p).pivots = (M.rowSpace p).pivots ∧ (M.sweep p).leads.length = M.rank p) ∧
      ∀ N : Matrix, N.Proper p → N.columns = M.columns → N.height = M.height → N.rowSpan p = M.rowSpan p →
        N.rowReduce p = M.rowReduce p ∧ (N.rowSpace p).pivots = (M.rowSpace p).pivots :=
  ⟨rfl, height_rowReduce hM, rowSpan_rowReduce hM, isReducedForm_rowReduce hM, rank_eq_finrank hM, sweep_eq hM,
    fun _ hN hcolumns hheight hspan => rowReduce_eq_of_rowSpan_eq hM hN hcolumns hheight hspan⟩

/-- Three rows over the field of five elements, the last of them a combination of the others. -/
def threeRows : Matrix := ⟨3, [⟨#[0, 2, 4]⟩, ⟨#[3, 1, 0]⟩, ⟨#[3, 0, 3]⟩]⟩

theorem threeRows_proper : threeRows.Proper Prime.five := by
  have hrows : ∀ r ∈ threeRows.rows, r.size = 3 ∧ ∀ x ∈ r.entries, x < 5 := by decide
  exact fun r hr => ⟨(hrows r hr).1, (hrows r hr).2⟩

theorem rowReduce_canonical_threeRows :
    threeRows.Proper Prime.five ∧
      (threeRows.rowReduce Prime.five).rows = [⟨#[1, 0, 1]⟩, ⟨#[0, 1, 2]⟩, ⟨#[0, 0, 0]⟩] ∧
      (threeRows.rowReduce Prime.five).IsReducedForm Prime.five 2 [some 0, some 1, none] ∧
      Module.finrank Prime.five.Field (threeRows.rowSpan Prime.five) = 2 := by
  obtain ⟨_, _, _, hform, hrank, _, _⟩ := rowReduce_canonical threeRows_proper
  have hrows : (threeRows.rowReduce Prime.five).rows = [⟨#[1, 0, 1]⟩, ⟨#[0, 1, 2]⟩, ⟨#[0, 0, 0]⟩] := by
    decide +kernel
  have htwo : threeRows.rank Prime.five = 2 := by decide +kernel
  have hpivots : (threeRows.rowSpace Prime.five).pivots = [some 0, some 1, none] := by decide +kernel
  rw [htwo, hpivots] at hform
  exact ⟨threeRows_proper, hrows, hform, hrank.symm.trans htwo⟩

end Matrix
end Steenrod
