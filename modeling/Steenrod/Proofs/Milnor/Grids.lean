import Steenrod.Proofs.Milnor.Matrices
/-!
Matrices with the budgets of their rows and columns in the border. Filling the cells one after the other, with every value that the
budgets allow, lists the matrices with these budgets. Main statements: each matrix is listed, and once; row by row this is the
enumeration that products run over; the sums and the coefficient of a matrix are those of its antidiagonals.
-/
namespace Steenrod

open Finset.HasAntidiagonal (antidiagonal mem_antidiagonal)

namespace Milnor

/-- A matrix. What is outside of its shape is zero. -/
abbrev Grid := ℕ → ℕ → ℕ

namespace Grid

/-- Change one entry. -/
def set (m : Grid) (i j v : ℕ) : Grid := fun a b => if a = i ∧ b = j then v else m a b

/-- Give `v` to the cell in row `i` and column `j`, from the budgets of the row and of the column. -/
def take (p : ℕ) (m : Grid) (i j v : ℕ) : Grid := ((m.set i j v).set i 0 (m i 0 - v * p ^ j)).set 0 j (m 0 j - v)

/-- All ways to fill cells one after the other. -/
def fills (p : ℕ) : List (ℕ × ℕ) → Grid → List Grid
  | [], m => [m]
  | c :: cells, m =>
    (List.range (min (m c.1 0 / p ^ c.2) (m 0 c.2) + 1)).flatMap fun v => fills p cells (m.take p c.1 c.2 v)

/-- What cells take from the budget of row `i`. -/
def rowUse (p : ℕ) (cells : List (ℕ × ℕ)) (x : Grid) (i : ℕ) : ℕ :=
  (cells.map fun c => if c.1 = i then p ^ c.2 * x c.1 c.2 else 0).sum

/-- What cells take from the budget of column `j`. -/
def columnUse (cells : List (ℕ × ℕ)) (x : Grid) (j : ℕ) : ℕ := (cells.map fun c => if c.2 = j then x c.1 c.2 else 0).sum

/-- `x` arises from `m` by filling cells from the budgets. -/
structure Completes (p : ℕ) (cells : List (ℕ × ℕ)) (m x : Grid) : Prop where
  corner : x 0 0 = m 0 0
  fixed : ∀ i j, (i, j) ∉ cells → 0 < i → 0 < j → x i j = m i j
  row : ∀ i, 0 < i → m i 0 = x i 0 + rowUse p cells x i
  column : ∀ j, 0 < j → m 0 j = x 0 j + columnUse cells x j

section Fills

variable {p i j a b v : ℕ} {m x : Grid} {cells : List (ℕ × ℕ)}

@[simp] theorem set_self (m : Grid) (i j v : ℕ) : m.set i j v i j = v := if_pos ⟨rfl, rfl⟩

theorem set_of_ne (h : ¬(a = i ∧ b = j)) : m.set i j v a b = m a b := if_neg h

theorem set_eq_self (h : m i j = v) : m.set i j v = m := by
  funext a b
  by_cases hab : a = i ∧ b = j
  · rw [hab.1, hab.2, set_self, h]
  · exact set_of_ne hab

@[simp] theorem set_set (m : Grid) (i j v w : ℕ) : (m.set i j v).set i j w = m.set i j w := by
  funext a b
  by_cases hab : a = i ∧ b = j
  · rw [hab.1, hab.2, set_self, set_self]
  · rw [set_of_ne hab, set_of_ne hab, set_of_ne hab]

theorem take_apply (p : ℕ) (m : Grid) (i j v a b : ℕ) : m.take p i j v a b =
    if a = 0 ∧ b = j then m 0 j - v else if a = i ∧ b = 0 then m i 0 - v * p ^ j else if a = i ∧ b = j then v else m a b := rfl

theorem take_cell (hi : 0 < i) (hj : 0 < j) : m.take p i j v i j = v := by
  rw [take_apply, if_neg (by omega), if_neg (by omega), if_pos ⟨rfl, rfl⟩]

theorem take_row (hj : 0 < j) (a : ℕ) : m.take p i j v a 0 = if a = i then m i 0 - v * p ^ j else m a 0 := by
  rw [take_apply, if_neg (by omega)]
  by_cases ha : a = i
  · rw [if_pos ⟨ha, rfl⟩, if_pos ha]
  · rw [if_neg (by omega), if_neg (by omega), if_neg ha]

theorem take_column (hi : 0 < i) (b : ℕ) : m.take p i j v 0 b = if b = j then m 0 j - v else m 0 b := by
  rw [take_apply]
  by_cases hb : b = j
  · rw [if_pos ⟨rfl, hb⟩, if_pos hb]
  · rw [if_neg (by omega), if_neg (by omega), if_neg (by omega), if_neg hb]

theorem take_inner (ha : 0 < a) (hb : 0 < b) (hab : (a, b) ≠ (i, j)) : m.take p i j v a b = m a b := by
  rw [take_apply, if_neg (by omega), if_neg (by omega), if_neg fun h => hab (Prod.ext h.1 h.2)]

theorem rowUse_cons (a b : ℕ) (cells : List (ℕ × ℕ)) (x : Grid) (i : ℕ) :
    rowUse p ((a, b) :: cells) x i = (if a = i then p ^ b * x a b else 0) + rowUse p cells x i := by
  rw [rowUse, List.map_cons, List.sum_cons, rowUse]

theorem columnUse_cons (a b : ℕ) (cells : List (ℕ × ℕ)) (x : Grid) (j : ℕ) :
    columnUse ((a, b) :: cells) x j = (if b = j then x a b else 0) + columnUse cells x j := by
  rw [columnUse, List.map_cons, List.sum_cons, columnUse]

theorem completes_nil : Completes p [] m x ↔ x = m := by
  constructor
  · intro h
    funext a b
    rcases Nat.eq_zero_or_pos a with rfl | ha <;> rcases Nat.eq_zero_or_pos b with rfl | hb
    · exact h.corner
    · exact (h.column b hb).symm
    · exact (h.row a ha).symm
    · exact h.fixed a b (by simp) ha hb
  · rintro rfl
    exact ⟨rfl, fun _ _ _ _ _ => rfl, fun _ _ => rfl, fun _ _ => rfl⟩

/-- The value of the first cell comes off the budgets, and the others are filled from what is left. -/
theorem completes_cons (hi : 0 < i) (hj : 0 < j) (hcells : (i, j) ∉ cells) :
    Completes p ((i, j) :: cells) m x ↔ ∃ v, v * p ^ j ≤ m i 0 ∧ v ≤ m 0 j ∧ Completes p cells (m.take p i j v) x := by
  constructor
  · intro h
    have hrow := h.row i hi
    have hcolumn := h.column j hj
    rw [rowUse_cons, if_pos rfl, Nat.mul_comm (p ^ j)] at hrow
    rw [columnUse_cons, if_pos rfl] at hcolumn
    refine ⟨x i j, by omega, by omega, ?_, fun a b hab ha hb => ?_, fun a ha => ?_, fun b hb => ?_⟩
    · rw [h.corner, take_row hj, if_neg (by omega)]
    · by_cases hcell : (a, b) = (i, j)
      · obtain ⟨rfl, rfl⟩ := Prod.mk.inj hcell
        rw [take_cell ha hb]
      · rw [take_inner ha hb hcell]
        exact h.fixed a b (by simp [hcell, hab]) ha hb
    · rw [take_row hj]
      split
      · next hai =>
        subst hai
        omega
      · next hai =>
        have hother := h.row a ha
        rwa [rowUse_cons, if_neg (Ne.symm hai), Nat.zero_add] at hother
    · rw [take_column hi]
      split
      · next hbj =>
        subst hbj
        omega
      · next hbj =>
        have hother := h.column b hb
        rwa [columnUse_cons, if_neg (Ne.symm hbj), Nat.zero_add] at hother
  · rintro ⟨v, hvrow, hvcolumn, h⟩
    have hcell : x i j = v := by rw [h.fixed i j hcells hi hj, take_cell hi hj]
    refine ⟨?_, fun a b hab ha hb => ?_, fun a ha => ?_, fun b hb => ?_⟩
    · rw [h.corner, take_row hj, if_neg (by omega)]
    · rw [List.mem_cons, not_or] at hab
      rw [h.fixed a b hab.2 ha hb, take_inner ha hb hab.1]
    · have hrow := h.row a ha
      rw [take_row hj] at hrow
      rw [rowUse_cons, hcell, Nat.mul_comm (p ^ j)]
      split at hrow
      · next hai =>
        subst hai
        rw [if_pos rfl]
        omega
      · next hai => rw [if_neg (Ne.symm hai), Nat.zero_add, hrow]
    · have hcolumn := h.column b hb
      rw [take_column hi] at hcolumn
      rw [columnUse_cons, hcell]
      split at hcolumn
      · next hbj =>
        subst hbj
        rw [if_pos rfl]
        omega
      · next hbj => rw [if_neg (Ne.symm hbj), Nat.zero_add, hcolumn]

/-- The cells are different ones, and none is in the border. -/
structure Inner (cells : List (ℕ × ℕ)) : Prop where
  nodup : cells.Nodup
  pos : ∀ c ∈ cells, 0 < c.1 ∧ 0 < c.2

theorem Inner.tail {c : ℕ × ℕ} (h : Inner (c :: cells)) : Inner cells :=
  ⟨(List.nodup_cons.mp h.nodup).2, fun d hd => h.pos d (List.mem_cons_of_mem _ hd)⟩

/-- What is listed are the matrices that arise from the budgets. -/
theorem mem_fills (hp : 0 < p) (hcells : Inner cells) : x ∈ fills p cells m ↔ Completes p cells m x := by
  induction cells generalizing m with
  | nil => rw [fills, List.mem_singleton, completes_nil]
  | cons c cells ih =>
    obtain ⟨hi, hj⟩ := hcells.pos c (by simp)
    rw [fills, List.mem_flatMap, completes_cons hi hj (List.nodup_cons.mp hcells.nodup).1]
    refine exists_congr fun v => ?_
    rw [ih hcells.tail, List.mem_range, Nat.lt_succ_iff, Nat.le_min, Nat.le_div_iff_mul_le (Nat.pow_pos hp), and_assoc]

/-- No matrix is listed twice: those with different values in a cell differ there. -/
theorem nodup_fills (hp : 0 < p) (hcells : Inner cells) : (fills p cells m).Nodup := by
  induction cells generalizing m with
  | nil => exact List.nodup_singleton m
  | cons c cells ih =>
    obtain ⟨hi, hj⟩ := hcells.pos c (by simp)
    refine List.nodup_flatMap.mpr ⟨fun v _ => ih hcells.tail, List.nodup_range.imp fun {v w} hne x hv hw => hne ?_⟩
    have hcell := (List.nodup_cons.mp hcells.nodup).1
    have hxv := ((mem_fills hp hcells.tail).mp hv).fixed _ _ hcell hi hj
    have hxw := ((mem_fills hp hcells.tail).mp hw).fixed _ _ hcell hi hj
    rw [take_cell hi hj] at hxv hxw
    exact hxv.symm.trans hxw

end Fills

/-- The cells of the rows after row `i`. -/
def cellsBelow (i rows columns : ℕ) : List (ℕ × ℕ) :=
  (List.range' (i + 1) rows).flatMap fun a => (List.range' 1 columns).map fun b => (a, b)

/-- The budgets of `R` and `S` in the border of an empty matrix. -/
def start (R S : List ℕ) : Grid
  | 0, 0 => 0
  | i + 1, 0 => R[i]?.getD 0
  | 0, j + 1 => S[j]?.getD 0
  | _ + 1, _ + 1 => 0

end Grid

/-- A matrix of Milnor's formula for `R` and `S`: `r_i = x_i0 + Σ_j p^j x_ij` and `s_j = x_0j + Σ_i x_ij`. -/
structure IsMatrixFor (p : ℕ) (R S : List ℕ) (x : ℕ → ℕ → ℕ) : Prop where
  corner : x 0 0 = 0
  outside : ∀ i j, R.length < i ∨ S.length < j → x i j = 0
  row : ∀ i (_ : i < R.length), R[i] = x (i + 1) 0 + ∑ j ∈ Finset.Icc 1 S.length, p ^ j * x (i + 1) j
  column : ∀ j (_ : j < S.length), S[j] = x 0 (j + 1) + ∑ i ∈ Finset.Icc 1 R.length, x i (j + 1)

namespace Grid

section Cells

variable {p i j a b rows columns : ℕ} {m x : Grid} {R S : List ℕ}

theorem mem_cellsBelow : (a, b) ∈ cellsBelow i rows columns ↔ (i < a ∧ a ≤ i + rows) ∧ 0 < b ∧ b ≤ columns := by
  simp only [cellsBelow, List.mem_flatMap, List.mem_map, Prod.mk.injEq, List.mem_range'_1]
  constructor
  · rintro ⟨a, ha, b, hb, rfl, rfl⟩
    omega
  · rintro ⟨ha, hb⟩
    exact ⟨a, by omega, b, by omega, rfl, rfl⟩

theorem inner_cellsBelow (i rows columns : ℕ) : Inner (cellsBelow i rows columns) := by
  constructor
  · refine List.nodup_flatMap.mpr ⟨fun a _ => (List.nodup_range' 1).map fun b c h => (Prod.mk.inj h).2, ?_⟩
    refine (List.nodup_range' 1).imp fun {a a'} hne x hx hx' => hne ?_
    obtain ⟨b, _, rfl⟩ := List.mem_map.mp hx
    obtain ⟨b', _, h⟩ := List.mem_map.mp hx'
    exact (Prod.mk.inj h).1.symm
  · rintro ⟨a, b⟩ hc
    obtain ⟨ha, hb⟩ := mem_cellsBelow.mp hc
    exact ⟨by omega, hb.1⟩

theorem toFinset_cellsBelow (rows columns : ℕ) :
    (cellsBelow 0 rows columns).toFinset = Finset.Icc 1 rows ×ˢ Finset.Icc 1 columns := by
  ext ⟨a, b⟩
  rw [List.mem_toFinset, mem_cellsBelow, Finset.mem_product, Finset.mem_Icc, Finset.mem_Icc]
  omega

theorem rowUse_cellsBelow (x : Grid) (i : ℕ) : rowUse p (cellsBelow 0 rows columns) x i =
    if i ∈ Finset.Icc 1 rows then ∑ j ∈ Finset.Icc 1 columns, p ^ j * x i j else 0 := by
  rw [rowUse, ← List.sum_toFinset _ (inner_cellsBelow 0 rows columns).nodup, toFinset_cellsBelow, Finset.sum_product]
  rw [← Finset.sum_ite_eq' (Finset.Icc 1 rows) i fun a => ∑ j ∈ Finset.Icc 1 columns, p ^ j * x a j]
  refine Finset.sum_congr rfl fun a _ => ?_
  by_cases ha : a = i <;> simp [ha]

theorem columnUse_cellsBelow (x : Grid) (j : ℕ) : columnUse (cellsBelow 0 rows columns) x j =
    if j ∈ Finset.Icc 1 columns then ∑ i ∈ Finset.Icc 1 rows, x i j else 0 := by
  rw [columnUse, ← List.sum_toFinset _ (inner_cellsBelow 0 rows columns).nodup, toFinset_cellsBelow, Finset.sum_product_right]
  rw [← Finset.sum_ite_eq' (Finset.Icc 1 columns) j fun b => ∑ i ∈ Finset.Icc 1 rows, x i b]
  refine Finset.sum_congr rfl fun b _ => ?_
  by_cases hb : b = j <;> simp [hb]

theorem start_outside (h : R.length < i ∨ S.length < j) : start R S i j = 0 := by
  cases i with
  | zero =>
    cases j with
    | zero => rfl
    | succ j => rw [start, List.getElem?_eq_none (by omega), Option.getD_none]
  | succ i =>
    cases j with
    | zero => rw [start, List.getElem?_eq_none (by omega), Option.getD_none]
    | succ j => rfl

/-- The matrices that arise from `R` and `S` as budgets are those of Milnor's formula. -/
theorem completes_start : Completes p (cellsBelow 0 R.length S.length) (start R S) x ↔ IsMatrixFor p R S x := by
  constructor
  · intro h
    refine ⟨h.corner, fun i j hout => ?_, fun i hi => ?_, fun j hj => ?_⟩
    · have hzero := start_outside hout
      rcases Nat.eq_zero_or_pos i with rfl | hi <;> rcases Nat.eq_zero_or_pos j with rfl | hj
      · exact h.corner
      · have hcolumn := h.column j hj
        omega
      · have hrow := h.row i hi
        omega
      · exact (h.fixed i j (by rw [mem_cellsBelow]; omega) hi hj).trans hzero
    · have hrow := h.row (i + 1) (by omega)
      rwa [rowUse_cellsBelow, if_pos (Finset.mem_Icc.mpr (by omega)), start, List.getElem?_eq_getElem hi,
        Option.getD_some] at hrow
    · have hcolumn := h.column (j + 1) (by omega)
      rwa [columnUse_cellsBelow, if_pos (Finset.mem_Icc.mpr (by omega)), start, List.getElem?_eq_getElem hj,
        Option.getD_some] at hcolumn
  · intro h
    refine ⟨h.corner, fun i j hcell hi hj => ?_, fun i hi => ?_, fun j hj => ?_⟩
    · obtain ⟨i, rfl⟩ := Nat.exists_eq_add_one.mpr hi
      obtain ⟨j, rfl⟩ := Nat.exists_eq_add_one.mpr hj
      exact h.outside _ _ (by rw [mem_cellsBelow] at hcell; omega)
    · obtain ⟨i, rfl⟩ := Nat.exists_eq_add_one.mpr hi
      rw [rowUse_cellsBelow, start]
      by_cases hlt : i < R.length
      · rw [if_pos (Finset.mem_Icc.mpr (by omega)), List.getElem?_eq_getElem hlt, Option.getD_some]
        exact h.row i hlt
      · rw [if_neg (by rw [Finset.mem_Icc]; omega), List.getElem?_eq_none (by omega), Option.getD_none, h.outside _ _ (.inl (by omega))]
    · obtain ⟨j, rfl⟩ := Nat.exists_eq_add_one.mpr hj
      rw [columnUse_cellsBelow, start]
      by_cases hlt : j < S.length
      · rw [if_pos (Finset.mem_Icc.mpr (by omega)), List.getElem?_eq_getElem hlt, Option.getD_some]
        exact h.column j hlt
      · rw [if_neg (by rw [Finset.mem_Icc]; omega), List.getElem?_eq_none (by omega), Option.getD_none, h.outside _ _ (.inr (by omega))]

end Cells

/-- The entries on the `n`-th antidiagonal, as far as they are in the shape, from the top on. -/
def diagonal (rows columns : ℕ) (m : Grid) (n : ℕ) : List ℕ :=
  (List.range' (n - columns) (min n rows + 1 - (n - columns))).map fun i => m i (n - i)

/-- The antidiagonals after the first one, which is the corner. -/
def diagonalsOf (rows columns : ℕ) (m : Grid) : List (List ℕ) := (List.range' 1 (rows + columns)).map (diagonal rows columns m)

/-- The sums of the antidiagonals of a matrix, from the first after the corner to the `n`-th. -/
def sums (n : ℕ) (x : Grid) : List ℕ := (List.range' 1 n).map fun k => ∑ c ∈ antidiagonal k, x c.1 c.2

/-- The coefficient of a matrix: the product of the multinomial coefficients of its antidiagonals, modulo the prime. -/
def coefficient (p : Prime) (n : ℕ) (x : Grid) : ℕ :=
  (∏ k ∈ Finset.Icc 1 n, Nat.multinomial (antidiagonal k) fun c => x c.1 c.2) % p.val

/-- The term of a matrix; nothing if its coefficient vanishes. -/
def term? (p : Prime) (n : ℕ) (x : Grid) : Option (ℕ × List ℕ) :=
  if coefficient p n x = 0 then none else some (coefficient p n x, trim (sums n x))

/-- The term that belongs to diagonals. -/
def termOf (p : Prime) (ds : List (List ℕ)) : Option (ℕ × List ℕ) :=
  if diagonalCoefficient p ds = 0 then none else some (diagonalCoefficient p ds, trim (ds.map total))

section Diagonals

variable {p : Prime} {rows columns n : ℕ} {x : Grid}

theorem total_eq_sum (l : List ℕ) : total l = l.sum := by
  induction l with
  | nil => rfl
  | cons n l ih => rw [total_cons, List.sum_cons, ih]

theorem diagonalCoefficient_eq (hp : p.val ≤ 2147483648) (ds : List (List ℕ)) : diagonalCoefficient p ds = multinomials ds % p.val := by
  have htwo := p.two_le
  have hlt : diagonalCoefficient p ds < p.val := by
    cases ds with
    | nil => exact htwo
    | cons d ds => exact p.product_lt _ _
  refine p.eq_of_cast_eq hlt (Nat.mod_lt _ p.pos) ?_
  rw [cast_diagonalCoefficient hp, Prime.cast_mod]

/-- The rows above the shape, those that the antidiagonal meets within it, and those below. -/
theorem range_eq (hn : n ≤ rows + columns) : List.range (n + 1) = List.range' 0 (n - columns) ++
    (List.range' (n - columns) (min n rows + 1 - (n - columns)) ++ List.range' (min n rows + 1) (n - min n rows)) := by
  have hmiddle : n - columns + (min n rows + 1 - (n - columns)) = min n rows + 1 := by omega
  have hall : n - columns + (min n rows + 1 - (n - columns) + (n - min n rows)) = n + 1 := by omega
  have hlast := List.range'_append_1 (s := n - columns) (m := min n rows + 1 - (n - columns)) (n := n - min n rows)
  rw [hmiddle] at hlast
  have hfirst := List.range'_append_1 (s := 0) (m := n - columns) (n := min n rows + 1 - (n - columns) + (n - min n rows))
  rw [Nat.zero_add, hall] at hfirst
  rw [hlast, hfirst, List.range_eq_range']

/-- Outside of the shape there are zeros only. -/
theorem map_range_eq (hout : ∀ i j, rows < i ∨ columns < j → x i j = 0) (hn : n ≤ rows + columns) :
    (List.range (n + 1)).map (fun i => x i (n - i)) =
      List.replicate (n - columns) 0 ++ (diagonal rows columns x n ++ List.replicate (n - min n rows) 0) := by
  have hzero : ∀ s k, (∀ i, s ≤ i → i < s + k → x i (n - i) = 0) →
      (List.range' s k).map (fun i => x i (n - i)) = List.replicate k 0 := by
    intro s k h
    refine List.eq_replicate_iff.mpr ⟨by simp, fun v hv => ?_⟩
    obtain ⟨i, hi, rfl⟩ := List.mem_map.mp hv
    obtain ⟨hle, hlt⟩ := List.mem_range'_1.mp hi
    exact h i hle hlt
  rw [range_eq hn, List.map_append, List.map_append, hzero 0 _ fun i _ hi => hout _ _ (.inr (by omega)),
    hzero (min n rows + 1) _ fun i hi hlt => hout _ _ (.inl (by omega))]
  rfl

theorem total_diagonal (hout : ∀ i j, rows < i ∨ columns < j → x i j = 0) (hn : n ≤ rows + columns) :
    total (diagonal rows columns x n) = ∑ c ∈ antidiagonal n, x c.1 c.2 := by
  have hlist : ∑ c ∈ antidiagonal n, x c.1 c.2 = ((List.range (n + 1)).map fun i => x i (n - i)).sum :=
    Finset.Nat.sum_antidiagonal_eq_sum_range_succ (fun i j => x i j) n
  rw [hlist, map_range_eq hout hn, total_eq_sum]
  simp

theorem multinomial_diagonal (hout : ∀ i j, rows < i ∨ columns < j → x i j = 0) (hn : n ≤ rows + columns) :
    multinomial (diagonal rows columns x n) = Nat.multinomial (antidiagonal n) fun c => x c.1 c.2 := by
  have hlist : ∏ c ∈ antidiagonal n, (x c.1 c.2).factorial = ((List.range (n + 1)).map fun i => (x i (n - i)).factorial).prod :=
    Finset.Nat.prod_antidiagonal_eq_prod_range_succ (fun i j => (x i j).factorial) n
  have hfactorials : ∏ c ∈ antidiagonal n, (x c.1 c.2).factorial = ((diagonal rows columns x n).map Nat.factorial).prod := by
    have hmap : ((List.range (n + 1)).map fun i => (x i (n - i)).factorial) =
        ((List.range (n + 1)).map fun i => x i (n - i)).map Nat.factorial := by rw [List.map_map]; rfl
    rw [hlist, hmap, map_range_eq hout hn]
    simp
  have hspec := Nat.multinomial_spec (antidiagonal n) fun c => x c.1 c.2
  rw [hfactorials, ← total_diagonal hout hn, ← multinomial_mul_factorials, Nat.mul_comm] at hspec
  refine (Nat.eq_of_mul_eq_mul_right (List.prod_pos fun k hk => ?_) hspec).symm
  obtain ⟨v, _, rfl⟩ := List.mem_map.mp hk
  exact Nat.factorial_pos v

/-- The term that belongs to the antidiagonals of a matrix is its term. -/
theorem termOf_diagonalsOf (hp : p.val ≤ 2147483648) (hout : ∀ i j, rows < i ∨ columns < j → x i j = 0) :
    termOf p (diagonalsOf rows columns x) = term? p (rows + columns) x := by
  have hle : ∀ k ∈ List.range' 1 (rows + columns), k ≤ rows + columns := fun k hk => by
    have := List.mem_range'_1.mp hk
    omega
  have hsums : (diagonalsOf rows columns x).map total = sums (rows + columns) x := by
    rw [diagonalsOf, List.map_map]
    exact List.map_congr_left fun k hk => total_diagonal hout (hle k hk)
  have hmultinomials : multinomials (diagonalsOf rows columns x) =
      ∏ k ∈ Finset.Icc 1 (rows + columns), Nat.multinomial (antidiagonal k) fun c => x c.1 c.2 := by
    rw [multinomials, diagonalsOf, List.map_map, ← List.toFinset_range'_1_1, List.prod_toFinset _ List.nodup_range']
    exact congrArg List.prod (List.map_congr_left fun k hk => multinomial_diagonal hout (hle k hk))
  have hcoefficient : diagonalCoefficient p (diagonalsOf rows columns x) = coefficient p (rows + columns) x := by
    rw [diagonalCoefficient_eq hp, hmultinomials, coefficient]
  rw [termOf, term?, hcoefficient, hsums]

end Diagonals

/-- Write a list into row `i`, from column `j` on. -/
def write (m : Grid) (i j : ℕ) (l : List ℕ) : Grid := fun a b => if a = i ∧ j ≤ b then l[b - j]?.getD (m a b) else m a b

/-- Write rows below each other, from row `i` on. -/
def writeRows (m : Grid) (i : ℕ) (rows : List (List ℕ)) : Grid := fun a b =>
  if i ≤ a then (rows[a - i]?.bind fun row => row[b]?).getD (m a b) else m a b

/-- The matrix with the given rows. -/
def ofRows (rows : List (List ℕ)) : Grid := fun a b => (rows[a]?.bind fun row => row[b]?).getD 0

section Enumeration

variable {p i j k : ℕ} {m : Grid} {R S top l : List ℕ} {below : List (List ℕ)}

@[simp] theorem write_nil (m : Grid) (i j : ℕ) : m.write i j [] = m := by
  funext a b
  simp [write]

theorem write_cons (m : Grid) (i j v : ℕ) (l : List ℕ) : m.write i j (v :: l) = (m.set i j v).write i (j + 1) l := by
  funext a b
  unfold write
  by_cases hab : a = i ∧ j ≤ b
  · rw [if_pos hab]
    rcases Nat.eq_or_lt_of_le hab.2 with hb | hb
    · rw [if_neg (by omega), hab.1, ← hb, set_self, Nat.sub_self]
      rfl
    · obtain ⟨t, ht⟩ : ∃ t, b - j = t + 1 := ⟨b - j - 1, by omega⟩
      rw [if_pos (by omega), set_of_ne (by omega), ht, List.getElem?_cons_succ, (by omega : b - (j + 1) = t)]
  · rw [if_neg hab, if_neg (by omega), set_of_ne (by omega)]

theorem set_comm {i' j' : ℕ} (h : ¬(i = i' ∧ j = j')) (m : Grid) (v w : ℕ) :
    (m.set i j v).set i' j' w = (m.set i' j' w).set i j v := by
  funext a b
  by_cases hab : a = i ∧ b = j
  · rw [set_of_ne (by omega), hab.1, hab.2, set_self, set_self]
  · by_cases hab' : a = i' ∧ b = j'
    · rw [hab'.1, hab'.2, set_self, set_of_ne (by omega), set_self]
    · rw [set_of_ne hab', set_of_ne hab, set_of_ne hab, set_of_ne hab']

theorem write_set_comm (h : i ≠ k) (m : Grid) (v b : ℕ) (l : List ℕ) : (m.set i j v).write k b l = (m.write k b l).set i j v := by
  funext a c
  unfold write
  by_cases hac : a = i ∧ c = j
  · rw [if_neg (by omega), hac.1, hac.2, set_self, set_self]
  · rw [set_of_ne hac, set_of_ne hac]

/-- The budget of the row may be written over. -/
theorem take_set (hi : 0 < i) (hj : 0 < j) (m : Grid) (v w : ℕ) :
    (m.take p i j v).set i 0 w = ((m.set i 0 w).set i j v).set 0 j (m 0 j - v) := by
  rw [take, set_comm (by omega) _ (m 0 j - v) w, set_set, set_comm (by omega) m v w]

/-- Filling the cells of a row takes values from the budgets of the columns, as far as the budget of the row goes. -/
theorem fills_row (hi : 0 < i) (hS : ∀ t (ht : t < S.length), m 0 (j + 1 + t) = S[t]) (cells : List (ℕ × ℕ)) :
    fills p ((List.range' (j + 1) S.length).map (fun b => (i, b)) ++ cells) m = (rows p (p ^ (j + 1)) (m i 0) S).flatMap fun y =>
      fills p cells (((m.set i 0 y.1).write i (j + 1) y.2.1).write 0 (j + 1) y.2.2) := by
  induction S generalizing j m with
  | nil => simp [rows, set_eq_self]
  | cons s S ih =>
    have hs : m 0 (j + 1) = s := hS 0 (by simp)
    rw [List.length_cons, List.range'_succ, List.map_cons, List.cons_append, fills, rows, List.flatMap_assoc, hs]
    refine List.flatMap_congr fun v _ => ?_
    have hrow : m.take p i (j + 1) v i 0 = m i 0 - v * p ^ (j + 1) := by rw [take_row (by omega), if_pos rfl]
    have hrest : ∀ t (ht : t < S.length), m.take p i (j + 1) v 0 (j + 1 + 1 + t) = S[t] := by
      intro t ht
      rw [take_column hi, if_neg (by omega), (by omega : j + 1 + 1 + t = j + 1 + (t + 1)), hS (t + 1) (by simpa using ht)]
      rfl
    rw [ih hrest, hrow, List.flatMap_map, ← pow_succ]
    refine List.flatMap_congr fun y _ => ?_
    simp only
    rw [write_cons, write_cons, take_set hi (by omega), hs, write_set_comm hi.ne]

theorem cellsBelow_succ (i n columns : ℕ) : cellsBelow i (n + 1) columns =
    (List.range' 1 columns).map (fun b => (i + 1, b)) ++ cellsBelow (i + 1) n columns := by
  rw [cellsBelow, List.range'_succ, List.flatMap_cons]
  rfl

theorem writeRows_cons (m : Grid) (i : ℕ) (row : List ℕ) (rows : List (List ℕ)) :
    m.writeRows i (row :: rows) = (m.write i 0 row).writeRows (i + 1) rows := by
  funext a b
  unfold writeRows write
  by_cases ha : i ≤ a
  · rw [if_pos ha]
    rcases Nat.eq_or_lt_of_le ha with rfl | hlt
    · rw [if_neg (by omega), if_pos ⟨rfl, Nat.zero_le b⟩, Nat.sub_self]
      rfl
    · obtain ⟨t, ht⟩ : ∃ t, a - i = t + 1 := ⟨a - i - 1, by omega⟩
      rw [if_pos (by omega), if_neg (by omega), ht, List.getElem?_cons_succ, (by omega : a - (i + 1) = t)]
  · rw [if_neg ha, if_neg (by omega), if_neg (by omega)]

/-- What is written into the top row is written over. -/
theorem write_writeRows_write (hk : 0 < k) (hlen : top.length = l.length) (m : Grid) (below : List (List ℕ)) :
    ((m.write 0 j l).writeRows k below).write 0 j top = (m.writeRows k below).write 0 j top := by
  funext a b
  simp only [write, writeRows]
  by_cases hab : a = 0 ∧ j ≤ b
  · rw [if_pos hab, if_pos hab, if_neg (by omega), if_pos hab, if_neg (by omega)]
    by_cases hb : b - j < top.length
    · rw [List.getElem?_eq_getElem hb, Option.getD_some, Option.getD_some]
    · rw [List.getElem?_eq_none (by omega), Option.getD_none, Option.getD_none, List.getElem?_eq_none (by omega), Option.getD_none]
  · rw [if_neg hab, if_neg hab, if_neg hab]

/-- Row by row, filling all cells runs through the matrices that are enumerated. -/
theorem fills_matrices (hp : 0 < p) (hR : ∀ t (ht : t < R.length), m (i + 1 + t) 0 = R[t])
    (hS : ∀ t (ht : t < S.length), m 0 (0 + 1 + t) = S[t]) :
    fills p (cellsBelow i R.length S.length) m = (matrices p R S).map fun y => (m.writeRows (i + 1) y.2).write 0 1 y.1 := by
  induction R generalizing i m S with
  | nil =>
    have hself : (m.writeRows (i + 1) []).write 0 1 S = m := by
      funext a b
      simp only [write, writeRows, List.getElem?_nil, Option.bind_none, Option.getD_none, ite_self]
      split
      · next hab =>
        by_cases hb : b - 1 < S.length
        · rw [List.getElem?_eq_getElem hb, Option.getD_some, ← hS _ hb, hab.1, (by omega : 0 + 1 + (b - 1) = b)]
        · rw [List.getElem?_eq_none (by omega), Option.getD_none]
      · rfl
    rw [matrices, List.map_singleton, hself]
    rfl
  | cons r R ih =>
    have hr : m (i + 1) 0 = r := hR 0 (by simp)
    have hrow := fills_row (p := p) (i := i + 1) (j := 0) (by omega) hS (cellsBelow (i + 1) R.length S.length)
    rw [hr, Nat.zero_add, pow_one] at hrow
    rw [List.length_cons, cellsBelow_succ, hrow, matrices, List.map_flatMap]
    refine List.flatMap_congr fun y hy => ?_
    obtain ⟨r₀, xs, S'⟩ := y
    obtain ⟨_, hlen, _, _⟩ := (mem_rows hp hp).mp hy
    simp only [List.map_map]
    rw [← hlen, ih]
    · refine List.map_congr_left fun z hz => ?_
      obtain ⟨htop, _, _⟩ := (mem_matrices hp).mp hz
      rw [Function.comp_apply, writeRows_cons, write_cons, write_writeRows_write (by omega) htop]
    · intro t ht
      rw [write, if_neg (by omega), write, if_neg (by omega), set_of_ne (by omega), (by omega : i + 1 + 1 + t = i + 1 + (t + 1)),
        hR (t + 1) (by simpa using ht)]
      rfl
    · intro t ht
      rw [write, if_pos ⟨rfl, by omega⟩, (by omega : 0 + 1 + t - 1 = t), List.getElem?_eq_getElem ht, Option.getD_some]

/-- On rows, an antidiagonal has the entries that there are. -/
theorem getElem?_consEach (row : List ℕ) (ds : List (List ℕ)) (n : ℕ) :
    (consEach row ds)[n]?.getD [] = row[n]?.toList ++ ds[n]?.getD [] := by
  induction row generalizing ds n with
  | nil => rfl
  | cons v row ih =>
    cases ds with
    | nil =>
      rw [consEach]
      cases n with
      | zero => rfl
      | succ n => exact ih [] n
    | cons d ds =>
      rw [consEach]
      cases n with
      | zero => rfl
      | succ n => exact ih ds n

theorem length_consEach (row : List ℕ) (ds : List (List ℕ)) : (consEach row ds).length = max row.length ds.length := by
  induction row generalizing ds with
  | nil => simp [consEach]
  | cons v row ih =>
    cases ds with
    | nil => simp [consEach, ih]
    | cons d ds => simp [consEach, ih]

theorem getElem?_diagonals (rows : List (List ℕ)) (n : ℕ) :
    (diagonals rows)[n]?.getD [] = (List.range (n + 1)).filterMap fun i => rows[i]?.bind fun row => row[n - i]? := by
  induction rows generalizing n with
  | nil => simp [diagonals]
  | cons row rows ih =>
    have hrest : ([] :: diagonals rows)[n]?.getD [] = (List.range n).filterMap fun i => rows[i]?.bind fun row => row[n - (i + 1)]? := by
      cases n with
      | zero => rfl
      | succ n =>
        rw [List.getElem?_cons_succ, ih]
        simp only [Nat.add_sub_add_right]
    have hnext : ((fun i => (row :: rows)[i]?.bind fun row => row[n - i]?) ∘ Nat.succ) =
        fun i => rows[i]?.bind fun row => row[n - (i + 1)]? := by
      funext i
      rw [Function.comp_apply, Nat.succ_eq_add_one, List.getElem?_cons_succ]
    rw [diagonals, getElem?_consEach, hrest, List.range_succ_eq_map, List.filterMap_cons, List.filterMap_map, hnext,
      List.getElem?_cons_zero, Option.bind_some, Nat.sub_zero]
    cases row[n]? <;> rfl

theorem length_diagonals {row : List ℕ} {rows : List (List ℕ)} {columns : ℕ} (h : ∀ l ∈ row :: rows, l.length = columns + 1) :
    (diagonals (row :: rows)).length = rows.length + columns + 1 := by
  have hrow : row.length = columns + 1 := h row (by simp)
  induction rows generalizing row with
  | nil => simp [diagonals, length_consEach, hrow]
  | cons next rows ih =>
    have hrest : ∀ l ∈ next :: rows, l.length = columns + 1 := fun l hl => h l (List.mem_cons_of_mem _ hl)
    rw [diagonals, length_consEach, hrow, List.length_cons, ih hrest (hrest next (by simp)), List.length_cons]
    omega

/-- The antidiagonals of rows of one length are those of the matrix with these rows. -/
theorem diagonals_drop {row : List ℕ} {rows : List (List ℕ)} {columns : ℕ} (h : ∀ l ∈ row :: rows, l.length = columns + 1) :
    (diagonals (row :: rows)).drop 1 = diagonalsOf rows.length columns (ofRows (row :: rows)) := by
  have hinside : ∀ n i, i ≤ rows.length → n - i ≤ columns →
      ((row :: rows)[i]?.bind fun l => l[n - i]?) = some (ofRows (row :: rows) i (n - i)) := by
    intro n i hi hn
    have hi' : i < (row :: rows).length := by rw [List.length_cons]; omega
    have hlen := h _ (List.getElem_mem hi')
    rw [ofRows, List.getElem?_eq_getElem hi', Option.bind_some, List.getElem?_eq_getElem (by omega), Option.getD_some]
  have houtside : ∀ n i, rows.length < i ∨ columns < n - i → ((row :: rows)[i]?.bind fun l => l[n - i]?) = none := by
    intro n i hi
    by_cases hi' : i < (row :: rows).length
    · have hlen := h _ (List.getElem_mem hi')
      rw [List.length_cons] at hi'
      rw [List.getElem?_eq_getElem hi', Option.bind_some, List.getElem?_eq_none (by omega)]
    · rw [List.getElem?_eq_none (by omega), Option.bind_none]
  have hdiagonal : ∀ n, n ≤ rows.length + columns →
      (diagonals (row :: rows))[n]?.getD [] = diagonal rows.length columns (ofRows (row :: rows)) n := by
    intro n hn
    rw [getElem?_diagonals, range_eq hn, List.filterMap_append, List.filterMap_append]
    have hbefore : (List.range' 0 (n - columns)).filterMap (fun i => (row :: rows)[i]?.bind fun l => l[n - i]?) = [] := by
      refine List.filterMap_eq_nil_iff.mpr fun i hi => houtside n i ?_
      have := List.mem_range'_1.mp hi
      omega
    have hafter : (List.range' (min n rows.length + 1) (n - min n rows.length)).filterMap
        (fun i => (row :: rows)[i]?.bind fun l => l[n - i]?) = [] := by
      refine List.filterMap_eq_nil_iff.mpr fun i hi => houtside n i ?_
      have := List.mem_range'_1.mp hi
      omega
    rw [hbefore, hafter, List.append_nil, List.nil_append, diagonal, ← List.filterMap_eq_map]
    refine List.filterMap_congr fun i hi => ?_
    have := List.mem_range'_1.mp hi
    exact hinside n i (by omega) (by omega)
  have hlen := length_diagonals h
  refine List.ext_getElem (by simp [diagonalsOf, hlen]) fun n hn _ => ?_
  rw [List.length_drop, hlen] at hn
  have hn' := hdiagonal (1 + n) (by omega)
  rw [List.getElem?_eq_getElem (by omega), Option.getD_some] at hn'
  simp only [diagonalsOf, List.getElem_drop, List.getElem_map, List.getElem_range', Nat.one_mul, hn']

/-- The matrices that are enumerated have the rows and columns of `R` and `S`, and a border. -/
theorem length_of_mem_matrices (hp : 0 < p) {y : List ℕ × List (List ℕ)} (hy : y ∈ matrices p R S) :
    y.2.length = R.length ∧ ∀ l ∈ (0 :: y.1) :: y.2, l.length = S.length + 1 := by
  obtain ⟨htop, hbelow, _⟩ := (mem_matrices hp).mp hy
  refine ⟨hbelow.length_eq.symm, fun l hl => ?_⟩
  rcases List.mem_cons.mp hl with rfl | hl
  · rw [List.length_cons, htop]
  · obtain ⟨n, hn, rfl⟩ := List.getElem_of_mem hl
    exact ((List.forall₂_iff_get.mp hbelow).2 n (hbelow.length_eq ▸ hn) hn).1

/-- The matrices that are enumerated are those that arise from `R` and `S` as budgets. -/
theorem fills_start (hp : 0 < p) (R S : List ℕ) : fills p (cellsBelow 0 R.length S.length) (start R S) =
    (matrices p R S).map fun y => ofRows ((0 :: y.1) :: y.2) := by
  rw [fills_matrices hp]
  · refine List.map_congr_left fun y hy => ?_
    obtain ⟨hrows, hcolumns⟩ := length_of_mem_matrices hp hy
    have htop := hcolumns (0 :: y.1) (by simp)
    rw [List.length_cons] at htop
    funext a b
    unfold write writeRows ofRows
    cases a with
    | zero =>
      cases b with
      | zero => rfl
      | succ b =>
        rw [if_pos (by omega), if_neg (by omega), List.getElem?_cons_zero, Option.bind_some, List.getElem?_cons_succ, Nat.add_sub_cancel]
        by_cases hb : b < y.1.length
        · rw [List.getElem?_eq_getElem hb, Option.getD_some, Option.getD_some]
        · rw [List.getElem?_eq_none (by omega), Option.getD_none, Option.getD_none, start_outside (by omega)]
    | succ a =>
      rw [if_neg (by omega), if_pos (by omega), List.getElem?_cons_succ, Nat.zero_add, Nat.add_sub_cancel]
      by_cases ha : a < y.2.length
      · have hlen := hcolumns y.2[a] (List.mem_cons_of_mem _ (List.getElem_mem ha))
        rw [List.getElem?_eq_getElem ha, Option.bind_some]
        by_cases hb : b < y.2[a].length
        · rw [List.getElem?_eq_getElem hb, Option.getD_some, Option.getD_some]
        · rw [List.getElem?_eq_none (by omega), Option.getD_none, Option.getD_none, start_outside (by omega)]
      · rw [List.getElem?_eq_none (by omega), Option.bind_none, Option.getD_none, Option.getD_none, start_outside (by omega)]
  · intro t ht
    rw [Nat.zero_add, Nat.add_comm, start, List.getElem?_eq_getElem ht, Option.getD_some]
  · intro t ht
    rw [Nat.zero_add, Nat.add_comm, start, List.getElem?_eq_getElem ht, Option.getD_some]

/-- The terms of a product of powers are those of the matrices of Milnor's formula. -/
theorem powerProduct_eq {p : Prime} (hp : p.val ≤ 2147483648) (R S : List ℕ) : powerProduct p R S =
    (fills p.val (cellsBelow 0 R.length S.length) (start R S)).filterMap (term? p (R.length + S.length)) := by
  rw [fills_start p.pos, List.filterMap_map]
  refine List.filterMap_congr fun y hy => ?_
  have hx : IsMatrixFor p.val R S (ofRows ((0 :: y.1) :: y.2)) := by
    rw [← completes_start, ← mem_fills p.pos (inner_cellsBelow _ _ _), fills_start p.pos]
    exact List.mem_map_of_mem hy
  obtain ⟨hrows, hcolumns⟩ := length_of_mem_matrices p.pos hy
  have hdiagonals := diagonals_drop hcolumns
  rw [hrows] at hdiagonals
  rw [Function.comp_apply, ← termOf_diagonalsOf hp hx.outside, ← hdiagonals]
  rfl

end Enumeration

end Grid
end Milnor
end Steenrod
