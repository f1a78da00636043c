import Steenrod.Proofs.Milnor.Grids
/-!
The search for the matrices of Milnor's formula in one table of words that is changed in place. Every reading of the table and
every operation on words is checked. Main statement: the search goes through, leaves the table as it was, and finds the terms of
the product of powers, one for each matrix with a coefficient that does not vanish.
-/
namespace Steenrod

open Finset.HasAntidiagonal (antidiagonal mem_antidiagonal)

namespace Milnor

/-- A number, if it is a word. -/
def fit? (n : ℕ) : Option ℕ := if n ≤ maxWord then some n else none

def minus? (a b : ℕ) : Option ℕ := if b ≤ a then some (a - b) else none

/-- The sum of words, if all partial sums are words. -/
def sum? (l : List ℕ) : Option ℕ := l.foldlM (fun sum n => fit? (sum + n)) 0

namespace Grid

/-- An entry in the shape. -/
def read? (rows columns : ℕ) (m : Grid) (i j : ℕ) : Option ℕ := if i ≤ rows ∧ j ≤ columns then some (m i j) else none

/-- The entries on the `n`-th antidiagonal. -/
def diagonal? (rows columns : ℕ) (m : Grid) (n : ℕ) : Option (List ℕ) :=
  (List.range' (n - columns) (min n rows + 1 - (n - columns))).mapM fun i => m.read? rows columns i (n - i)

/-- Multiply `c` by the coefficients of antidiagonals, as long as the product does not vanish, and put their sums after `t`. -/
def emitFrom? (p : Prime) (rows columns : ℕ) (m : Grid) (c : ℕ) (t : List ℕ) : List ℕ → Option (Option (ℕ × List ℕ))
  | [] => some (some (c, trim t))
  | n :: ns => do
    let d ← m.diagonal? rows columns n
    let e ← p.multinomial? d
    if p.product c e = 0 then some none
    else
      let s ← sum? d
      emitFrom? p rows columns m (p.product c e) (t ++ [s]) ns

/-- The term of a matrix, or nothing if its coefficient vanishes. -/
def emit? (p : Prime) (rows columns : ℕ) (m : Grid) : Option (Option (ℕ × List ℕ)) :=
  m.emitFrom? p rows columns 1 [] (List.range' 1 (rows + columns))

/-- Put `v` into a cell, take `w` from the budget of the row and `v` from that of the column. -/
def debit? (m : Grid) (i j w v : ℕ) : Option Grid := do
  let m := m.set i j v
  let r ← minus? (m i 0) w
  let m := m.set i 0 r
  let s ← minus? (m 0 j) v
  some (m.set 0 j s)

/-- Give back `w` to the budget of the row and `v` to that of the column. -/
def credit? (m : Grid) (i j w v : ℕ) : Option Grid := do
  let r ← fit? (m i 0 + w)
  let m := m.set i 0 r
  let s ← fit? (m 0 j + v)
  some (m.set 0 j s)

/-- Put each value into a cell, go on from there, and take it back; `weight` is what a value takes from the row. -/
def each? (weight : ℕ → Option ℕ) (next : Grid → Option (List (ℕ × List ℕ) × Grid)) (i j : ℕ) :
    List ℕ → Grid → Option (List (ℕ × List ℕ) × Grid)
  | [], m => some ([], m)
  | v :: vs, m => do
    let w ← weight v
    let m ← m.debit? i j w v
    let (found, m) ← next m
    let m ← m.credit? i j w v
    let (others, m) ← each? weight next i j vs m
    some (found ++ others, m)

/-- Fill the cells from row `i` and column `j` on in all ways. The answer is the terms and the table in the end. A power of the
prime that is not a word exceeds every budget. -/
def fill? (p : Prime) (rows columns i j : ℕ) (m : Grid) : Option (List (ℕ × List ℕ) × Grid) :=
  if rows < i ∨ columns = 0 then (m.emit? p rows columns).map fun t => (t.toList, m)
  else if columns < j then fill? p rows columns (i + 1) 1 m
  else do
    let power := fit? (Nat.pow p.val j)
    let largest := power.elim 0 fun w => min (m i 0 / w) (m 0 j)
    let weight := fun v => power.elim (some 0) fun w => fit? (v * w)
    let (found, m) ← each? weight (fill? p rows columns i (j + 1)) i j (List.range (largest + 1)) m
    some (found, m.set i j 0)
  termination_by (rows + 1 - i, columns + 1 - j)

/-- The search for the matrices of `R` and `S`. -/
def search? (p : Prime) (R S : List ℕ) : Option (List (ℕ × List ℕ) × Grid) :=
  fill? p R.length S.length 1 1 (start R S)

section Emission

variable {p : Prime} {rows columns n : ℕ} {m : Grid}

theorem fit?_of_le (h : n ≤ maxWord) : fit? n = some n := if_pos h

theorem minus?_of_le {a b : ℕ} (h : b ≤ a) : minus? a b = some (a - b) := if_pos h

theorem sum?_eq {l : List ℕ} (h : total l ≤ maxWord) : sum? l = some (total l) := by
  have hrun : ∀ k, k + total l ≤ maxWord → l.foldlM (fun sum n => fit? (sum + n)) k = some (k + total l) := by
    clear h
    induction l with
    | nil => exact fun _ _ => rfl
    | cons v l ih =>
      intro k hk
      rw [total_cons] at hk ⊢
      rw [List.foldlM_cons, fit?_of_le (by omega), Option.bind_eq_bind, Option.bind_some, ih _ (by omega), Nat.add_assoc]
  rw [sum?, hrun 0 (by omega), Nat.zero_add]

/-- All places that are read on an antidiagonal are in the shape. -/
theorem diagonal?_eq (m : Grid) (hn : n ≤ rows + columns) : m.diagonal? rows columns n = some (diagonal rows columns m n) := by
  have hread : ∀ l : List ℕ, (∀ i ∈ l, i ≤ rows ∧ n - i ≤ columns) →
      l.mapM (fun i => m.read? rows columns i (n - i)) = some (l.map fun i => m i (n - i)) := by
    intro l hl
    induction l with
    | nil => rfl
    | cons i l ih =>
      rw [List.mapM_cons, read?, if_pos (hl i (by simp)), ih fun k hk => hl k (List.mem_cons_of_mem _ hk)]
      rfl
  refine hread _ fun i hi => ?_
  have := List.mem_range'_1.mp hi
  omega

/-- Stopping as soon as the product vanishes, or going on with it, gives the same term. -/
theorem emitFrom?_eq (hp : p.val ≤ 2147483648) {ns : List ℕ} {c : ℕ} {t : List ℕ} (hc : c < p.val) (hpos : c ≠ 0)
    (hns : ∀ n ∈ ns, n ≤ rows + columns) (hfit : ∀ n ∈ ns, total (diagonal rows columns m n) ≤ maxWord) :
    m.emitFrom? p rows columns c t ns = some (if c * multinomials (ns.map (diagonal rows columns m)) % p.val = 0 then none
      else some (c * multinomials (ns.map (diagonal rows columns m)) % p.val,
        trim (t ++ (ns.map (diagonal rows columns m)).map total))) := by
  induction ns generalizing c t with
  | nil => simp [emitFrom?, multinomials, Nat.mod_eq_of_lt hc, hpos]
  | cons n ns ih =>
    obtain ⟨e, he, hlt, hcast⟩ := p.multinomial?_eq hp (diagonal rows columns m n)
    have hcoefficient : p.product c e = c * multinomial (diagonal rows columns m n) % p.val := by
      refine p.eq_of_cast_eq (p.product_lt _ _) (Nat.mod_lt _ p.pos) ?_
      rw [Prime.cast_product, hcast, Prime.cast_mod, Nat.cast_mul]
    have hproduct : p.product c e * multinomials (ns.map (diagonal rows columns m)) % p.val =
        c * multinomials ((n :: ns).map (diagonal rows columns m)) % p.val := by
      rw [hcoefficient, multinomials, multinomials, List.map_cons, List.map_cons, List.prod_cons, Nat.mod_mul_mod, Nat.mul_assoc]
    simp only [emitFrom?, diagonal?_eq m (hns n (by simp)), he, Option.bind_eq_bind, Option.bind_some]
    by_cases hzero : p.product c e = 0
    · rw [if_pos hzero, if_pos (by rw [← hproduct, hzero, Nat.zero_mul, Nat.zero_mod])]
    · rw [if_neg hzero, sum?_eq (hfit n (by simp)), Option.bind_some,
        ih (p.product_lt _ _) hzero (fun k hk => hns k (List.mem_cons_of_mem _ hk)) fun k hk => hfit k (List.mem_cons_of_mem _ hk),
        hproduct, List.append_assoc]
      rfl

theorem emit?_eq (hp : p.val ≤ 2147483648) (hfit : ∀ d ∈ diagonalsOf rows columns m, total d ≤ maxWord) :
    m.emit? p rows columns = some (termOf p (diagonalsOf rows columns m)) := by
  have htwo := p.two_le
  rw [emit?, emitFrom?_eq hp (by omega) one_ne_zero, Nat.one_mul, List.nil_append, termOf, diagonalCoefficient_eq hp, diagonalsOf]
  · intro n hn
    have := List.mem_range'_1.mp hn
    omega
  · exact fun n hn => hfit _ (List.mem_map_of_mem hn)

end Emission

section Filling

variable {p : Prime} {rows columns i j : ℕ} {m : Grid}

/-- What is taken for a value of a cell fits the budgets. -/
theorem debit?_eq {v : ℕ} (hi : 0 < i) (hj : 0 < j) (u : ℕ) (hrow : v * p.val ^ j ≤ m i 0) (hcolumn : v ≤ m 0 j) :
    (m.set i j u).debit? i j (v * p.val ^ j) v = some (m.take p.val i j v) := by
  simp only [debit?, set_set, Option.bind_eq_bind]
  rw [set_of_ne (by omega), minus?_of_le hrow, Option.bind_some, set_of_ne (by omega), set_of_ne (by omega), minus?_of_le hcolumn,
    Option.bind_some, take]

/-- What is given back are the budgets from before. -/
theorem credit?_eq {v : ℕ} (hi : 0 < i) (hj : 0 < j) (hrow : v * p.val ^ j ≤ m i 0) (hcolumn : v ≤ m 0 j)
    (hr : m i 0 ≤ maxWord) (hs : m 0 j ≤ maxWord) :
    (m.take p.val i j v).credit? i j (v * p.val ^ j) v = some (m.set i j v) := by
  have hback : ((m.take p.val i j v).set i 0 (m i 0)).set 0 j (m 0 j) = m.set i j v := by
    rw [take_set hi hj, set_set, set_eq_self (by rw [set_of_ne (by omega), set_of_ne (by omega)]), set_eq_self rfl]
  simp only [credit?, Option.bind_eq_bind]
  rw [take_row hj, if_pos rfl, Nat.sub_add_cancel hrow, fit?_of_le hr, Option.bind_some, set_of_ne (by omega), take_column hi,
    if_pos rfl, Nat.sub_add_cancel hcolumn, fit?_of_le hs, Option.bind_some, hback]

/-- Value after value, what is found for it is kept, and the table stays the one from before but for the cell. -/
theorem each?_eq {weight : ℕ → Option ℕ} {next : Grid → Option (List (ℕ × List ℕ) × Grid)} {terms : ℕ → List (ℕ × List ℕ)}
    {vs : List ℕ} (hi : 0 < i) (hj : 0 < j) (hr : m i 0 ≤ maxWord) (hs : m 0 j ≤ maxWord)
    (hbudget : ∀ v ∈ vs, v * p.val ^ j ≤ m i 0 ∧ v ≤ m 0 j) (hweight : ∀ v ∈ vs, weight v = some (v * p.val ^ j))
    (hnext : ∀ v ∈ vs, next (m.take p.val i j v) = some (terms v, m.take p.val i j v)) (u : ℕ) :
    ∃ w, each? weight next i j vs (m.set i j u) = some (vs.flatMap terms, m.set i j w) := by
  induction vs generalizing u with
  | nil => exact ⟨u, rfl⟩
  | cons v vs ih =>
    obtain ⟨hrow, hcolumn⟩ := hbudget v (by simp)
    obtain ⟨w, hw⟩ := ih (fun k hk => hbudget k (List.mem_cons_of_mem _ hk)) (fun k hk => hweight k (List.mem_cons_of_mem _ hk))
      (fun k hk => hnext k (List.mem_cons_of_mem _ hk)) v
    refine ⟨w, ?_⟩
    simp only [each?, hweight v (by simp), debit?_eq hi hj u hrow hcolumn, hnext v (by simp), credit?_eq hi hj hrow hcolumn hr hs, hw,
      Option.bind_eq_bind, Option.bind_some, List.flatMap_cons]

/-- The cells from row `i` and column `j` on. -/
def cellsFrom (rows columns i j : ℕ) : List (ℕ × ℕ) :=
  if rows < i then [] else (List.range' j (columns + 1 - j)).map (fun b => (i, b)) ++ cellsBelow i (rows - i) columns

theorem cellsFrom_done (hj : 0 < j) (h : rows < i ∨ columns = 0) : cellsFrom rows columns i j = [] := by
  unfold cellsFrom cellsBelow
  split
  · rfl
  · next hi =>
    obtain rfl := h.resolve_left hi
    rw [(by omega : 0 + 1 - j = 0)]
    simp

theorem cellsFrom_row (hi : i ≤ rows) (hj : columns < j) : cellsFrom rows columns i j = cellsFrom rows columns (i + 1) 1 := by
  rw [cellsFrom, if_neg (by omega), (by omega : columns + 1 - j = 0), List.range'_zero, List.map_nil, List.nil_append, cellsFrom]
  split
  · rw [(by omega : rows - i = 0)]
    rfl
  · rw [(by omega : rows - i = rows - (i + 1) + 1), cellsBelow_succ, Nat.add_sub_cancel]

theorem cellsFrom_cons (hi : i ≤ rows) (hj : j ≤ columns) :
    cellsFrom rows columns i j = (i, j) :: cellsFrom rows columns i (j + 1) := by
  rw [cellsFrom, if_neg (by omega), (by omega : columns + 1 - j = columns + 1 - (j + 1) + 1), List.range'_succ, cellsFrom,
    if_neg (by omega)]
  rfl

theorem cellsFrom_start (rows columns : ℕ) : cellsFrom rows columns 1 1 = cellsBelow 0 rows columns := by
  cases rows with
  | zero => rfl
  | succ rows => rw [cellsFrom, if_neg (by omega), cellsBelow_succ, Nat.add_sub_cancel, Nat.add_sub_cancel]

theorem mem_cellsFrom {c : ℕ × ℕ} (h : c ∈ cellsFrom rows columns i j) : i ≤ c.1 ∧ (c.1 = i ∧ j ≤ c.2 ∨ i < c.1 ∧ 0 < c.2) := by
  unfold cellsFrom at h
  split at h
  · exact absurd h List.not_mem_nil
  · rcases List.mem_append.mp h with h | h
    · obtain ⟨b, hb, rfl⟩ := List.mem_map.mp h
      exact ⟨Nat.le_refl i, .inl ⟨rfl, (List.mem_range'_1.mp hb).1⟩⟩
    · have hc := mem_cellsBelow.mp (show (c.1, c.2) ∈ _ from h)
      omega

/-- A power of the prime that is not a word exceeds every budget, as a quotient by it shows. -/
theorem largest_eq {r : ℕ} (hr : r ≤ maxWord) (s : ℕ) :
    ((fit? (Nat.pow p.val j)).elim 0 fun w => min (r / w) s) = min (r / p.val ^ j) s := by
  unfold fit?
  split
  · rfl
  · next h =>
    rw [Nat.pow_eq] at h
    rw [Nat.div_eq_of_lt (by omega), Nat.zero_min, Option.elim_none]

theorem weight_eq {r v : ℕ} (hr : r ≤ maxWord) (hv : v * p.val ^ j ≤ r) :
    ((fit? (Nat.pow p.val j)).elim (some 0) fun w => fit? (v * w)) = some (v * p.val ^ j) := by
  by_cases h : p.val ^ j ≤ maxWord
  · rw [Nat.pow_eq, fit?_of_le h, Option.elim_some, fit?_of_le (hv.trans hr)]
  · obtain rfl : v = 0 := by
      by_contra hzero
      have := Nat.le_mul_of_pos_left (p.val ^ j) (Nat.pos_of_ne_zero hzero)
      omega
    rw [Nat.pow_eq, fit?, if_neg h, Option.elim_none, Nat.zero_mul]

/-- From any cell on, all ways to fill the rest are run through, and the table is left as it was. -/
theorem fill?_eq (hp : p.val ≤ 2147483648) (hi : 0 < i) (hj : 0 < j) (hempty : ∀ c ∈ cellsFrom rows columns i j, m c.1 c.2 = 0)
    (hrows : ∀ a, m a 0 ≤ maxWord) (hcolumns : ∀ b, m 0 b ≤ maxWord)
    (hfit : ∀ x ∈ fills p.val (cellsFrom rows columns i j) m, ∀ d ∈ diagonalsOf rows columns x, total d ≤ maxWord) :
    fill? p rows columns i j m =
      some ((fills p.val (cellsFrom rows columns i j) m).filterMap fun x => termOf p (diagonalsOf rows columns x), m) := by
  induction i, j, m using fill?.induct p rows columns with
  | case1 i j m hdone =>
    rw [cellsFrom_done hj hdone, fills] at hfit ⊢
    rw [fill?, if_pos hdone, emit?_eq hp (hfit m (by simp))]
    cases h : termOf p (diagonalsOf rows columns m) <;> simp [h]
  | case2 i j m hdone hrow ih =>
    have hcells : cellsFrom rows columns i j = cellsFrom rows columns (i + 1) 1 := cellsFrom_row (by omega) hrow
    rw [hcells] at hempty hfit ⊢
    rw [fill?, if_neg hdone, if_pos hrow]
    exact ih (by omega) (by omega) hempty hrows hcolumns hfit
  | case3 i j m hdone hrow ih =>
    have hcells : cellsFrom rows columns i j = (i, j) :: cellsFrom rows columns i (j + 1) := cellsFrom_cons (by omega) (by omega)
    rw [hcells] at hempty hfit ⊢
    rw [fills] at hfit ⊢
    have hbudget : ∀ v ∈ List.range (min (m i 0 / p.val ^ j) (m 0 j) + 1), v * p.val ^ j ≤ m i 0 ∧ v ≤ m 0 j := by
      intro v hv
      rw [List.mem_range, Nat.lt_succ_iff, Nat.le_min, Nat.le_div_iff_mul_le (Nat.pow_pos p.pos)] at hv
      exact hv
    have hnext : ∀ v ∈ List.range (min (m i 0 / p.val ^ j) (m 0 j) + 1), fill? p rows columns i (j + 1) (m.take p.val i j v) =
        some ((fills p.val (cellsFrom rows columns i (j + 1)) (m.take p.val i j v)).filterMap
          fun x => termOf p (diagonalsOf rows columns x), m.take p.val i j v) := by
      intro v hv
      refine ih _ hi (by omega) (fun c hc => ?_) (fun a => ?_) (fun b => ?_) fun x hx => hfit x (List.mem_flatMap.mpr ⟨v, hv, hx⟩)
      · have hplace := mem_cellsFrom hc
        rw [take_inner (by omega) (by omega) fun h => by have := Prod.mk.inj h; omega]
        exact hempty c (List.mem_cons_of_mem _ hc)
      · rw [take_row hj]
        split
        · exact (Nat.sub_le _ _).trans (hrows i)
        · exact hrows a
      · rw [take_column hi]
        split
        · exact (Nat.sub_le _ _).trans (hcolumns j)
        · exact hcolumns b
    have hself : m.set i j 0 = m := set_eq_self (hempty (i, j) (by simp))
    obtain ⟨w, hw⟩ := each?_eq hi hj (hrows i) (hcolumns j) hbudget (fun v hv => weight_eq (hrows i) (hbudget v hv).1) hnext 0
    rw [hself] at hw
    rw [fill?, if_neg hdone, if_neg hrow]
    simp only [largest_eq (hrows i), hw, Option.bind_eq_bind, Option.bind_some, set_set, hself, List.filterMap_flatMap]

end Filling

end Grid

section Enumerated

variable {p : Prime} {R S : List ℕ} {x : ℕ → ℕ → ℕ}

theorem getD_le_total (l : List ℕ) (n : ℕ) : l[n]?.getD 0 ≤ total l := by
  by_cases hn : n < l.length
  · rw [List.getElem?_eq_getElem hn, Option.getD_some, Grid.total_eq_sum]
    exact List.le_sum_of_mem (List.getElem_mem hn)
  · rw [List.getElem?_eq_none (by omega), Option.getD_none]
    exact Nat.zero_le _

theorem sum_getD_le_total (l : List ℕ) (n : ℕ) : ∑ k ∈ Finset.range n, l[k]?.getD 0 ≤ total l := by
  induction l generalizing n with
  | nil => simp
  | cons v l ih =>
    cases n with
    | zero => simp
    | succ n =>
      rw [Finset.sum_range_succ', total_cons, Nat.add_comm]
      exact Nat.add_le_add_left (ih n) v

/-- An antidiagonal has at most one entry of the first column, and one of each other column. -/
theorem IsMatrixFor.sum_antidiagonal_le (h : IsMatrixFor p.val R S x) (n : ℕ) :
    ∑ c ∈ antidiagonal n, x c.1 c.2 ≤ total R + total S := by
  have hrow : ∀ i, x (i + 1) 0 ≤ R[i]?.getD 0 := by
    intro i
    by_cases hi : i < R.length
    · rw [List.getElem?_eq_getElem hi, Option.getD_some, h.row i hi]
      omega
    · rw [h.outside _ _ (.inl (by omega))]
      exact Nat.zero_le _
  have hcolumn : ∀ i j, x i (j + 1) ≤ S[j]?.getD 0 := by
    intro i j
    by_cases hout : R.length < i ∨ S.length < j + 1
    · rw [h.outside _ _ hout]
      exact Nat.zero_le _
    · rw [List.getElem?_eq_getElem (by omega), Option.getD_some, h.column j (by omega)]
      rcases Nat.eq_zero_or_pos i with rfl | hi
      · exact Nat.le_add_right _ _
      · have hmem : i ∈ Finset.Icc 1 R.length := Finset.mem_Icc.mpr (by omega)
        exact (Finset.single_le_sum (f := fun i => x i (j + 1)) (fun _ _ => Nat.zero_le _) hmem).trans (Nat.le_add_left _ _)
  cases n with
  | zero =>
    rw [Finset.Nat.antidiagonal_zero, Finset.sum_singleton, h.corner]
    exact Nat.zero_le _
  | succ n =>
    have hothers : ∑ c ∈ antidiagonal n, x c.1 (c.2 + 1) ≤ ∑ c ∈ antidiagonal n, S[c.2]?.getD 0 :=
      Finset.sum_le_sum fun c _ => hcolumn c.1 c.2
    have hsum : ∑ c ∈ antidiagonal n, S[c.2]?.getD 0 = ∑ k ∈ Finset.range (n + 1), S[k]?.getD 0 := by
      rw [← Finset.Nat.sum_antidiagonal_eq_sum_range_succ (fun i _ => S[i]?.getD 0) n]
      exact Finset.Nat.sum_antidiagonal_swap (f := fun c => S[c.1]?.getD 0)
    rw [Finset.Nat.sum_antidiagonal_succ']
    exact Nat.add_le_add ((hrow n).trans (getD_le_total R n)) (hothers.trans (hsum ▸ sum_getD_le_total S _))

/-- A product of powers runs over the matrices of Milnor's formula, each of them once, and takes the term of each with a
coefficient that does not vanish. The search in place finds these terms without leaving the words, and restores its table. -/
theorem powerProduct_enumerates (hp : p.val < 2 ^ 31) (hR : ∀ r ∈ R, r < 2 ^ 32) (hS : ∀ s ∈ S, s < 2 ^ 32)
    (hsums : ∀ x, IsMatrixFor p.val R S x → ∀ n, ∑ c ∈ antidiagonal n, x c.1 c.2 < 2 ^ 32) :
    ∃ xs : List Grid, xs.Nodup ∧ (∀ x, x ∈ xs ↔ IsMatrixFor p.val R S x) ∧
      powerProduct p R S = xs.filterMap (Grid.term? p (R.length + S.length)) ∧
      Grid.search? p R S = some (powerProduct p R S, Grid.start R S) := by
  have hword : maxWord + 1 = 2 ^ 32 := by decide
  have hinner := Grid.inner_cellsBelow 0 R.length S.length
  have hmem : ∀ x, x ∈ Grid.fills p.val (Grid.cellsBelow 0 R.length S.length) (Grid.start R S) ↔ IsMatrixFor p.val R S x :=
    fun x => (Grid.mem_fills p.pos hinner).trans Grid.completes_start
  have hstart : ∀ l : List ℕ, (∀ n ∈ l, n < 2 ^ 32) → ∀ k : ℕ, l[k]?.getD 0 ≤ maxWord := by
    intro l hl k
    cases hk : l[k]? with
    | none => exact Nat.zero_le _
    | some n =>
      have := hl n (List.mem_of_getElem? hk)
      rw [Option.getD_some]
      omega
  have hterms := Grid.powerProduct_eq (by omega : p.val ≤ 2147483648) R S
  have hsearch : Grid.search? p R S = some (powerProduct p R S, Grid.start R S) := by
    rw [Grid.search?, Grid.fill?_eq (by omega) one_pos one_pos, Grid.cellsFrom_start, hterms]
    · congr 2
      exact List.filterMap_congr fun x hx => Grid.termOf_diagonalsOf (by omega) ((hmem x).mp hx).outside
    · rw [Grid.cellsFrom_start]
      intro c hc
      obtain ⟨⟨hi, _⟩, hj, _⟩ := Grid.mem_cellsBelow.mp (show (c.1, c.2) ∈ _ from hc)
      obtain ⟨i, hi⟩ := Nat.exists_eq_add_one.mpr hi
      obtain ⟨j, hj⟩ := Nat.exists_eq_add_one.mpr hj
      rw [hi, hj, Grid.start]
    · intro a
      cases a with
      | zero => exact Nat.zero_le _
      | succ i => exact hstart R hR i
    · intro b
      cases b with
      | zero => exact Nat.zero_le _
      | succ j => exact hstart S hS j
    · rw [Grid.cellsFrom_start]
      intro x hx d hd
      obtain ⟨n, hn, rfl⟩ := List.mem_map.mp hd
      have hn := List.mem_range'_1.mp hn
      have hx := (hmem x).mp hx
      have hlt := hsums x hx n
      rw [Grid.total_diagonal hx.outside (by omega)]
      omega
  exact ⟨_, Grid.nodup_fills p.pos hinner, hmem, hterms, hsearch⟩

theorem powerProduct_enumerates_two : ∃ xs : List Grid, xs.Nodup ∧ (∀ x, x ∈ xs ↔ IsMatrixFor Prime.two.val [4, 9] [2, 1] x) ∧
    powerProduct Prime.two [4, 9] [2, 1] = xs.filterMap (Grid.term? Prime.two 4) ∧
    Grid.search? Prime.two [4, 9] [2, 1] = some (powerProduct Prime.two [4, 9] [2, 1], Grid.start [4, 9] [2, 1]) := by
  have htotal : total [4, 9] + total [2, 1] < 2 ^ 32 := by decide
  exact powerProduct_enumerates (by decide) (by decide) (by decide) fun x hx n => (hx.sum_antidiagonal_le n).trans_lt htotal

end Enumerated

end Milnor
end Steenrod
