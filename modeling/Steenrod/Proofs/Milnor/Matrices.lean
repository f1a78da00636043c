import Steenrod.Proofs.Milnor.Expansion
import Steenrod.Proofs.Milnor.Exponents
import Steenrod.Proofs.Prime.Coefficients
import Steenrod.Milnor.Product
/-!
The matrices that a product of powers runs over. Main statements: they are enumerated without repetition, exactly those
of natural numbers with the row and column sums of Milnor's formula; the coefficient of a matrix is the multinomial
coefficient that belongs to the sums of its diagonals.
-/
namespace Steenrod

open MvPolynomial
open Finset.HasAntidiagonal (antidiagonal mem_antidiagonal)

namespace Milnor

theorem mem_rows {p w r r₀ : ℕ} {S xs rest : List ℕ} (hp : 0 < p) (hw : 0 < w) :
    (r₀, xs, rest) ∈ rows p w r S ↔ xs.length = S.length ∧ rest.length = S.length ∧
      r = r₀ + weigh p w (index xs) ∧ index S = index xs + index rest := by
  induction S generalizing w r r₀ xs rest with
  | nil =>
    simp only [rows, List.mem_singleton, Prod.mk.injEq, List.length_nil, List.length_eq_zero_iff]
    constructor
    · rintro ⟨rfl, rfl, rfl⟩
      simp [weigh]
    · rintro ⟨rfl, rfl, h, _⟩
      simp [h, weigh]
  | cons s S ih =>
    simp only [rows, List.mem_flatMap, List.mem_range, List.mem_map, Prod.exists, Prod.mk.injEq]
    constructor
    · rintro ⟨x, hx, r', ys, ss, hmem, rfl, rfl, rfl⟩
      obtain ⟨hys, hss, hr, hS⟩ := (ih (Nat.mul_pos hw hp)).mp hmem
      have hxs : x ≤ s := by omega
      have hxr : x * w ≤ r := (Nat.le_div_iff_mul_le hw).mp (by omega)
      refine ⟨by simp [hys], by simp [hss], ?_, ?_⟩
      · rw [weigh_index_cons, Nat.mul_comm w x]
        omega
      · rw [index_cons, index_cons, index_cons, hS, raise_add, add_add_add_comm, ← Finsupp.single_add]
        congr 2
        omega
    · rintro ⟨hxs, hrest, hr, hS⟩
      obtain ⟨x, ys, rfl⟩ := List.exists_cons_of_length_eq_add_one hxs
      obtain ⟨y, ss, rfl⟩ := List.exists_cons_of_length_eq_add_one hrest
      have hs : s = x + y := DFunLike.congr_fun hS 0
      have hS' : index S = index ys + index ss := Finsupp.ext fun i => DFunLike.congr_fun hS (i + 1)
      rw [weigh_index_cons, Nat.mul_comm w x] at hr
      have hxr : x ≤ r / w := (Nat.le_div_iff_mul_le hw).mpr (by omega)
      refine ⟨x, by omega, r₀, ys, ss, (ih (Nat.mul_pos hw hp)).mpr ⟨?_, ?_, by omega, hS'⟩, rfl, rfl, by congr 1; omega⟩
      · simpa using hxs
      · simpa using hrest

/-- What the rows of a matrix take from the columns; the heads of the rows are what is left. -/
noncomputable def taken (below : List (List ℕ)) : ℕ →₀ ℕ := (below.map fun row => index row.tail).sum

@[simp] theorem taken_nil : taken [] = 0 := rfl

@[simp] theorem taken_cons (x : ℕ) (xs : List ℕ) (below : List (List ℕ)) :
    taken ((x :: xs) :: below) = index xs + taken below := by simp [taken]

theorem mem_matrices {p : ℕ} {R S top : List ℕ} {below : List (List ℕ)} (hp : 0 < p) :
    (top, below) ∈ matrices p R S ↔ top.length = S.length ∧
      List.Forall₂ (fun r row => row.length = S.length + 1 ∧ r = weigh p 1 (index row)) R below ∧
      index S = taken below + index top := by
  induction R generalizing S top below with
  | nil =>
    simp only [matrices, List.mem_singleton, Prod.mk.injEq, List.forall₂_nil_left_iff]
    constructor
    · rintro ⟨rfl, rfl⟩
      simp [taken]
    · rintro ⟨hlen, rfl, hS⟩
      exact ⟨index_injective hlen (by simpa [taken] using hS.symm), rfl⟩
  | cons r R ih =>
    simp only [matrices, List.mem_flatMap, List.mem_map, Prod.exists, Prod.mk.injEq, List.forall₂_cons_left_iff]
    constructor
    · rintro ⟨r₀, xs, S', hrow, top', below', hmem, rfl, rfl⟩
      obtain ⟨hxs, hS', hr, hsum⟩ := (mem_rows hp hp).mp hrow
      obtain ⟨htop, hbelow, hrest⟩ := ih.mp hmem
      refine ⟨htop.trans hS', ⟨r₀ :: xs, below', ⟨by simp [hxs], ?_⟩, ?_, rfl⟩, ?_⟩
      · rw [weigh_index_cons, Nat.one_mul, Nat.one_mul, hr]
      · rwa [hS'] at hbelow
      · rw [hsum, hrest, taken_cons, add_assoc]
    · rintro ⟨htop, ⟨row, below', ⟨hlen, hr⟩, hbelow, rfl⟩, hS⟩
      obtain ⟨r₀, xs, rfl⟩ := List.exists_cons_of_length_eq_add_one hlen
      rw [weigh_index_cons, Nat.one_mul, Nat.one_mul] at hr
      rw [taken_cons, add_assoc] at hS
      obtain ⟨S', hlen', hS'⟩ : ∃ S', S'.length = S.length ∧ index S' = taken below' + index top := by
        refine exists_index_eq fun i hi => ?_
        have h := DFunLike.congr_fun hS i
        rw [index_of_length_le hi, Finsupp.add_apply] at h
        exact (Nat.add_eq_zero_iff.mp h.symm).2
      refine ⟨r₀, xs, S', (mem_rows hp hp).mpr ⟨by simpa using hlen, hlen', hr, by rw [hS, hS']⟩, top, below',
        ih.mpr ⟨by rw [htop, hlen'], by rwa [hlen'], hS'⟩, rfl, rfl⟩


/-- The places of a matrix: those of the top row, and those of the other rows, each by its row and column. -/
abbrev Slot : Type := ℕ ⊕ ℕ × ℕ

/-- The diagonal of a place, counted from the first entry of the top row. -/
def Slot.place : Slot → ℕ := Sum.elim id fun x => x.1 + x.2

def Slot.fiber (l : ℕ) : Finset Slot := Finset.disjSum {l} (antidiagonal l)

theorem Slot.mem_fiber (x : Slot) (l : ℕ) : x ∈ Slot.fiber l ↔ x.place = l := by
  cases x with
  | inl k => simp [Slot.fiber, Slot.place]
  | inr x => simp [Slot.fiber, Slot.place]

/-- The entries of rows. -/
noncomputable def entries : List (List ℕ) → ℕ × ℕ →₀ ℕ
  | [] => 0
  | row :: rows => (index row).mapDomain (fun j => (0, j)) + (entries rows).mapDomain fun x => (x.1 + 1, x.2)

/-- The entries of a matrix. -/
noncomputable def cells (top : List ℕ) (below : List (List ℕ)) : Slot →₀ ℕ :=
  (index top).mapDomain Sum.inl + (entries below).mapDomain Sum.inr

theorem entries_apply (rows : List (List ℕ)) (i j : ℕ) : entries rows (i, j) = index (rows[i]?.getD []) j := by
  induction rows generalizing i with
  | nil => simp [entries]
  | cons row rows ih =>
    have hrow : Function.Injective fun j : ℕ => ((0, j) : ℕ × ℕ) := fun a b h => congrArg Prod.snd h
    have hnext : Function.Injective fun x : ℕ × ℕ => (x.1 + 1, x.2) := fun a b h => by simpa [Prod.ext_iff] using h
    rw [entries, Finsupp.add_apply]
    cases i with
    | zero =>
      rw [Finsupp.mapDomain_apply hrow (index row) j, Finsupp.mapDomain_of_notMem_range, Nat.add_zero]
      · rfl
      · simp
    | succ i =>
      rw [Finsupp.mapDomain_apply hnext (entries rows) (i, j), Finsupp.mapDomain_of_notMem_range, Nat.zero_add, ih]
      · rfl
      · simp

theorem cells_inl (top : List ℕ) (below : List (List ℕ)) (l : ℕ) : cells top below (Sum.inl l) = index top l := by
  rw [cells, Finsupp.add_apply, Finsupp.mapDomain_apply Sum.inl_injective,
    Finsupp.mapDomain_of_notMem_range _ _ (by simp), Nat.add_zero]

theorem cells_inr (top : List ℕ) (below : List (List ℕ)) (x : ℕ × ℕ) :
    cells top below (Sum.inr x) = entries below x := by
  rw [cells, Finsupp.add_apply, Finsupp.mapDomain_apply Sum.inr_injective,
    Finsupp.mapDomain_of_notMem_range _ _ (by simp), Nat.zero_add]

theorem index_consEach (row : List ℕ) (ds : List (List ℕ)) :
    index ((consEach row ds).map total) = index row + index (ds.map total) := by
  induction row generalizing ds with
  | nil => simp [consEach]
  | cons x row ih =>
    cases ds with
    | nil => simp [consEach, index_cons, ih]
    | cons d ds => simp [consEach, index_cons, ih, raise_add, add_add_add_comm]

/-- The sums of the diagonals. -/
theorem index_diagonals (rows : List (List ℕ)) :
    index ((diagonals rows).map total) = (entries rows).mapDomain fun x => x.1 + x.2 := by
  induction rows with
  | nil => rfl
  | cons row rows ih =>
    rw [diagonals, index_consEach, List.map_cons, total_nil, index_cons, Finsupp.single_zero, zero_add, ih, entries,
      Finsupp.mapDomain_add, ← Finsupp.mapDomain_comp, ← Finsupp.mapDomain_comp, raise, ← Finsupp.mapDomain_comp]
    congr 1
    · exact (Finsupp.mapDomain_id.symm.trans (by congr 1; funext j; simp))
    · congr 1
      funext x
      simp [Nat.add_right_comm]

theorem index_diagonals_cells (top : List ℕ) (below : List (List ℕ)) :
    index ((consEach top (diagonals below)).map total) = (cells top below).mapDomain Slot.place := by
  rw [index_consEach, index_diagonals, cells, Finsupp.mapDomain_add, ← Finsupp.mapDomain_comp, ← Finsupp.mapDomain_comp]
  congr 1
  exact Finsupp.mapDomain_id.symm

theorem factorials_add_of_disjoint {σ : Type} {T U : σ →₀ ℕ} (h : Disjoint T.support U.support) :
    factorials (T + U) = factorials T * factorials U := Finsupp.prod_add_index_of_disjoint h _

theorem factorials_mapDomain {σ τ : Type} {f : σ → τ} (hf : Function.Injective f) (T : σ →₀ ℕ) :
    factorials (T.mapDomain f) = factorials T := Finsupp.prod_mapDomain_index_inj hf


theorem factorials_raise (T : ℕ →₀ ℕ) : factorials (raise T) = factorials T := factorials_mapDomain Nat.succ_injective T

theorem factorials_single {σ : Type} (x : σ) (k : ℕ) : factorials (Finsupp.single x k) = k.factorial :=
  Finsupp.prod_single_index Nat.factorial_zero

theorem factorials_index (l : List ℕ) : factorials (index l) = (l.map Nat.factorial).prod := by
  induction l with
  | nil => rfl
  | cons x l ih =>
    have hdisj : Disjoint (Finsupp.single 0 x).support (raise (index l)).support := by
      refine Finset.disjoint_left.mpr fun i hi hr => ?_
      obtain rfl : i = 0 := by
        by_contra hne
        exact Finsupp.mem_support_iff.mp hi (Finsupp.single_eq_of_ne hne)
      exact Finsupp.mem_support_iff.mp hr (raise_zero_apply _)
    rw [index_cons, factorials_add_of_disjoint hdisj, factorials_raise, ih, factorials_single, List.map_cons,
      List.prod_cons]

/-- The product of the factorials of all entries of lists. -/
def entryFactorials (ds : List (List ℕ)) : ℕ := (ds.map fun d => (d.map Nat.factorial).prod).prod

theorem entryFactorials_consEach (row : List ℕ) (ds : List (List ℕ)) :
    entryFactorials (consEach row ds) = (row.map Nat.factorial).prod * entryFactorials ds := by
  unfold entryFactorials
  induction row generalizing ds with
  | nil => simp [consEach]
  | cons x row ih =>
    cases ds with
    | nil => simp [consEach, ih]
    | cons d ds =>
      simp only [consEach, List.map_cons, List.prod_cons, ih]
      ring

theorem factorials_entries (rows : List (List ℕ)) : factorials (entries rows) = entryFactorials (diagonals rows) := by
  induction rows with
  | nil => rfl
  | cons row rows ih =>
    have hrow : Function.Injective fun j : ℕ => ((0, j) : ℕ × ℕ) := fun a b h => congrArg Prod.snd h
    have hnext : Function.Injective fun x : ℕ × ℕ => (x.1 + 1, x.2) := fun a b h => by simpa [Prod.ext_iff] using h
    have hdisj : Disjoint ((index row).mapDomain fun j => ((0, j) : ℕ × ℕ)).support
        ((entries rows).mapDomain fun x => (x.1 + 1, x.2)).support := by
      refine Finset.disjoint_left.mpr fun x h₀ h₁ => ?_
      obtain ⟨j, _, rfl⟩ := Finset.mem_image.mp (Finsupp.mapDomain_support h₀)
      obtain ⟨y, _, hy⟩ := Finset.mem_image.mp (Finsupp.mapDomain_support h₁)
      simp at hy
    rw [entries, factorials_add_of_disjoint hdisj, factorials_mapDomain hrow, factorials_mapDomain hnext, ih,
      factorials_index, diagonals, entryFactorials_consEach, entryFactorials, entryFactorials]
    simp

theorem factorials_cells (top : List ℕ) (below : List (List ℕ)) :
    factorials (cells top below) = entryFactorials (consEach top (diagonals below)) := by
  have hdisj : Disjoint ((index top).mapDomain (Sum.inl : ℕ → Slot)).support
      ((entries below).mapDomain (Sum.inr : ℕ × ℕ → Slot)).support := by
    refine Finset.disjoint_left.mpr fun x h₀ h₁ => ?_
    obtain ⟨j, _, rfl⟩ := Finset.mem_image.mp (Finsupp.mapDomain_support h₀)
    obtain ⟨y, _, hy⟩ := Finset.mem_image.mp (Finsupp.mapDomain_support h₁)
    simp at hy
  rw [cells, factorials_add_of_disjoint hdisj, factorials_mapDomain Sum.inl_injective,
    factorials_mapDomain Sum.inr_injective, factorials_index, factorials_entries, entryFactorials_consEach]

/-- The product of the multinomial coefficients of lists. -/
def multinomials (ds : List (List ℕ)) : ℕ := (ds.map multinomial).prod

theorem multinomials_mul_entryFactorials (ds : List (List ℕ)) :
    multinomials ds * entryFactorials ds = factorials (index (ds.map total)) := by
  rw [factorials_index]
  unfold multinomials entryFactorials
  induction ds with
  | nil => rfl
  | cons d ds ih =>
    simp only [List.map_cons, List.prod_cons]
    rw [← ih, ← multinomial_mul_factorials]
    ring

theorem coeff_cells (T : ℕ →₀ ℕ) (top : List ℕ) (below : List (List ℕ)) :
    coeff (cells top below) (fiberPower Slot.fiber T) =
      if (cells top below).mapDomain Slot.place = T then multinomials (consEach top (diagonals below)) else 0 := by
  refine Nat.eq_of_mul_eq_mul_right (factorials_pos (cells top below)) ?_
  rw [coeff_fiberPower Slot.mem_fiber, ite_mul, zero_mul]
  refine ite_congr rfl (fun h => ?_) fun _ => rfl
  rw [factorials_cells, multinomials_mul_entryFactorials, index_diagonals_cells, h]

theorem cast_diagonalCoefficient {p : Prime} (hp : p.val ≤ 2147483648) (ds : List (List ℕ)) :
    (diagonalCoefficient p ds : p.Field) = (multinomials ds : p.Field) := by
  unfold diagonalCoefficient multinomials
  induction ds with
  | nil => rfl
  | cons d ds ih =>
    rw [List.foldr_cons, Prime.cast_product, ih, p.multinomial_eq hp, Prime.cast_mod, List.map_cons, List.prod_cons,
      Nat.cast_mul]

/-- What the entries below the top row give to the row sums: `p^j z_ij` to row `i`. -/
noncomputable def rowSum (p : ℕ) (Z : Slot →₀ ℕ) : ℕ →₀ ℕ :=
  Z.sum fun x k => match x with
    | .inl _ => 0
    | .inr (i, j) => Finsupp.single i (p ^ j * k)

/-- The column sums. The first entries of the rows below the top row are in no column. -/
noncomputable def columnSum (Z : Slot →₀ ℕ) : ℕ →₀ ℕ :=
  Z.sum fun x k => match x with
    | .inl l => Finsupp.single l k
    | .inr (_, 0) => 0
    | .inr (_, j + 1) => Finsupp.single j k

theorem rowSum_add (p : ℕ) (Y Z : Slot →₀ ℕ) : rowSum p (Y + Z) = rowSum p Y + rowSum p Z := by
  refine Finsupp.sum_add_index' ?_ ?_
  · rintro (_ | ⟨i, j⟩) <;> simp
  · rintro (_ | ⟨i, j⟩) b c <;> simp [Nat.mul_add]

theorem columnSum_add (Y Z : Slot →₀ ℕ) : columnSum (Y + Z) = columnSum Y + columnSum Z := by
  refine Finsupp.sum_add_index' ?_ ?_
  · rintro (_ | ⟨i, _ | j⟩) <;> simp
  · rintro (_ | ⟨i, _ | j⟩) b c <;> simp

theorem rowSum_single_inl (p l k : ℕ) : rowSum p (Finsupp.single (Sum.inl l) k) = 0 := by
  simp [rowSum]

theorem rowSum_single_inr (p i j k : ℕ) :
    rowSum p (Finsupp.single (Sum.inr (i, j)) k) = Finsupp.single i (p ^ j * k) := by
  simp [rowSum]

theorem columnSum_single_inl (l k : ℕ) : columnSum (Finsupp.single (Sum.inl l) k) = Finsupp.single l k := by
  simp [columnSum]

theorem columnSum_single_zero (i k : ℕ) : columnSum (Finsupp.single (Sum.inr (i, 0)) k) = 0 := by
  simp [columnSum]

theorem columnSum_single_succ (i j k : ℕ) :
    columnSum (Finsupp.single (Sum.inr (i, j + 1)) k) = Finsupp.single j k := by
  simp [columnSum]

theorem rowSum_inl (p : ℕ) (T : ℕ →₀ ℕ) : rowSum p (T.mapDomain Sum.inl) = 0 := by
  induction T using Finsupp.induction_linear with
  | zero => simp [rowSum]
  | add f g hf hg => rw [Finsupp.mapDomain_add, rowSum_add, hf, hg, add_zero]
  | single l k => rw [Finsupp.mapDomain_single, rowSum_single_inl]

theorem columnSum_inl (T : ℕ →₀ ℕ) : columnSum (T.mapDomain Sum.inl) = T := by
  induction T using Finsupp.induction_linear with
  | zero => simp [columnSum]
  | add f g hf hg => rw [Finsupp.mapDomain_add, columnSum_add, hf, hg]
  | single l k => rw [Finsupp.mapDomain_single, columnSum_single_inl]

theorem rowSum_first (p : ℕ) (T : ℕ →₀ ℕ) :
    rowSum p ((T.mapDomain fun j => ((0, j) : ℕ × ℕ)).mapDomain Sum.inr) = Finsupp.single 0 (weigh p 1 T) := by
  induction T using Finsupp.induction_linear with
  | zero => simp [rowSum, weigh]
  | add f g hf hg => rw [Finsupp.mapDomain_add, Finsupp.mapDomain_add, rowSum_add, hf, hg, weigh_add, Finsupp.single_add]
  | single j k =>
    rw [Finsupp.mapDomain_single, Finsupp.mapDomain_single, rowSum_single_inr]
    simp [weigh]

theorem columnSum_first (row : List ℕ) :
    columnSum (((index row).mapDomain fun j => ((0, j) : ℕ × ℕ)).mapDomain Sum.inr) = index row.tail := by
  cases row with
  | nil => simp [columnSum]
  | cons x xs =>
    rw [List.tail_cons, index_cons, Finsupp.mapDomain_add, Finsupp.mapDomain_add, columnSum_add,
      Finsupp.mapDomain_single, Finsupp.mapDomain_single, columnSum_single_zero, zero_add]
    induction index xs using Finsupp.induction_linear with
    | zero => simp [columnSum, raise]
    | add f g hf hg => rw [raise_add, Finsupp.mapDomain_add, Finsupp.mapDomain_add, columnSum_add, hf, hg]
    | single j k =>
      rw [raise, Finsupp.mapDomain_single, Finsupp.mapDomain_single, Finsupp.mapDomain_single, columnSum_single_succ]

theorem rowSum_next (p : ℕ) (E : ℕ × ℕ →₀ ℕ) :
    rowSum p ((E.mapDomain fun x => (x.1 + 1, x.2)).mapDomain Sum.inr) = raise (rowSum p (E.mapDomain Sum.inr)) := by
  induction E using Finsupp.induction_linear with
  | zero => simp [rowSum, raise]
  | add f g hf hg => simp only [Finsupp.mapDomain_add, rowSum_add, hf, hg, raise_add]
  | single x k =>
    obtain ⟨i, j⟩ := x
    simp only [Finsupp.mapDomain_single, rowSum_single_inr, raise]

theorem columnSum_next (E : ℕ × ℕ →₀ ℕ) :
    columnSum ((E.mapDomain fun x => (x.1 + 1, x.2)).mapDomain Sum.inr) = columnSum (E.mapDomain Sum.inr) := by
  induction E using Finsupp.induction_linear with
  | zero => simp
  | add f g hf hg => simp only [Finsupp.mapDomain_add, columnSum_add, hf, hg]
  | single x k =>
    obtain ⟨i, _ | j⟩ := x
    · simp only [Finsupp.mapDomain_single, columnSum_single_zero]
    · simp only [Finsupp.mapDomain_single, columnSum_single_succ]

theorem rowSum_cells (p : ℕ) (top : List ℕ) (below : List (List ℕ)) :
    rowSum p (cells top below) = index (below.map fun row => weigh p 1 (index row)) := by
  rw [cells, rowSum_add, rowSum_inl, zero_add]
  induction below with
  | nil => simp [entries, rowSum]
  | cons row rows ih =>
    rw [entries, Finsupp.mapDomain_add, rowSum_add, rowSum_first, rowSum_next, ih, List.map_cons, index_cons]

theorem columnSum_cells (top : List ℕ) (below : List (List ℕ)) :
    columnSum (cells top below) = taken below + index top := by
  rw [cells, columnSum_add, columnSum_inl, add_comm]
  congr 1
  induction below with
  | nil => simp [entries, columnSum]
  | cons row rows ih =>
    rw [entries, Finsupp.mapDomain_add, columnSum_add, columnSum_first, columnSum_next, ih, taken, taken, List.map_cons,
      List.sum_cons]

theorem rowSum_of_mem {p : ℕ} {R S top : List ℕ} {below : List (List ℕ)} (hp : 0 < p)
    (h : (top, below) ∈ matrices p R S) : rowSum p (cells top below) = index R := by
  obtain ⟨_, hrows, -⟩ := (mem_matrices hp).mp h
  have hmap : below.map (fun row => weigh p 1 (index row)) = R := by
    clear h
    induction hrows with
    | nil => rfl
    | cons h _ ih => rw [List.map_cons, ih, ← h.2]
  rw [rowSum_cells, hmap]

theorem columnSum_of_mem {p : ℕ} {R S top : List ℕ} {below : List (List ℕ)} (hp : 0 < p)
    (h : (top, below) ∈ matrices p R S) : columnSum (cells top below) = index S := by
  obtain ⟨_, _, hS⟩ := (mem_matrices hp).mp h
  rw [columnSum_cells, hS]


theorem sub_single_add (Z : Slot →₀ ℕ) (x : Slot) : Z - Finsupp.single x (Z x) + Finsupp.single x (Z x) = Z :=
  tsub_add_cancel_of_le (Finsupp.single_le_iff.mpr le_rfl)

theorem le_rowSum {p : ℕ} (hp : 0 < p) (Z : Slot →₀ ℕ) (i j : ℕ) : Z (.inr (i, j)) ≤ rowSum p Z i := by
  have h := congrArg (fun Y => rowSum p Y i) (sub_single_add Z (.inr (i, j)))
  simp only [rowSum_add, rowSum_single_inr, Finsupp.add_apply, Finsupp.single_eq_same] at h
  have hle := Nat.le_mul_of_pos_left (Z (.inr (i, j))) (Nat.pow_pos hp : 0 < p ^ j)
  omega

theorem columnSum_inl_le (Z : Slot →₀ ℕ) (l : ℕ) : Z (.inl l) ≤ columnSum Z l := by
  have h := congrArg (fun Y => columnSum Y l) (sub_single_add Z (.inl l))
  simp only [columnSum_add, columnSum_single_inl, Finsupp.add_apply, Finsupp.single_eq_same] at h
  omega

theorem columnSum_inr_le (Z : Slot →₀ ℕ) (i j : ℕ) : Z (.inr (i, j + 1)) ≤ columnSum Z j := by
  have h := congrArg (fun Y => columnSum Y j) (sub_single_add Z (.inr (i, j + 1)))
  simp only [columnSum_add, columnSum_single_succ, Finsupp.add_apply, Finsupp.single_eq_same] at h
  omega

/-- Every matrix of natural numbers with these row and column sums is enumerated. -/
theorem exists_mem_matrices {p : ℕ} {R S : List ℕ} {Z : Slot →₀ ℕ} (hp : 0 < p) (hrow : rowSum p Z = index R)
    (hcol : columnSum Z = index S) : ∃ m ∈ matrices p R S, cells m.1 m.2 = Z := by
  let top := (List.range S.length).map fun l => Z (.inl l)
  let below := (List.range R.length).map fun i => (List.range (S.length + 1)).map fun j => Z (.inr (i, j))
  have hZ : cells top below = Z := by
    ext x
    rcases x with l | ⟨i, j⟩
    · rw [cells_inl, index_apply]
      by_cases hl : l < S.length
      · simp [top, hl]
      · have hle := columnSum_inl_le Z l
        rw [hcol, index_of_length_le (not_lt.mp hl)] at hle
        simp [top, hl, Nat.le_zero.mp hle]
    · rw [cells_inr, entries_apply, index_apply]
      by_cases hi : i < R.length
      · by_cases hj : j < S.length + 1
        · simp [below, hi, hj]
        · obtain ⟨k, rfl⟩ : ∃ k, j = k + 1 := ⟨j - 1, by omega⟩
          have hle := columnSum_inr_le Z i k
          rw [hcol, index_of_length_le (by omega)] at hle
          simp [below, hi, hj, Nat.le_zero.mp hle]
      · have hle := le_rowSum hp Z i j
        rw [hrow, index_of_length_le (not_lt.mp hi)] at hle
        simp [below, hi, Nat.le_zero.mp hle]
  have hrows : below.map (fun row => weigh p 1 (index row)) = R :=
    index_injective (by simp [below]) (by rw [← rowSum_cells p top below, hZ, hrow])
  refine ⟨(top, below), (mem_matrices hp).mpr ⟨by simp [top], List.forall₂_iff_get.mpr ⟨by simp [below], fun i hi hi' => ?_⟩, ?_⟩, hZ⟩
  · refine ⟨by simp [below], ?_⟩
    have hget := List.getElem_of_eq hrows.symm hi
    simpa using hget
  · rw [← columnSum_cells, hZ, hcol]

theorem cells_injective {p : ℕ} {R S : List ℕ} {m m' : List ℕ × List (List ℕ)} (hp : 0 < p)
    (hm : m ∈ matrices p R S) (hm' : m' ∈ matrices p R S) (h : cells m.1 m.2 = cells m'.1 m'.2) : m = m' := by
  obtain ⟨top, below⟩ := m
  obtain ⟨top', below'⟩ := m'
  obtain ⟨htop, hrows, -⟩ := (mem_matrices hp).mp hm
  obtain ⟨htop', hrows', -⟩ := (mem_matrices hp).mp hm'
  have h₁ : top = top' := by
    refine index_injective (htop.trans htop'.symm) (Finsupp.ext fun l => ?_)
    simpa [cells_inl] using DFunLike.congr_fun h (Sum.inl l)
  have h₂ : below = below' := by
    refine List.ext_getElem (hrows.length_eq.symm.trans hrows'.length_eq) fun i hi hi' => ?_
    have hlen := ((List.forall₂_iff_get.mp hrows).2 i (by rw [hrows.length_eq]; exact hi) hi).1
    have hlen' := ((List.forall₂_iff_get.mp hrows').2 i (by rw [hrows'.length_eq]; exact hi') hi').1
    refine index_injective (hlen.trans hlen'.symm) (Finsupp.ext fun j => ?_)
    simpa [cells_inr, entries_apply, hi, hi'] using DFunLike.congr_fun h (Sum.inr (i, j))
  rw [h₁, h₂]

theorem rows_nodup (p w r : ℕ) (S : List ℕ) : (rows p w r S).Nodup := by
  induction S generalizing w r with
  | nil => simp [rows]
  | cons s S ih =>
    rw [rows, List.nodup_flatMap]
    refine ⟨fun x _ => (ih _ _).map fun y z h => ?_, (List.nodup_range).imp fun {x y} hne => ?_⟩
    · simp only [Prod.mk.injEq, List.cons.injEq] at h
      obtain ⟨h₁, ⟨_, h₂⟩, _, h₃⟩ := h
      exact Prod.ext h₁ (Prod.ext h₂ h₃)
    · rw [Function.onFun, List.disjoint_left]
      intro z hz hz'
      obtain ⟨_, _, rfl⟩ := List.mem_map.mp hz
      obtain ⟨_, _, h⟩ := List.mem_map.mp hz'
      simp only [Prod.mk.injEq, List.cons.injEq] at h
      exact hne h.2.1.1.symm

theorem matrices_nodup {p : ℕ} (hp : 0 < p) (R S : List ℕ) : (matrices p R S).Nodup := by
  induction R generalizing S with
  | nil => simp [matrices]
  | cons r R ih =>
    rw [matrices, List.nodup_flatMap]
    refine ⟨fun x _ => (ih _).map fun y z h => ?_, (rows_nodup p p r S).pairwise_of_forall_ne fun x hx y hy hne => ?_⟩
    · simp only [Prod.mk.injEq, List.cons.injEq, true_and] at h
      exact Prod.ext h.1 h.2
    · rw [Function.onFun, List.disjoint_left]
      intro z hz hz'
      obtain ⟨_, _, rfl⟩ := List.mem_map.mp hz
      obtain ⟨_, _, h⟩ := List.mem_map.mp hz'
      simp only [Prod.mk.injEq, List.cons.injEq] at h
      obtain ⟨_, ⟨h₁, h₂⟩, _⟩ := h
      -- What is left of the columns is determined by what was taken.
      obtain ⟨r₀, xs, rest⟩ := x
      obtain ⟨r₁, ys, rest'⟩ := y
      obtain ⟨_, hlen, _, hS⟩ := (mem_rows hp hp).mp hx
      obtain ⟨_, hlen', _, hS'⟩ := (mem_rows hp hp).mp hy
      simp only at h₁ h₂
      subst h₁ h₂
      have hrest : rest = rest' := index_injective (hlen.trans hlen'.symm) (add_left_cancel (hS.symm.trans hS'))
      exact hne (by rw [hrest])

end Milnor
end Steenrod
