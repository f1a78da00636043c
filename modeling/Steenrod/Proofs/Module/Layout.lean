import Steenrod.Proofs.Milnor.Coproduct
import Steenrod.Proofs.Module.Measured
import Steenrod.Proofs.Module.Rows
import Steenrod.Proofs.Module.TensorModule
import Steenrod.Proofs.Module.Truncated
/-!
The basis of a product of bounded modules, which may be zero in any degrees. Main statement: in every degree that the table reaches, the
places below the dimension are those of the pairs of basis elements of the factors, one place for each pair; the left degree and the name
of a place are found from it, and the action through a coproduct reads and writes the entries at the same places.
-/
namespace Steenrod

open Vec

/-- The view `N` is that of a module that is zero below `low` and above `high`, and has the dimensions `D` in degrees up to `top`. -/
structure GradedModule.IsBounded (N : GradedModule) (D : ℤ → ℕ) (low high top : ℤ) : Prop extends N.HasDimensions D top where
  minDegree_eq : N.minDegree = low
  maxDegree_eq : N.maxDegree = some high
  eq_zero_above : ∀ d, high < d → D d = 0

theorem FiniteModule.isBounded (M : FiniteModule) (A : Algebra) (top : ℤ) :
    (M.toGraded A).IsBounded M.dimension M.minDegree M.maxDegree top where
  dimension_eq _ _ _ := rfl
  eq_zero _ hd := dimension_of_lt hd
  minDegree_eq := rfl
  maxDegree_eq := rfl
  eq_zero_above _ hd := dimension_of_nextDegree_le (Int.le_of_sub_one_lt hd)

/-- A finite module of given dimensions, on which nothing acts. -/
def FiniteModule.ofDimensions (D : ℤ → ℕ) (low high : ℤ) : FiniteModule :=
  ⟨"", Graded.ofList low ((GradedModule.degreesBetween low high).map D), Graded.empty low, Graded.empty low⟩

namespace GradedModule.IsBounded

variable {N : GradedModule} {D : ℤ → ℕ} {low high top : ℤ} (h : N.IsBounded D low high top)

include h

theorem eq_zero_below : ∀ d < low, D d = 0 := h.minDegree_eq ▸ h.eq_zero

theorem degrees_of_pos {d : ℤ} (hd : 0 < D d) : low ≤ d ∧ d ≤ high := by
  constructor
  · by_contra hlt
    rw [h.eq_zero_below d (not_le.mp hlt)] at hd
    exact absurd hd (Nat.lt_irrefl 0)
  · by_contra hlt
    rw [h.eq_zero_above d (not_le.mp hlt)] at hd
    exact absurd hd (Nat.lt_irrefl 0)

theorem dimension_ofDimensions : (FiniteModule.ofDimensions D low high).dimension = D := by
  funext d
  rw [FiniteModule.dimension, FiniteModule.ofDimensions, FiniteModule.get?_ofList_degrees]
  split
  · rfl
  · next hnot =>
    by_cases hlow : d < low
    · exact (h.eq_zero_below d hlow).symm
    · exact (h.eq_zero_above d (by omega)).symm

/-- The dimensions of a bounded module are those of a finite one. -/
theorem measures : N.Measures (FiniteModule.ofDimensions D low high) top where
  minDegree_eq := h.minDegree_eq
  endsWith := by
    refine ⟨high, h.maxDegree_eq, ?_⟩
    change low + ((Graded.ofList low ((GradedModule.degreesBetween low high).map D)).entries.size : ℤ) - 1 = max high (low - 1)
    simp only [Graded.ofList, List.size_toArray, List.length_map, length_degreesBetween]
    omega
  dimension_eq d hlow hd := by
    rw [h.dimension_ofDimensions]
    exact h.dimension_eq d (h.minDegree_eq.trans_le hlow) hd

end GradedModule.IsBounded

namespace TensorTable

variable {D E : ℤ → ℕ} {low high low' high' : ℤ} {L R : GradedModule} {T : TensorTable} {s t l l' : ℤ} {i i' j j' n : ℕ}

/-- Views of bounded modules extend a table by the rows of finite ones. -/
theorem extend_of_isBounded (hL : L.IsBounded D low high (t - low')) (hR : R.IsBounded E low' high' (t - low)) (A : Algebra) :
    T.extend L R t = T.extend ((FiniteModule.ofDimensions D low high).toGraded A) ((FiniteModule.ofDimensions E low' high').toGraded A) t :=
  extend_of_measures (L := FiniteModule.ofDimensions D low high) (R := FiniteModule.ofDimensions E low' high') hL.measures hR.measures A le_rfl

/-- The tables of products of bounded modules with the dimensions `D` and `E`: they are extended any number of times, by views that reach as
far as that. -/
inductive Extended (D : ℤ → ℕ) (low high : ℤ) (E : ℤ → ℕ) (low' high' : ℤ) : TensorTable → Prop
  | new {L R : GradedModule} (hL : L.minDegree = low) (hR : R.minDegree = low') : Extended D low high E low' high' (TensorTable.new L R)
  | extend {T T' : TensorTable} {L R : GradedModule} {t : ℤ} (hT : Extended D low high E low' high' T)
    (hL : L.IsBounded D low high (t - low')) (hR : R.IsBounded E low' high' (t - low)) (h : T.extend L R t = .ok T') :
    Extended D low high E low' high' T'

theorem Extended.records (h : Extended D low high E low' high' T) :
    Records (FiniteModule.ofDimensions D low high) (FiniteModule.ofDimensions E low' high') T := by
  induction h with
  | new hL hR =>
    rw [TensorTable.new, hL, hR]
    exact records_new (Algebra.new Prime.two none)
  | extend _ hL hR h ih =>
    rw [extend_of_isBounded hL hR (Algebra.new Prime.two none)] at h
    exact (ih.extend h).1

/-- A table can be extended as far as the factors are known. -/
theorem Extended.exists_extend (hT : Extended D low high E low' high' T) (hL : L.IsBounded D low high (t - low'))
    (hR : R.IsBounded E low' high' (t - low)) :
    ∃ T', T.extend L R t = .ok T' ∧ Extended D low high E low' high' T' ∧ T'.offsets.nextDegree = max T.offsets.nextDegree (t + 1) := by
  obtain ⟨T', h⟩ := TensorTable.exists_extend (L := FiniteModule.ofDimensions D low high) (R := FiniteModule.ofDimensions E low' high')
    (Algebra.new Prime.two none) T t
  have h' := (extend_of_isBounded hL hR _).trans h
  exact ⟨T', h', hT.extend hL hR h', (hT.records.extend h).2⟩

/-- The number of pairs of basis elements, one of a left factor of some degree and one of the right factor that this leaves. -/
noncomputable def pairs (D : ℤ → ℕ) (low high : ℤ) (E : ℤ → ℕ) (t : ℤ) : ℕ := ∑ l ∈ Finset.Icc low high, D l * E (t - l)

/-- Where the block of a left degree starts. -/
def start (T : TensorTable) (t l : ℤ) : ℕ := (T.offset t l).toOption.getD 0

/-- The place of basis element `i` of the left factor in degree `l` with basis element `j` of the right factor. -/
def place (E : ℤ → ℕ) (T : TensorTable) (t l : ℤ) (i j : ℕ) : ℕ := T.start t l + i * E (t - l) + j

section Places

variable (hL : L.IsBounded D low high (t - low')) (hR : R.IsBounded E low' high' (t - low))

include hL hR

theorem total_eq (s : ℤ) :
    total (FiniteModule.ofDimensions D low high) (FiniteModule.ofDimensions E low' high') s = pairs D low high E s := by
  have hspan : span (FiniteModule.ofDimensions D low high) = (high + 1 - low).toNat := by
    obtain ⟨m, hm, hmax⟩ := hL.measures.endsWith
    obtain rfl := Option.some.inj (hL.maxDegree_eq.symm.trans hm)
    have hmin : (FiniteModule.ofDimensions D low high).minDegree = low := rfl
    unfold span
    omega
  have hwidth : ∀ k, width (FiniteModule.ofDimensions D low high) (FiniteModule.ofDimensions E low' high') s k =
      D (low + k) * E (s - (low + k)) := fun k => by
    rw [width, rowLength, hL.dimension_ofDimensions, hR.dimension_ofDimensions]
    rfl
  rw [total, blockStart, hspan, pairs]
  refine Finset.sum_nbij' (fun k => low + (k : ℤ)) (fun l => (l - low).toNat) (fun k hk => ?_) (fun l hl => ?_) (fun k _ => ?_)
    (fun l hl => ?_) fun k _ => hwidth k
  · have := Finset.mem_range.mp hk
    exact Finset.mem_Icc.mpr ⟨by omega, by omega⟩
  · have := Finset.mem_Icc.mp hl
    exact Finset.mem_range.mpr (by omega)
  · omega
  · have := Finset.mem_Icc.mp hl
    omega

variable (hT : Extended D low high E low' high' T) (ht : t < T.offsets.nextDegree) (hs : s ≤ t)

include hT ht hs

/-- The block of a left degree that has pairs. -/
theorem exists_block_eq (hl : 0 < D l) (hr : 0 < E (s - l)) :
    ∃ k, l = leftDegree (FiniteModule.ofDimensions D low high) k ∧ T.offset s l = .ok (T.start s l) ∧
      T.start s l = blockStart (width (FiniteModule.ofDimensions D low high) (FiniteModule.ofDimensions E low' high') s) k := by
  have hrange := hL.degrees_of_pos hl
  have hrange' := hR.degrees_of_pos hr
  have hdegree : leftDegree (FiniteModule.ofDimensions D low high) (l - low).toNat = l := by
    change low + ((l - low).toNat : ℤ) = l
    omega
  have hi : 0 < (FiniteModule.ofDimensions D low high).dimension (leftDegree (FiniteModule.ofDimensions D low high) (l - low).toNat) := by
    rwa [hL.dimension_ofDimensions, hdegree]
  have hj : 0 < rowLength (FiniteModule.ofDimensions D low high) (FiniteModule.ofDimensions E low' high') s (l - low).toNat := by
    rwa [rowLength, hR.dimension_ofDimensions, hdegree]
  have hplace := rowStart_add_lt_total (lt_span hi) hi hj
  have hoffset := hT.records.offset_eq (le_of_lt_total hplace) (by omega) (lt_reach (lt_span hi) hj).le
  rw [hdegree] at hoffset
  have hstart : T.start s l = blockStart (width (FiniteModule.ofDimensions D low high) (FiniteModule.ofDimensions E low' high') s)
      (l - low).toNat := by
    rw [start, hoffset]
    rfl
  exact ⟨_, hdegree.symm, hoffset.trans (congrArg Except.ok hstart.symm), hstart⟩

/-- The place of a pair in the rows of finite modules. -/
theorem exists_place_eq (hi : i < D l) (hj : j < E (s - l)) :
    ∃ k, l = leftDegree (FiniteModule.ofDimensions D low high) k ∧
      i < (FiniteModule.ofDimensions D low high).dimension (leftDegree (FiniteModule.ofDimensions D low high) k) ∧
      j < rowLength (FiniteModule.ofDimensions D low high) (FiniteModule.ofDimensions E low' high') s k ∧
      place E T s l i j = rowStart (FiniteModule.ofDimensions D low high) (FiniteModule.ofDimensions E low' high') s k i + j := by
  obtain ⟨k, rfl, _, hstart⟩ := exists_block_eq hL hR hT ht hs (Nat.zero_lt_of_lt hi) (Nat.zero_lt_of_lt hj)
  refine ⟨k, rfl, ?_, ?_, ?_⟩
  · rwa [hL.dimension_ofDimensions]
  · rwa [rowLength, hR.dimension_ofDimensions]
  · rw [place, hstart, rowStart, rowLength, hR.dimension_ofDimensions]

theorem place_lt (hi : i < D l) (hj : j < E (s - l)) : place E T s l i j < pairs D low high E s := by
  obtain ⟨k, _, hi, hj, hplace⟩ := exists_place_eq hL hR hT ht hs hi hj
  rw [hplace, ← total_eq hL hR]
  exact rowStart_add_lt_total (lt_span hi) hi hj

/-- Every place is that of a pair. -/
theorem exists_place (hn : n < pairs D low high E s) : ∃ l, ∃ i < D l, ∃ j < E (s - l), n = place E T s l i j := by
  rw [← total_eq hL hR] at hn
  obtain ⟨k, _, i, hi, j, hj, rfl⟩ := exists_row hn
  rw [hL.dimension_ofDimensions] at hi
  rw [rowLength, hR.dimension_ofDimensions] at hj
  obtain ⟨k', hk', _, _, hplace⟩ := exists_place_eq hL hR hT ht hs hi hj
  obtain rfl : k = k' := by
    unfold leftDegree at hk'
    omega
  exact ⟨_, i, hi, j, hj, hplace.symm⟩

/-- A place is that of one pair only. -/
theorem place_inj (hi : i < D l) (hj : j < E (s - l)) (hi' : i' < D l') (hj' : j' < E (s - l'))
    (h : place E T s l i j = place E T s l' i' j') : l = l' ∧ i = i' ∧ j = j' := by
  obtain ⟨k, rfl, hi, hj, hplace⟩ := exists_place_eq hL hR hT ht hs hi hj
  obtain ⟨k', rfl, hi', hj', hplace'⟩ := exists_place_eq hL hR hT ht hs hi' hj'
  obtain ⟨rfl, hsame⟩ := rowStart_inj hi hj hi' hj' (hplace.symm.trans (h.trans hplace'))
  exact ⟨rfl, hsame⟩

/-- A block ends before the places do. -/
theorem start_add_le (hl : 0 < D l) (hr : 0 < E (s - l)) : T.start s l + D l * E (s - l) ≤ pairs D low high E s := by
  have hlt := place_lt hL hR hT ht hs (l := l) (i := D l - 1) (j := E (s - l) - 1) (by omega) (by omega)
  rw [place] at hlt
  obtain ⟨m, hm⟩ : ∃ m, D l = m + 1 := ⟨D l - 1, by omega⟩
  rw [hm, Nat.add_sub_cancel] at hlt
  rw [hm, Nat.succ_mul]
  omega

/-- The place of a pair lies in the block of its left degree only. -/
theorem eq_of_start_le (hi : i < D l) (hj : j < E (s - l)) (hr : 0 < E (s - l'))
    (hlow : T.start s l' ≤ place E T s l i j) (hhigh : place E T s l i j < T.start s l' + D l' * E (s - l')) : l = l' := by
  obtain ⟨m, hm⟩ := Nat.exists_eq_add_of_le hlow
  have hm' : m / E (s - l') < D l' := (Nat.div_lt_iff_lt_mul hr).mpr (by omega)
  have hplace : place E T s l i j = place E T s l' (m / E (s - l')) (m % E (s - l')) := by
    rw [hm, place, Nat.add_assoc, Nat.mul_comm, Nat.div_add_mod]
  exact (place_inj hL hR hT ht hs hi hj hm' (Nat.mod_lt _ hr) hplace).1

end Places

end TensorTable

namespace Tensor

open TensorTable

variable {p : Prime} {A : Algebra} {X Y : Representation A.prime} {L R : GradedModule} {T : TensorTable} {a b : Operation}
variable {low high low' high' s s' t l l' : ℤ} {c i j : ℕ} {v result : Vec}

/-- What a summand `a ⊗ b` of a coproduct makes of an element of degree `s`, in the entry of a pair with left degree `l`: the entries of the
pairs that `a` and `b` lead there, with the sign of moving `b` past the left factor. -/
def entryOf (X Y : Representation p) (T : TensorTable) (a b : Operation) (s : ℤ) (v : ℕ → p.Field) (l : ℤ) (i j : ℕ) : p.Field :=
  (p.sign (b.degree * (l - a.degree)) : p.Field) * ∑ m ∈ Finset.range (X.dim (l - a.degree)),
    ∑ n ∈ Finset.range (Y.dim (s - (l - a.degree))), v (T.place Y.dim s (l - a.degree) m n) *
      (X.act a (l - a.degree) (Pi.single m 1) i * Y.act b (s - (l - a.degree)) (Pi.single n 1) j)

/-- The entries of an element in degree `s` at all pairs of basis elements. -/
def entries (p : Prime) (D E : ℤ → ℕ) (T : TensorTable) (s : ℤ) :
    (ℕ → p.Field) →ₗ[p.Field] ({x : ℤ × ℕ × ℕ // x.2.1 < D x.1 ∧ x.2.2 < E (s - x.1)} → p.Field) :=
  LinearMap.pi fun x => LinearMap.proj (T.place E s x.1.1 x.1.2.1 x.1.2.2)

/-- What a summand `a ⊗ b` of a coproduct adds on the block of a left degree. -/
def added (X Y : Representation p) (T : TensorTable) (c : ℕ) (a b : Operation) (s : ℤ) (v : ℕ → p.Field) (l : ℤ) : ℕ → p.Field :=
  ∑ m ∈ Finset.range (X.dim l), ((c : p.Field) * (p.sign (b.degree * l) : p.Field)) •
    outer p (T.start (s + a.degree + b.degree) (l + a.degree)) (X.dim (l + a.degree)) (Y.dim (s - l + b.degree))
      (X.act a l (Pi.single m 1)) (Y.act b (s - l) (takeBlock p (T.start s l + m * Y.dim (s - l)) (Y.dim (s - l)) v))

section Action

variable (hL : L.IsBounded X.dim low high (t - low')) (hR : R.IsBounded Y.dim low' high' (t - low))
variable (hT : Extended X.dim low high Y.dim low' high' T) (ht : t < T.offsets.nextDegree)

include hL hR hT ht

/-- In the entry of a pair there is something added only on the block that leads to its left degree. -/
theorem added_place (hdegree : s + a.degree + b.degree = s') (hs : s' ≤ t) (hi : i < X.dim l') (hj : j < Y.dim (s' - l'))
    (f : ℕ → A.prime.Field) : added X Y T c a b s f l (T.place Y.dim s' l' i j) =
      if l + a.degree = l' then (c : A.prime.Field) * entryOf X Y T a b s f l' i j else 0 := by
  have hright : s - l + b.degree = s' - (l + a.degree) := by omega
  rw [added, Finset.sum_apply, hdegree, hright]
  split
  · next hl =>
    subst hl
    rw [entryOf, add_sub_cancel_right, ← mul_assoc, Finset.mul_sum]
    refine Finset.sum_congr rfl fun m _ => ?_
    have hrow : Y.act b (s - l) (takeBlock A.prime (T.start s l + m * Y.dim (s - l)) (Y.dim (s - l)) f) j =
        ∑ n ∈ Finset.range (Y.dim (s - l)), f (T.place Y.dim s l m n) * Y.act b (s - l) (Pi.single n 1) j := by
      rw [← combine_units (takeBlock_mem _ _ f), map_combine, combine_apply, Finset.sum_apply]
      refine Finset.sum_congr rfl fun n hn => ?_
      rw [Pi.smul_apply, takeBlock_apply, if_pos (Finset.mem_range.mp hn), smul_eq_mul, place]
    rw [Pi.smul_apply, place, outer_place hi hj, hrow, smul_eq_mul, Finset.mul_sum]
    refine congrArg _ (Finset.sum_congr rfl fun n _ => ?_)
    ring
  · next hl =>
    refine Finset.sum_eq_zero fun m _ => ?_
    rw [Pi.smul_apply]
    by_cases hr : 0 < Y.dim (s' - (l + a.degree))
    · rw [outer_apply_of_outside, smul_zero]
      by_contra hinside
      exact hl (eq_of_start_le hL hR hT ht hs hi hj hr (by omega) (by omega)).symm
    · rw [outer_eq_zero (.inr (by omega)), Pi.zero_apply, smul_zero]

variable (hprime : L.prime = A.prime) (hX : L.ActsAs X A (t - low')) (hY : R.ActsAs Y A (t - low))

include hprime hX hY

/-- A summand of a coproduct on the block of a left degree. -/
theorem exists_add_actOnBlock (ha : a.IsBasis A.prime) (hb : b.IsBasis A.prime) (hA : a.degree + b.degree < A.computed)
    (hdegree : s + a.degree + b.degree = s') (hs : s' ≤ t) (hlow : low ≤ l) (hhigh : l ≤ s - low')
    (hv : Proper A.prime (pairs X.dim low high Y.dim s) v) (hresult : Proper A.prime (pairs X.dim low high Y.dim s') result) :
    ∃ w, actOnBlock L R T A.prime c a b s v l result = .ok w ∧ Proper A.prime (pairs X.dim low high Y.dim s') w ∧
      w.coords A.prime = result.coords A.prime + added X Y T c a b s (v.coords A.prime) l := by
  have ha₀ := ha.nonneg
  have hb₀ := hb.nonneg
  have hminL := hL.minDegree_eq
  have hminR := hR.minDegree_eq
  have hright : s - l + b.degree = s' - (l + a.degree) := by omega
  refine exists_actOnBlock (T := T) hX hY ha hb (by omega) (by omega) (by omega) (by omega) hprime (hL.dimension_eq _ (by omega) (by omega))
    (hR.dimension_eq _ (by omega) (by omega)) (hL.dimension_eq _ (by omega) (by omega)) (hR.dimension_eq _ (by omega) (by omega))
    (fun hm' hn' hm hn => ?_) hresult
  obtain ⟨_, _, hoffset, _⟩ := exists_block_eq hL hR hT ht (s := s) (by omega) (Nat.pos_of_ne_zero hm) (Nat.pos_of_ne_zero hn)
  have hend := start_add_le hL hR hT ht (s := s) (by omega) (Nat.pos_of_ne_zero hm) (Nat.pos_of_ne_zero hn)
  rw [hright] at hn' ⊢
  rw [hdegree, hv.size_eq]
  obtain ⟨_, _, hoffset', _⟩ := exists_block_eq hL hR hT ht hs (Nat.pos_of_ne_zero hm') (Nat.pos_of_ne_zero hn')
  exact ⟨hoffset, hend, hoffset', start_add_le hL hR hT ht hs (Nat.pos_of_ne_zero hm') (Nat.pos_of_ne_zero hn')⟩

/-- A summand of a coproduct on all blocks. -/
theorem exists_add_actOnBlocks (ha : a.IsBasis A.prime) (hb : b.IsBasis A.prime) (hA : a.degree + b.degree < A.computed)
    (hdegree : s + a.degree + b.degree = s') (hs : s' ≤ t) (hv : Proper A.prime (pairs X.dim low high Y.dim s) v)
    (hresult : Proper A.prime (pairs X.dim low high Y.dim s') result) :
    ∃ w, (leftDegrees L R s).foldlM (fun result l => actOnBlock L R T A.prime c a b s v l result) result = .ok w ∧
      Proper A.prime (pairs X.dim low high Y.dim s') w ∧ ∀ l i j, i < X.dim l → j < Y.dim (s' - l) →
        w.coords A.prime (T.place Y.dim s' l i j) = result.coords A.prime (T.place Y.dim s' l i j) +
          (c : A.prime.Field) * entryOf X Y T a b s (v.coords A.prime) l i j := by
  have ha₀ := ha.nonneg
  have hb₀ := hb.nonneg
  have hdegrees : leftDegrees L R s = GradedModule.degreesBetween low (min high (s - low')) := by
    rw [leftDegrees, hL.minDegree_eq, hL.maxDegree_eq, hR.minDegree_eq]
  have hmem : ∀ l, l ∈ leftDegrees L R s ↔ low ≤ l ∧ l ≤ high ∧ l ≤ s - low' := fun l => by
    rw [hdegrees, GradedModule.mem_degreesBetween, le_min_iff]
  have hnodup : (leftDegrees L R s).Nodup := by
    rw [hdegrees]
    exact List.nodup_range.map fun m n hmn => by omega
  obtain ⟨w, hw, hproper, hcoords⟩ := foldlM_add (leftDegrees L R s) (fun l hl u hu => by
    obtain ⟨hlow, _, hright⟩ := (hmem l).mp hl
    exact exists_add_actOnBlock (c := c) (l := l) hL hR hT ht hprime hX hY ha hb hA hdegree hs hlow hright hv hu) hresult
  refine ⟨w, hw, hproper, fun l i j hi hj => ?_⟩
  rw [hcoords, ← List.sum_toFinset _ hnodup, Pi.add_apply, Finset.sum_apply]
  refine congrArg _ ?_
  rw [Finset.sum_eq_single (l - a.degree)]
  · rw [added_place hL hR hT ht hdegree hs hi hj, if_pos (sub_add_cancel l a.degree)]
  · intro l' _ hne
    rw [added_place hL hR hT ht hdegree hs hi hj, if_neg (by omega)]
  · intro hnot
    -- One of the factors has no basis elements there.
    have hempty : X.dim (l - a.degree) = 0 ∨ Y.dim (s - (l - a.degree)) = 0 := by
      by_contra hne
      obtain ⟨hm, hn⟩ := not_or.mp hne
      have hrange := hL.degrees_of_pos (Nat.pos_of_ne_zero hm)
      have hrange' := hR.degrees_of_pos (Nat.pos_of_ne_zero hn)
      exact hnot (List.mem_toFinset.mpr ((hmem _).mpr ⟨hrange.1, hrange.2, by omega⟩))
    rw [added_place hL hR hT ht hdegree hs hi hj, if_pos (sub_add_cancel l a.degree), entryOf]
    rcases hempty with hzero | hzero
    · rw [hzero, Finset.range_zero, Finset.sum_empty, mul_zero, mul_zero]
    · simp only [hzero, Finset.range_zero, Finset.sum_empty, Finset.sum_const_zero, mul_zero]

omit hprime hX hY in
theorem dimension_of_isBounded (hs : s ≤ t) : dimension L R T s = .ok (pairs X.dim low high Y.dim s) := by
  rw [← total_eq hL hR]
  exact dimension_of_measures (L := FiniteModule.ofDimensions X.dim low high) (R := FiniteModule.ofDimensions Y.dim low' high') hL.measures
    hR.measures hT.records ht hs

/-- The action through a coproduct, entry by entry. -/
theorem exists_entries_actThroughCoproduct {summands : List (Operation × Operation)}
    (hsummands : A.coproduct a = .ok summands) (hA : a.degree < A.computed) (hs : s + a.degree ≤ t)
    (hv : Proper A.prime (pairs X.dim low high Y.dim s) v) :
    ∃ w, actThroughCoproduct A L R T A.prime c a s v = .ok w ∧ Proper A.prime (pairs X.dim low high Y.dim (s + a.degree)) w ∧
      ∀ l i j, i < X.dim l → j < Y.dim (s + a.degree - l) → w.coords A.prime (T.place Y.dim (s + a.degree) l i j) =
        (c : A.prime.Field) * (summands.map fun x => entryOf X Y T x.1 x.2 s (v.coords A.prime) l i j).sum := by
  obtain ⟨w, hw, hproper, hentries⟩ := foldlM_map_add (entries A.prime X.dim Y.dim T (s + a.degree))
    (ψ := fun x e => (c : A.prime.Field) * entryOf X Y T x.1 x.2 s (v.coords A.prime) e.1.1 e.1.2.1 e.1.2.2) summands (fun x hx u hu => by
      obtain ⟨hl, hr, hsum⟩ := A.of_coproduct_eq_ok hsummands hx
      obtain ⟨r, hr, hrp, hentry⟩ := exists_add_actOnBlocks (c := c) hL hR hT ht hprime hX hY hl hr (hsum ▸ hA) (by rw [add_assoc, hsum])
        hs hv hu
      exact ⟨r, hr, hrp, funext fun e => hentry _ _ _ e.2.1 e.2.2⟩) Proper.zero
  refine ⟨w, ?_, hproper, fun l i j hi hj => ?_⟩
  · rw [actThroughCoproduct, dimension_of_isBounded hL hR hT ht hs, Result.ok_bind, hsummands]
    exact hw
  · rw [coords_zero, map_zero, zero_add] at hentries
    have hentry := congrFun hentries ⟨(l, i, j), hi, hj⟩
    rw [Pi.list_sum_apply, List.map_map] at hentry
    exact hentry.trans (List.sum_map_mul_left _ _ _)

end Action

/-- In degrees up to `t` the basis of the product of `L` and `R` consists of the pairs of basis elements of the two, each at its place. -/
structure IsNumbered (A : Algebra) (X Y : Representation A.prime) (L R : GradedModule) (T : TensorTable) (low high t : ℤ) : Prop where
  dimension_eq : ∀ s ≤ t, dimension L R T s = .ok (pairs X.dim low high Y.dim s)
  offset_eq : ∀ s ≤ t, ∀ l, 0 < X.dim l → 0 < Y.dim (s - l) → T.offset s l = .ok (T.start s l)
  place_lt : ∀ s ≤ t, ∀ l, ∀ i < X.dim l, ∀ j < Y.dim (s - l), T.place Y.dim s l i j < pairs X.dim low high Y.dim s
  place_inj : ∀ s ≤ t, ∀ l l', ∀ i < X.dim l, ∀ j < Y.dim (s - l), ∀ i' < X.dim l', ∀ j' < Y.dim (s - l'),
    T.place Y.dim s l i j = T.place Y.dim s l' i' j' → l = l' ∧ i = i' ∧ j = j'
  exists_place : ∀ s ≤ t, ∀ n < pairs X.dim low high Y.dim s, ∃ l, ∃ i < X.dim l, ∃ j < Y.dim (s - l), n = T.place Y.dim s l i j
  leftDegreeOf_eq : ∀ s ≤ t, ∀ l, ∀ i < X.dim l, ∀ j < Y.dim (s - l), leftDegreeOf L R T s (T.place Y.dim s l i j) = .ok l
  nameOf_eq : ∀ s ≤ t, ∀ l, ∀ i < X.dim l, ∀ j < Y.dim (s - l), nameOf L R T s (T.place Y.dim s l i j) = (do
    let x ← L.nameOf l i
    let y ← R.nameOf (s - l) j
    .ok s!"{x}.{y}")
  /-- The action reads and writes the entries of pairs at their places. -/
  act_eq : ∀ (c : ℕ) (a : Operation) (s : ℤ) (v : Vec) (summands : List (Operation × Operation)),
    A.coproduct a = .ok summands → a.degree < A.computed → s + a.degree ≤ t → Proper A.prime (pairs X.dim low high Y.dim s) v →
    ∃ w, actThroughCoproduct A L R T A.prime c a s v = .ok w ∧ Proper A.prime (pairs X.dim low high Y.dim (s + a.degree)) w ∧
      ∀ l i j, i < X.dim l → j < Y.dim (s + a.degree - l) → w.coords A.prime (T.place Y.dim (s + a.degree) l i j) =
        (c : A.prime.Field) * (summands.map fun x => entryOf X Y T x.1 x.2 s (v.coords A.prime) l i j).sum

/-- Two generators with an empty degree between them, the lower one in a negative degree. -/
def straddling : Presentation := ⟨"N", [(-1, "u"), (1, "v")], [⟨⟨2, 0⟩, "u", [(1, "v")], "Sq2 u = v"⟩]⟩

end Tensor
end Steenrod
