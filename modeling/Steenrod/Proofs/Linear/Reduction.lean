import Steenrod.Proofs.Linear.Complement
import Steenrod.Proofs.Linear.Parts
import Steenrod.Linear.QuasiInverse
/-!
A matrix as a linear map, and what is read off the reduced form of `[A | I]`. Main statements: the row space of
`[A | I]` consists of the vectors whose first part is the image of their second part; the kernel is the kernel,
the leading columns inside `A` are the first positions of the image, and the quasi-inverse sends every element of
the image to a preimage.
-/
namespace Steenrod

open Vec

namespace Matrix

variable {p : Prime} {M : Matrix}

/-- All rows are proper vectors of the width of the matrix. -/
def Proper (p : Prime) (M : Matrix) : Prop := ∀ r ∈ M.rows, Vec.Proper p M.columns r

/-- The coordinates of row `i`. -/
def rowCoords (p : Prime) (M : Matrix) (i : ℕ) : ℕ → p.Field := (M.rows[i]?.getD (Vec.zero 0)).coords p

/-- The linear map that sends the `i`-th unit vector to row `i`. -/
def linear (p : Prime) (M : Matrix) : (ℕ → p.Field) →ₗ[p.Field] (ℕ → p.Field) :=
  combine M.height (M.rowCoords p)

/-- The image of the matrix. -/
def image (p : Prime) (M : Matrix) : Submodule p.Field (ℕ → p.Field) := (p.space M.height).map (M.linear p)

/-- The kernel of the matrix. -/
def kernel (p : Prime) (M : Matrix) : Submodule p.Field (ℕ → p.Field) :=
  p.space M.height ⊓ LinearMap.ker (M.linear p)

theorem mem_kernel {f : ℕ → p.Field} :
    f ∈ M.kernel p ↔ f ∈ p.space M.height ∧ M.linear p f = 0 := by
  rw [kernel, Submodule.mem_inf, LinearMap.mem_ker]

theorem rowCoords_mem (h : M.Proper p) (i : ℕ) : M.rowCoords p i ∈ p.space M.columns := by
  unfold rowCoords
  by_cases hi : i < M.rows.length
  · rw [List.getElem?_eq_getElem hi, Option.getD_some]
    exact (h _ (List.getElem_mem hi)).coords_mem
  · rw [List.getElem?_eq_none (by omega), Option.getD_none, coords_zero]
    exact Submodule.zero_mem _

theorem linear_mem (h : M.Proper p) (f : ℕ → p.Field) : M.linear p f ∈ p.space M.columns :=
  combine_mem (fun i _ => rowCoords_mem h i) f

theorem withIdentity_proper (h : M.Proper p) : M.withIdentity.Proper p := by
  intro r hr
  obtain ⟨⟨v, i⟩, hv, rfl⟩ := List.mem_map.mp hr
  exact (h v (List.fst_mem_of_mem_zipIdx hv)).append (proper_unit _ _)

theorem mem_rows_withIdentity {r : Vec} : r ∈ M.withIdentity.rows ↔
    ∃ i, ∃ hi : i < M.rows.length, r = (M.rows[i]).append (Vec.unit M.height i) := by
  unfold withIdentity
  simp only [List.mem_map, Prod.exists, List.mk_mem_zipIdx_iff_getElem?]
  constructor
  · rintro ⟨v, i, hv, rfl⟩
    obtain ⟨hi, rfl⟩ := List.getElem?_eq_some_iff.mp hv
    exact ⟨i, hi, rfl⟩
  · rintro ⟨i, hi, rfl⟩
    exact ⟨_, i, List.getElem?_eq_getElem hi, rfl⟩

theorem cut_row (h : M.Proper p) {i : ℕ} (hi : i < M.rows.length) :
    cut p M.columns (((M.rows[i]).append (Vec.unit M.height i)).coords p) = M.rowCoords p i := by
  have hs := (h _ (List.getElem_mem hi)).size_eq
  have hrow : M.rowCoords p i = (M.rows[i]).coords p := by
    rw [rowCoords, List.getElem?_eq_getElem hi, Option.getD_some]
  funext j
  rw [cut_apply, coords_append, hs, hrow]
  split
  · rfl
  · next hj => exact (coords_of_size_le (by omega)).symm

theorem rest_row (h : M.Proper p) {i : ℕ} (hi : i < M.rows.length) :
    rest p M.columns (((M.rows[i]).append (Vec.unit M.height i)).coords p) = Pi.single i 1 := by
  have hs := (h _ (List.getElem_mem hi)).size_eq
  have hheight : i < M.height := hi
  funext j
  rw [rest_apply, coords_append, hs, if_neg (by omega), Nat.add_sub_cancel_left, coords_unit hheight]

/-- The first part of an element of the row space of `[A | I]` is the image of the second. -/
theorem mem_space_withIdentity (h : M.Proper p) {w : ℕ → p.Field} :
    w ∈ (M.withIdentity.rowSpace p).space p ↔
      cut p M.columns w = M.linear p (rest p M.columns w) ∧ rest p M.columns w ∈ p.space M.height := by
  rw [rowSpace, Subspace.space_span (withIdentity_proper h)]
  constructor
  · intro hw
    induction hw using Submodule.span_induction with
    | mem w hw =>
      obtain ⟨r, hr, rfl⟩ := hw
      obtain ⟨i, hi, rfl⟩ := mem_rows_withIdentity.mp hr
      have hheight : i < M.height := hi
      rw [cut_row h hi, rest_row h hi, linear, combine_single hheight, one_smul]
      refine ⟨rfl, fun j hj => ?_⟩
      rw [Pi.single_eq_of_ne (by omega)]
    | zero =>
      simp only [map_zero]
      exact ⟨trivial, Submodule.zero_mem _⟩
    | add f g _ _ hf hg =>
      simp only [map_add]
      exact ⟨by rw [hf.1, hg.1], Submodule.add_mem _ hf.2 hg.2⟩
    | smul c f _ hf =>
      simp only [map_smul]
      exact ⟨by rw [hf.1], Submodule.smul_mem _ c hf.2⟩
  · rintro ⟨hcut, hrest⟩
    have hsum : w = ∑ i ∈ Finset.range M.rows.length,
        w (M.columns + i) • ((M.withIdentity.rows[i]?.getD (Vec.zero 0)).coords p) := by
      have hrows : ∀ i, i < M.rows.length → M.withIdentity.rows[i]?.getD (Vec.zero 0) =
          (M.rows[i]?.getD (Vec.zero 0)).append (Vec.unit M.height i) := by
        intro i hi
        simp [withIdentity, hi]
      funext j
      rw [Finset.sum_apply]
      by_cases hj : j < M.columns
      · have hc := congrFun hcut j
        rw [cut_apply, if_pos hj, linear, combine_apply, Finset.sum_apply] at hc
        rw [hc]
        refine Finset.sum_congr rfl fun i hi => ?_
        have hi := Finset.mem_range.mp hi
        rw [hrows i hi, Pi.smul_apply, Pi.smul_apply, coords_append, rest_apply, rowCoords]
        rw [List.getElem?_eq_getElem hi, Option.getD_some, (h _ (List.getElem_mem hi)).size_eq, if_pos hj]
      · obtain ⟨k, rfl⟩ : ∃ k, j = M.columns + k := ⟨j - M.columns, by omega⟩
        have hterm : ∀ i ∈ Finset.range M.rows.length,
            (w (M.columns + i) • ((M.withIdentity.rows[i]?.getD (Vec.zero 0)).coords p)) (M.columns + k) =
              if i = k then w (M.columns + k) else 0 := by
          intro i hi
          have hi := Finset.mem_range.mp hi
          rw [hrows i hi, List.getElem?_eq_getElem hi, Option.getD_some, Pi.smul_apply]
          have hr := congrFun (rest_row h hi) k
          rw [rest_apply] at hr
          rw [hr, smul_eq_mul]
          by_cases hik : i = k
          · rw [if_pos hik, hik, Pi.single_eq_same, mul_one]
          · rw [if_neg hik, Pi.single_eq_of_ne (Ne.symm hik), mul_zero]
        rw [Finset.sum_congr rfl hterm, Finset.sum_ite_eq']
        split
        · rfl
        · next hk =>
          have hle : M.height ≤ k := by
            unfold height
            simpa using hk
          exact hrest k hle
    rw [hsum]
    refine Submodule.sum_mem _ fun i hi => Submodule.smul_mem _ _ (Submodule.subset_span ?_)
    have hi := Finset.mem_range.mp hi
    have hlen : i < M.withIdentity.rows.length := by simpa [withIdentity] using hi
    exact ⟨_, List.getElem_mem hlen, by rw [List.getElem?_eq_getElem hlen, Option.getD_some]⟩

end Matrix

namespace Augmented

variable {p : Prime} {M : Matrix}

theorem columns_ofMatrix (p : Prime) (M : Matrix) :
    (ofMatrix p M).space.columns = M.columns + M.height :=
  Subspace.columns_span p _ _

@[simp] theorem width_ofMatrix (p : Prime) (M : Matrix) : (ofMatrix p M).width = M.columns := rfl

@[simp] theorem height_ofMatrix (p : Prime) (M : Matrix) : (ofMatrix p M).height = M.height := by
  rw [height, columns_ofMatrix, width_ofMatrix, Nat.add_sub_cancel_left]

theorem echelon_ofMatrix (h : M.Proper p) : (ofMatrix p M).space.Echelon p :=
  Subspace.echelon_span (Matrix.withIdentity_proper h)

theorem mem_space_ofMatrix (h : M.Proper p) {w : ℕ → p.Field} :
    w ∈ (ofMatrix p M).space.space p ↔
      cut p M.columns w = M.linear p (rest p M.columns w) ∧ rest p M.columns w ∈ p.space M.height :=
  Matrix.mem_space_withIdentity h

/-- The second part of a row. -/
def preimageRow (M : Matrix) (x : ℕ × Vec) : Vec := x.2.block M.columns (M.columns + M.height)

theorem proper_preimageRow (h : M.Proper p) {x : ℕ × Vec} (hx : x ∈ (ofMatrix p M).space.leads) :
    Vec.Proper p M.height (preimageRow M x) := by
  have hp := (echelon_ofMatrix h).proper x hx
  rw [columns_ofMatrix] at hp
  have hb := hp.block (a := M.columns) (le_refl _)
  rwa [Nat.add_sub_cancel_left] at hb

theorem coords_preimageRow (h : M.Proper p) {x : ℕ × Vec} (hx : x ∈ (ofMatrix p M).space.leads) :
    (preimageRow M x).coords p = rest p M.columns (x.2.coords p) := by
  have hp := (echelon_ofMatrix h).proper x hx
  rw [columns_ofMatrix] at hp
  funext i
  rw [preimageRow, coords_block, rest_apply]
  split
  · rfl
  · exact (hp.coords_mem _ (by omega)).symm

theorem row_mem_space {x : ℕ × Vec} (hx : x ∈ (ofMatrix p M).space.leads) :
    x.2.coords p ∈ (ofMatrix p M).space.space p := Submodule.subset_span ⟨x, hx, rfl⟩

/-- Of the columns of the matrix those lead that are first positions of the image. -/
theorem lead_iff_mem_firsts (h : M.Proper p) {c : ℕ} (hc : c < M.columns) :
    (∃ x ∈ (ofMatrix p M).space.leads, x.1 = c) ↔ c ∈ firsts (M.image p) := by
  rw [← (echelon_ofMatrix h).mem_firsts_iff]
  constructor
  · rintro ⟨w, hw, hwc, hbefore⟩
    obtain ⟨hcut, hrest⟩ := (mem_space_ofMatrix h).mp hw
    refine ⟨cut p M.columns w, ⟨_, hrest, hcut.symm⟩, ?_, fun j hj => ?_⟩
    · rwa [cut_apply, if_pos hc]
    · rw [cut_apply, if_pos (by omega), hbefore j hj]
  · rintro ⟨_, ⟨f, hf, rfl⟩, hfc, hbefore⟩
    have hcut := cut_glue (Matrix.linear_mem h f) f
    have hrest : rest p M.columns (glue M.columns (M.linear p f) f) = f := rest_glue _ _
    refine ⟨glue M.columns (M.linear p f) f, (mem_space_ofMatrix h).mpr ⟨by rw [hcut, hrest], hrest.symm ▸ hf⟩, ?_, fun j hj => ?_⟩
    · rwa [← hcut, cut_apply, if_pos hc] at hfc
    · have hb := hbefore j hj
      rwa [← hcut, cut_apply, if_pos (by omega)] at hb

theorem proper_kernelRows (h : M.Proper p) :
    ∀ v ∈ (ofMatrix p M).kernelRows.map (fun v => v.block M.columns (ofMatrix p M).space.columns),
      Vec.Proper p M.height v := by
  intro v hv
  obtain ⟨r, hr, rfl⟩ := List.mem_map.mp hv
  obtain ⟨x, hx, rfl⟩ := List.mem_map.mp hr
  rw [columns_ofMatrix]
  exact proper_preimageRow h (List.mem_of_mem_filter hx)

theorem echelon_kernel (h : M.Proper p) : ((ofMatrix p M).kernel p).Echelon p := by
  unfold kernel
  rw [height_ofMatrix]
  exact Subspace.echelon_span (proper_kernelRows h)

theorem columns_kernel (p : Prime) (M : Matrix) : ((ofMatrix p M).kernel p).columns = M.height := by
  rw [kernel, Subspace.columns_span, height_ofMatrix]

/-- The recorded kernel is the kernel. -/
theorem space_kernel (h : M.Proper p) : ((ofMatrix p M).kernel p).space p = M.kernel p := by
  unfold kernel
  rw [height_ofMatrix]
  have hspan := Subspace.space_span (proper_kernelRows h)
  rw [width_ofMatrix, hspan]
  refine le_antisymm (Submodule.span_le.mpr ?_) fun f hf => ?_
  · rintro _ ⟨v, hv, rfl⟩
    obtain ⟨r, hr, rfl⟩ := List.mem_map.mp hv
    obtain ⟨x, hx, rfl⟩ := List.mem_map.mp hr
    obtain ⟨hx, hge⟩ := List.mem_filter.mp hx
    have hge : M.columns ≤ x.1 := of_decide_eq_true hge
    obtain ⟨hcut, hrest⟩ := (mem_space_ofMatrix h).mp (row_mem_space hx)
    have hzero : cut p M.columns (x.2.coords p) = 0 := by
      funext i
      rw [cut_apply]
      split
      · next hi => exact (echelon_ofMatrix h).before x hx i (by omega)
      · rfl
    have hcoords := coords_preimageRow h hx
    unfold preimageRow at hcoords
    rw [columns_ofMatrix, hcoords]
    exact Matrix.mem_kernel.mpr ⟨hrest, by rw [← hcut, hzero]⟩
  · obtain ⟨hspace, hker⟩ := Matrix.mem_kernel.mp hf
    let w : ℕ → p.Field := glue M.columns 0 f
    have hcut : cut p M.columns w = 0 := cut_glue (Submodule.zero_mem _) f
    have hrest : rest p M.columns w = f := rest_glue _ _
    have hw : w ∈ (ofMatrix p M).space.space p :=
      (mem_space_ofMatrix h).mpr ⟨by rw [hcut, hrest, hker], hrest.symm ▸ hspace⟩
    -- Rows that lead inside the matrix do not occur in `w`, so `f` is a combination of the others.
    have hexp := (echelon_ofMatrix h).mem_space_iff.mp hw
    rw [← hrest, ← hexp]
    have hsub : ∀ l : List (ℕ × Vec), (∀ x ∈ l, x ∈ (ofMatrix p M).space.leads) →
        rest p M.columns (Subspace.expand p l w) ∈ Submodule.span p.Field
          {f | ∃ v ∈ (ofMatrix p M).kernelRows.map fun v => v.block M.columns (ofMatrix p M).space.columns,
            v.coords p = f} := by
      intro l
      induction l with
      | nil => intro _; rw [Subspace.expand_nil, map_zero]; exact Submodule.zero_mem _
      | cons x l ih =>
        intro hl
        have hx := hl x (by simp)
        rw [Subspace.expand_cons, map_add, map_smul]
        refine Submodule.add_mem _ ?_ (ih fun y hy => hl y (by simp [hy]))
        by_cases hlt : x.1 < M.columns
        · have hzero : w x.1 = 0 := glue_of_lt hlt _ _
          rw [hzero, zero_smul]
          exact Submodule.zero_mem _
        · refine Submodule.smul_mem _ _ (Submodule.subset_span ⟨preimageRow M x, ?_, coords_preimageRow h hx⟩)
          refine List.mem_map.mpr ⟨x.2, List.mem_map.mpr ⟨x, ?_, rfl⟩, by rw [columns_ofMatrix]; rfl⟩
          exact List.mem_filter.mpr ⟨hx, decide_eq_true (Nat.le_of_not_lt hlt)⟩
    exact hsub _ fun _ hx => hx

end Augmented

namespace QuasiInverse

variable {p : Prime} {Q : QuasiInverse} {n m : ℕ}

/-- One pass over the columns from `j` on. The leading ones among them are those of `rows`, whose other parts
are the rows of the preimage from row `k` on. -/
theorem accumulate_eq (c : ℕ) (y : Vec) (count : ℕ) : ∀ (j k : ℕ) (rows : List (ℕ × Vec)) (result : Vec),
    rows.Pairwise (fun a b => a.1 < b.1) → (∀ a ∈ rows, j ≤ a.1 ∧ a.1 < j + count) →
    (∀ i, Q.preimage.row? (k + i) = (rows.map (·.2))[i]?) → (∀ a ∈ rows, Vec.Proper p m a.2) →
    Vec.Proper p m result →
    ∃ r, Q.accumulate p p c k ((List.range' j count).map fun i => (rows.any (·.1 == i), y.entry i)) result = some r ∧
      Vec.Proper p m r ∧
      r.coords p = result.coords p + (c : p.Field) • Subspace.expand p rows (y.coords p) := by
  induction count with
  | zero =>
    intro j k rows result _ hrange _ _ hresult
    have hnil : rows = [] := List.eq_nil_iff_forall_not_mem.mpr fun a ha => by
      have := hrange a ha
      omega
    subst hnil
    exact ⟨result, rfl, hresult, by simp⟩
  | succ count ih =>
    intro j k rows result hsorted hrange hrow hproper hresult
    rw [List.range'_succ, List.map_cons]
    by_cases hlead : ∃ a ∈ rows, a.1 = j
    · -- Rows are sorted and start at `j`, so the one that leads in column `j` is the first.
      obtain ⟨a, ha, haj⟩ := hlead
      cases rows with
      | nil => simp at ha
      | cons b rows =>
        obtain ⟨hb, hrest⟩ := List.pairwise_cons.mp hsorted
        have hbj : b.1 = j := by
          rcases List.mem_cons.mp ha with rfl | ha
          · exact haj
          · have h₁ := hb a ha
            have h₂ := (hrange b (by simp)).1
            omega
        have hany : ∀ i, j < i → ((b :: rows).any (·.1 == i)) = rows.any (·.1 == i) := by
          intro i hi
          have : (b.1 == i) = false := by
            rw [beq_eq_false_iff_ne]
            omega
          rw [List.any_cons, this, Bool.false_or]
        have hflag : (b :: rows).any (·.1 == j) = true := by simp [hbj]
        have htail : (List.range' (j + 1) count).map (fun i => ((b :: rows).any (·.1 == i), y.entry i)) =
            (List.range' (j + 1) count).map fun i => (rows.any (·.1 == i), y.entry i) := by
          refine List.map_congr_left fun i hi => ?_
          have := List.mem_range'_1.mp hi
          rw [hany i (by omega)]
        have hrange' : ∀ a ∈ rows, j + 1 ≤ a.1 ∧ a.1 < j + 1 + count := by
          intro a ha
          have h₁ := hb a ha
          have h₂ := hrange a (by simp [ha])
          omega
        have hrow' : ∀ i, Q.preimage.row? (k + 1 + i) = (rows.map (·.2))[i]? := by
          intro i
          rw [(by omega : k + 1 + i = k + (i + 1)), hrow (i + 1), List.map_cons, List.getElem?_cons_succ]
        have hproper' : ∀ a ∈ rows, Vec.Proper p m a.2 := fun a ha => hproper a (by simp [ha])
        have hfirst : Q.preimage.row? k = some b.2 := by
          have := hrow 0
          rwa [Nat.add_zero, List.map_cons, List.getElem?_cons_zero] at this
        rw [hflag, htail, accumulate, hfirst]
        by_cases hx : y.entry j = 0
        · rw [if_pos hx]
          obtain ⟨r, hr, hrp, hrc⟩ := ih (j + 1) (k + 1) rows result hrest hrange' hrow' hproper' hresult
          refine ⟨r, hr, hrp, ?_⟩
          rw [hrc, Subspace.expand_cons, hbj, coords_apply y j, hx, Nat.cast_zero, zero_smul, zero_add]
        · rw [if_neg hx]
          obtain ⟨r, hr, hrp, hrc⟩ := ih (j + 1) (k + 1) rows _ hrest hrange' hrow' hproper'
            (hresult.add (p.product c (y.entry j)) b.2)
          refine ⟨r, hr, hrp, ?_⟩
          rw [hrc, hresult.coords_add _ (hproper b (by simp)), Subspace.expand_cons, hbj, Prime.cast_product,
            smul_add, ← smul_smul, ← coords_apply y j, add_assoc]
    · have hflag : rows.any (·.1 == j) = false := by
        rw [List.any_eq_false]
        intro a ha
        simpa using fun haj => hlead ⟨a, ha, haj⟩
      rw [hflag, accumulate]
      refine ih (j + 1) k rows result hsorted (fun a ha => ?_) hrow hproper hresult
      have h₁ := hrange a ha
      have h₂ : a.1 ≠ j := fun haj => hlead ⟨a, ha, haj⟩
      omega

end QuasiInverse

namespace Augmented

variable {p : Prime} {M : Matrix}

/-- The leading columns inside the matrix, with what their rows are preimages by. -/
def leadingRows (p : Prime) (M : Matrix) : List (ℕ × Vec) :=
  ((ofMatrix p M).space.leads.filter fun x => x.1 < M.columns).map fun x => (x.1, preimageRow M x)

theorem leading?_quasiInverse (p : Prime) (M : Matrix) :
    (ofMatrix p M).quasiInverse.leading? M.columns =
      some ((List.range M.columns).map fun i => (leadingRows p M).any (·.1 == i)) := by
  have hlen : ((ofMatrix p M).imagePivots.map fun row => (row.map Int.ofNat).getD (-1)).length = M.columns := by
    simp [imagePivots, columns_ofMatrix]
  unfold QuasiInverse.leading? quasiInverse
  simp only
  rw [if_pos (Nat.le_of_eq hlen.symm), List.take_of_length_le (Nat.le_of_eq hlen)]
  congr 1
  refine List.ext_getElem (by simp [imagePivots, columns_ofMatrix]) fun i h₁ h₂ => ?_
  have hi : i < M.columns := by simpa using h₂
  simp only [imagePivots, Subspace.pivots, List.getElem_map, List.getElem_take, List.getElem_range]
  rw [Bool.eq_iff_iff]
  constructor
  · intro h
    cases hfind : (ofMatrix p M).space.leads.findIdx? (·.1 == i) with
    | none => simp [hfind] at h
    | some k =>
      obtain ⟨hk, hik, _⟩ := List.findIdx?_eq_some_iff_getElem.mp hfind
      have hik : ((ofMatrix p M).space.leads[k]).1 = i := by simpa using hik
      refine List.any_eq_true.mpr ⟨_, List.mem_map.mpr ⟨_, List.mem_filter.mpr ⟨List.getElem_mem hk, ?_⟩, rfl⟩, ?_⟩
      · simpa [hik] using hi
      · simpa using hik
  · intro h
    obtain ⟨a, ha, hai⟩ := List.any_eq_true.mp h
    obtain ⟨x, hx, rfl⟩ := List.mem_map.mp ha
    have hx := List.mem_of_mem_filter hx
    have hsome : ((ofMatrix p M).space.leads.findIdx? (·.1 == i)).isSome = true := by
      rw [List.findIdx?_isSome]
      exact List.any_eq_true.mpr ⟨x, hx, hai⟩
    obtain ⟨k, hk⟩ := Option.isSome_iff_exists.mp hsome
    simp [hk]

/-- The expansion of an element of the image in the rows that lead inside the matrix gives a preimage. -/
theorem linear_expand_leadingRows (h : M.Proper p) {y : ℕ → p.Field} (hy : y ∈ M.image p) :
    M.linear p (Subspace.expand p (leadingRows p M) y) = y := by
  obtain ⟨f, hf, rfl⟩ := hy
  set y := M.linear p f with hydef
  have hspace : y ∈ p.space M.columns := Matrix.linear_mem h f
  let w : ℕ → p.Field := glue M.columns y f
  have hcut : cut p M.columns w = y := cut_glue hspace f
  have hrest : rest p M.columns w = f := rest_glue _ _
  have hw : w ∈ (ofMatrix p M).space.space p :=
    (mem_space_ofMatrix h).mpr ⟨by rw [hcut, hrest], hrest.symm ▸ hf⟩
  have hexp := (echelon_ofMatrix h).mem_space_iff.mp hw
  have hsub : ∀ l : List (ℕ × Vec), (∀ x ∈ l, x ∈ (ofMatrix p M).space.leads) →
      M.linear p (Subspace.expand p ((l.filter fun x => x.1 < M.columns).map fun x => (x.1, preimageRow M x)) y) =
        cut p M.columns (Subspace.expand p l w) := by
    intro l
    induction l with
    | nil => intro _; simp
    | cons x l ih =>
      intro hl
      have hx := hl x (by simp)
      have hrow := ((mem_space_ofMatrix h).mp (row_mem_space hx)).1
      have ih := ih fun z hz => hl z (by simp [hz])
      rw [Subspace.expand_cons, map_add, map_smul, ← ih]
      by_cases hlt : x.1 < M.columns
      · have hwx : w x.1 = y x.1 := glue_of_lt hlt _ _
        rw [List.filter_cons_of_pos (by simpa using hlt), List.map_cons, Subspace.expand_cons, map_add, map_smul,
          coords_preimageRow h hx, hrow, hwx]
      · -- A row that leads beyond the matrix is zero inside it.
        have hzero : cut p M.columns (x.2.coords p) = 0 := by
          funext i
          rw [cut_apply]
          split
          · next hi => exact (echelon_ofMatrix h).before x hx i (by omega)
          · rfl
        rw [List.filter_cons_of_neg (by simpa using hlt), hzero, smul_zero, zero_add]
  have hall := hsub _ fun _ hx => hx
  rw [hexp, hcut] at hall
  exact hall

theorem mem_leadingRows {a : ℕ × Vec} : a ∈ leadingRows p M ↔
    ∃ x ∈ (ofMatrix p M).space.leads, x.1 < M.columns ∧ (x.1, preimageRow M x) = a := by
  rw [leadingRows, List.mem_map]
  simp only [List.mem_filter, decide_eq_true_eq, and_assoc]

theorem proper_of_mem_leadingRows (h : M.Proper p) {a : ℕ × Vec} (ha : a ∈ leadingRows p M) :
    Vec.Proper p M.height a.2 := by
  obtain ⟨x, hx, _, rfl⟩ := mem_leadingRows.mp ha
  exact proper_preimageRow h hx

theorem expand_leadingRows_mem (h : M.Proper p) (y : ℕ → p.Field) :
    Subspace.expand p (leadingRows p M) y ∈ p.space M.height := by
  have hle : Submodule.span p.Field {f | ∃ x ∈ leadingRows p M, x.2.coords p = f} ≤ p.space M.height := by
    refine Submodule.span_le.mpr ?_
    rintro f ⟨a, ha, rfl⟩
    exact (proper_of_mem_leadingRows h ha).coords_mem
  exact hle (Subspace.expand_mem _ _)

/-- What the quasi-inverse answers for any vector. -/
theorem pullBack?_quasiInverse (h : M.Proper p) {y result : Vec} (hy : Vec.Proper p M.columns y)
    (hresult : Vec.Proper p M.height result) (c : ℕ) :
    ∃ r, (ofMatrix p M).quasiInverse.pullBack? p p result c y = some r ∧ Vec.Proper p M.height r ∧
      r.coords p = result.coords p + (c : p.Field) • Subspace.expand p (leadingRows p M) (y.coords p) := by
  have hflags : ((List.range M.columns).map fun i => (leadingRows p M).any (·.1 == i)).zip y.toList =
      (List.range' 0 M.columns).map fun i => ((leadingRows p M).any (·.1 == i), y.entry i) := by
    have hlist : y.toList = (List.range M.columns).map y.entry := by
      refine List.ext_getElem (by simpa [toList, size] using hy.size_eq) fun i h₁ h₂ => ?_
      simp only [toList, Array.getElem_toList, List.getElem_map, List.getElem_range]
      exact (entry_of_lt (by simpa [toList] using h₁)).symm
    rw [hlist, ← List.range_eq_range', List.zip_map']
  obtain ⟨r, hr, hrp, hrc⟩ := QuasiInverse.accumulate_eq (Q := (ofMatrix p M).quasiInverse) c y M.columns 0 0
    (leadingRows p M) result
    (List.pairwise_map.mpr ((echelon_ofMatrix h).sorted.filter _))
    (fun a ha => by
      obtain ⟨x, _, hlt, rfl⟩ := mem_leadingRows.mp ha
      simpa using hlt)
    (fun i => by
      simp only [quasiInverse, Matrix.row?, imageRows, leadingRows, List.map_map, Nat.zero_add,
        columns_ofMatrix, width_ofMatrix]
      rfl)
    (fun _ ha => proper_of_mem_leadingRows h ha) hresult
  refine ⟨r, ?_, hrp, hrc⟩
  rw [QuasiInverse.pullBack?, hy.size_eq, leading?_quasiInverse]
  simp only [Option.bind_eq_bind, Option.bind_some]
  rw [hflags]
  exact hr

/-- The preimages that are found are zero in the first positions of the kernel. -/
theorem expand_leadingRows_apply (h : M.Proper p) {i : ℕ} (hi : i ∈ firsts (M.kernel p)) (y : ℕ → p.Field) :
    Subspace.expand p (leadingRows p M) y i = 0 := by
  obtain ⟨f, hf, hfi, hbefore⟩ := hi
  obtain ⟨hspace, hker⟩ := Matrix.mem_kernel.mp hf
  have hcut : cut p M.columns (glue M.columns 0 f) = 0 := cut_glue (Submodule.zero_mem _) f
  have hrest : rest p M.columns (glue M.columns 0 f) = f := rest_glue _ _
  have hfirst : M.columns + i ∈ firsts ((ofMatrix p M).space.space p) := by
    refine ⟨glue M.columns 0 f, (mem_space_ofMatrix h).mpr ⟨by rw [hcut, hrest, hker], hrest.symm ▸ hspace⟩, ?_,
      fun j hj => ?_⟩
    · rwa [glue_of_le (Nat.le_add_right _ _), Nat.add_sub_cancel_left]
    · by_cases hlt : j < M.columns
      · rw [glue_of_lt hlt, Pi.zero_apply]
      · rw [glue_of_le (not_lt.mp hlt), hbefore _ (by omega)]
  obtain ⟨z, hz, hzi⟩ := (echelon_ofMatrix h).mem_firsts_iff.mp hfirst
  refine Subspace.expand_apply_eq_zero (fun a ha => ?_) y
  obtain ⟨x, hx, hlt, rfl⟩ := mem_leadingRows.mp ha
  -- A row that leads inside the matrix has been cleared where a row of the kernel leads.
  have hcleared := (echelon_ofMatrix h).cleared z hz x hx (by omega)
  rw [coords_preimageRow h hx, rest_apply, ← hzi]
  exact hcleared

/-- Of the elements with one image the quasi-inverse finds the one that is zero in the first positions of the kernel. -/
theorem expand_leadingRows_linear (h : M.Proper p) {v : ℕ → p.Field} (hv : v ∈ p.space M.height)
    (hzero : ∀ i ∈ firsts (M.kernel p), v i = 0) :
    Subspace.expand p (leadingRows p M) (M.linear p v) = v := by
  set u := Subspace.expand p (leadingRows p M) (M.linear p v) with hu
  have hker : u - v ∈ M.kernel p := by
    refine Matrix.mem_kernel.mpr ⟨Submodule.sub_mem _ (expand_leadingRows_mem h _) hv, ?_⟩
    rw [map_sub, linear_expand_leadingRows h (Submodule.mem_map_of_mem hv), sub_self]
  by_contra hne
  obtain ⟨i, hi, hbefore⟩ := exists_first (sub_ne_zero.mpr hne)
  have hfirst : i ∈ firsts (M.kernel p) := ⟨_, hker, hi, hbefore⟩
  exact hi (by rw [Pi.sub_apply, hu, expand_leadingRows_apply h hfirst, hzero i hfirst, sub_zero])

end Augmented
end Steenrod
