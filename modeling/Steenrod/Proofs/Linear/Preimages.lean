import Steenrod.Linear.Segmented
import Steenrod.Proofs.Linear.Gathered
/-!
Kernel, image and quasi-inverse of a matrix `A` as they are read off `[A | I]`. Main statements: row reduction of `[A | I]` puts
the rows that lead inside `A` first; the image is the row space of `A`, the kernel is what `A` sends to zero, their dimensions add
up to the number of rows, and what the quasi-inverse finds for an element of the row space is sent back to it.
-/
namespace Steenrod

open Vec

namespace Matrix

variable {p : Prime} {M : Matrix} {v : Vec}

/-- What applying a matrix adds up. -/
theorem image?_eq (h : M.Proper p) (c : ℕ) (hv : v.size = M.height) :
    ∃ r, M.image? p c v = some r ∧ Vec.Proper p M.columns r ∧ r.coords p = (c : p.Field) • M.linear p (v.coords p) := by
  have hstep : ∀ i x, (i, x) ∈ v.nonzero → ∀ w, Vec.Proper p M.columns w →
      ∃ r, Result.ofOption ((M.rows[i]?).map fun r => w.add p (p.product x c) r) = .ok r ∧ Vec.Proper p M.columns r ∧
        r.coords p = w.coords p + (x : p.Field) • (c : p.Field) • M.rowCoords p i := by
    intro i x hx w hw
    have hi : i < M.rows.length := (lt_size_of_mem_nonzero hx).trans_eq hv
    refine ⟨w.add p (p.product x c) M.rows[i], ?_, hw.add _ _, ?_⟩
    · rw [List.getElem?_eq_getElem hi, Option.map_some]
      rfl
    · rw [hw.coords_add _ (h _ (List.getElem_mem hi)), Prime.cast_product, rowCoords, List.getElem?_eq_getElem hi,
        Option.getD_some, mul_smul]
  obtain ⟨r, hr, hproper, hcoords⟩ := foldlM_map_nonzero LinearMap.id
    (f := fun w x => Result.ofOption ((M.rows[x.1]?).map fun r => w.add p (p.product x.2 c) r)) hstep Proper.zero
  simp only [LinearMap.id_apply] at hcoords
  refine ⟨r, Result.ofOption_eq_ok.mp ((Result.ofOption_foldlM _ v.nonzero _).trans hr), hproper, ?_⟩
  rw [hcoords, coords_zero, zero_add, hv, linear]
  exact (map_combine (LinearMap.lsmul p.Field (ℕ → p.Field) (c : p.Field)) _ _ _).symm

/-- The row space is the image. -/
theorem rowSpan_eq_image (M : Matrix) : M.rowSpan p = M.image p := by
  refine le_antisymm (spanOf_le.mpr fun r hr => ?_) ?_
  · obtain ⟨i, hi, rfl⟩ := List.mem_iff_getElem.mp hr
    have hheight : i < M.height := hi
    refine ⟨Pi.single i 1, fun j hj => Pi.single_eq_of_ne (by omega) _, ?_⟩
    rw [linear, combine_single hheight, one_smul, rowCoords, List.getElem?_eq_getElem hi, Option.getD_some]
  · rintro _ ⟨f, _, rfl⟩
    refine combine_mem (fun i hi => ?_) f
    have hlength : i < M.rows.length := hi
    rw [rowCoords, List.getElem?_eq_getElem hlength, Option.getD_some]
    exact mem_spanOf (List.getElem_mem hlength)

/-- Kernel and image together have as many dimensions as there are rows. -/
theorem finrank_kernel_add_finrank_rowSpan (p : Prime) (M : Matrix) :
    Module.finrank p.Field (M.kernel p) + Module.finrank p.Field (M.rowSpan p) = M.height := by
  have hsum := LinearMap.finrank_range_add_finrank_ker ((M.linear p).domRestrict (p.space M.height))
  rw [LinearMap.range_domRestrict, finrank_space] at hsum
  have hkernel : Module.finrank p.Field (M.kernel p) =
      Module.finrank p.Field (LinearMap.ker ((M.linear p).domRestrict (p.space M.height))) := by
    rw [LinearMap.ker_domRestrict, kernel, ← Submodule.map_comap_subtype]
    exact Submodule.finrank_map_subtype_eq _ _
  rw [hkernel, rowSpan_eq_image, Nat.add_comm]
  exact hsum

end Matrix

/-- The rows of a matrix, with room for the identity beside them. -/
def Segmented.besideRoom (A : Matrix) : Segmented :=
  ⟨[A.columns, A.height], ⟨A.columns + A.height, A.rows.map fun r => r.padTo (A.columns + A.height)⟩⟩

section Filling

variable {p : Prime} {A : Matrix}

theorem addIdentity_row {r : Vec} {n m i : ℕ} (hr : Vec.Proper p n r) (hi : i < m) :
    Matrix.modifyBlock? n (n + m) (fun b => b.addAt? p i 1) (r.padTo (n + m)) = some (r.append (Vec.unit m i)) := by
  have hpad := hr.padTo (Nat.le_add_right n m)
  have hblock : Vec.Proper p m ((r.padTo (n + m)).block n (n + m)) := by
    have hproper := hpad.block (a := n) (le_refl _)
    rwa [Nat.add_sub_cancel_left] at hproper
  have hunit := hblock.addAt i 1
  have hsize : n + (((r.padTo (n + m)).block n (n + m)).addAt p i 1).size ≤ (r.padTo (n + m)).size := by
    rw [hunit.size_eq, hpad.size_eq]
  rw [Matrix.modifyBlock?, block?, if_pos ⟨Nat.le_add_right n m, hpad.size_eq.ge⟩, Option.bind_eq_bind, Option.bind_some,
    addAt?, if_pos (hi.trans_eq hblock.size_eq.symm), Option.bind_some, splice?, if_pos hsize]
  refine congrArg some ((hpad.splice hunit.reduced (hsize.trans_eq hpad.size_eq)).ext (hr.append (proper_unit m i)) ?_)
  funext j
  rw [coords_splice hsize, hunit.size_eq, coords_append, hr.size_eq, coords_padTo]
  by_cases hj : j < n
  · rw [if_neg (by omega), if_pos hj]
  · rw [if_neg hj]
    by_cases hjm : j < n + m
    · rw [if_pos ⟨by omega, hjm⟩, coords_addAt (hi.trans_eq hblock.size_eq.symm), Pi.add_apply, coords_block, if_pos (by omega),
        coords_padTo, coords_of_size_le (hr.size_eq.trans_le (by omega)), zero_add, Nat.cast_one, coords_unit hi]
    · rw [if_neg (by omega), coords_of_size_le (hr.size_eq.trans_le (by omega)), coords_of_size_le (by rw [size_unit]; omega)]

theorem Option.mapM_eq_some {α β : Type} {f : α → Option β} {g : α → β} {l : List α} (h : ∀ x ∈ l, f x = some (g x)) :
    l.mapM f = some (l.map g) := by
  induction l with
  | nil => rfl
  | cons x l ih =>
    rw [List.mapM_cons, h x (by simp), ih fun y hy => h y (by simp [hy])]
    rfl

/-- Filling in the identity leads to `[A | I]`. -/
theorem addIdentity_besideRoom (hA : A.Proper p) :
    (Segmented.besideRoom A).addIdentity? p 1 1 = some ⟨[A.columns, A.height], A.withIdentity⟩ := by
  have hbounds : (Segmented.besideRoom A).bounds? 1 1 = some (A.columns, A.columns + A.height) := by
    simp [Segmented.bounds?, Segmented.besideRoom]
  have hrow : ∀ x ∈ A.rows.zipIdx, (if x.2 < A.height then
      Matrix.modifyBlock? A.columns (A.columns + A.height) (fun b => b.addAt? p x.2 1) (x.1.padTo (A.columns + A.height))
      else some (x.1.padTo (A.columns + A.height))) = some (x.1.append (Vec.unit A.height x.2)) := by
    intro x hx
    obtain ⟨hi, hr⟩ := List.getElem?_eq_some_iff.mp (List.mk_mem_zipIdx_iff_getElem?.mp hx)
    have hheight : x.2 < A.height := hi
    rw [if_pos hheight]
    exact addIdentity_row (hA x.1 (hr ▸ List.getElem_mem hi)) hheight
  have hmin : min (Segmented.besideRoom A).matrix.height (A.columns + A.height - A.columns) = A.height := by
    simp [Segmented.besideRoom, Matrix.height]
  rw [Segmented.addIdentity?, hbounds, Option.bind_eq_bind, Option.bind_some]
  refine Option.bind_eq_some_iff.mpr ⟨A.withIdentity, ?_, rfl⟩
  rw [Matrix.addIdentity?, if_neg (by omega), hmin]
  refine Option.bind_eq_some_iff.mpr ⟨A.withIdentity.rows, ?_, rfl⟩
  change (A.rows.map fun r => r.padTo (A.columns + A.height)).zipIdx.mapM _ = _
  rw [List.zipIdx_map, List.mapM_map]
  exact Option.mapM_eq_some hrow

end Filling

namespace Augmented

variable {p : Prime} {A : Matrix}

/-- How many columns of `A` have a pivot. -/
def imageRank (R : Augmented) : ℕ := R.imagePivots.countP Option.isSome

theorem imageRank_eq (hA : A.Proper p) :
    (ofMatrix p A).imageRank = (ofMatrix p A).space.leads.countP fun x => x.1 < A.columns := by
  have hpivots : (ofMatrix p A).imagePivots =
      (List.range A.columns).map fun c => (ofMatrix p A).space.leads.findIdx? (·.1 == c) := by
    rw [imagePivots, Subspace.pivots, columns_ofMatrix, width_ofMatrix, ← List.map_take, List.take_range,
      Nat.min_eq_left (Nat.le_add_right _ _)]
  have hnodup := (echelon_ofMatrix hA).nodup_columns
  have hperm : ((List.range A.columns).filter fun c => (ofMatrix p A).space.leads.any (·.1 == c)).Perm
      (((ofMatrix p A).space.leads.map (·.1)).filter fun c => c < A.columns) := by
    refine (List.perm_ext_iff_of_nodup (List.nodup_range.filter _) (hnodup.filter _)).mpr fun c => ?_
    simp only [List.mem_filter, List.mem_range, List.any_eq_true, beq_iff_eq, List.mem_map, decide_eq_true_eq]
    exact And.comm
  rw [imageRank, hpivots, List.countP_map, List.countP_eq_length_filter]
  simp only [Function.comp_def, List.findIdx?_isSome]
  rw [hperm.length_eq, ← List.countP_eq_length_filter, List.countP_map]
  rfl

theorem imageRank_le (hA : A.Proper p) : (ofMatrix p A).imageRank ≤ (A.withIdentity.rowSpace p).basis.length := by
  rw [imageRank_eq hA, Subspace.basis, List.length_map]
  exact List.countP_le_length

/-- The rows that lead inside `A` come before the others. -/
theorem rows_eq_take (hA : A.Proper p) :
    (ofMatrix p A).imageRows = (A.withIdentity.rowSpace p).basis.take (ofMatrix p A).imageRank ∧
      (ofMatrix p A).kernelRows = (A.withIdentity.rowSpace p).basis.drop (ofMatrix p A).imageRank := by
  have hsorted : (ofMatrix p A).space.leads.Pairwise fun x y =>
      decide (y.1 < A.columns) = true → decide (x.1 < A.columns) = true :=
    (echelon_ofMatrix hA).sorted.imp fun hlt hy => decide_eq_true (hlt.trans (of_decide_eq_true hy))
  obtain ⟨htake, hdrop⟩ := filter_eq_take hsorted
  have hnot : ∀ x : ℕ × Vec, decide (A.columns ≤ x.1) = !decide (x.1 < A.columns) := fun x => by
    rw [← decide_not, decide_eq_decide, not_lt]
  rw [imageRank_eq hA]
  constructor
  · rw [imageRows, width_ofMatrix, htake, Subspace.basis, List.map_take]
    rfl
  · rw [kernelRows, width_ofMatrix]
    simp only [hnot]
    rw [hdrop, Subspace.basis, List.map_drop]
    rfl

/-- The rows that lead inside `A` are the first rows of the reduced form. -/
theorem imageRows_eq_take (hA : A.Proper p) :
    (ofMatrix p A).imageRows = (A.withIdentity.rowReduce p).rows.take (ofMatrix p A).imageRank := by
  rw [(rows_eq_take hA).1, Matrix.rows_rowReduce, List.take_append_of_le_length (imageRank_le hA)]

theorem isZero_preimageRow (hA : A.Proper p) {x : ℕ × Vec} (hx : x ∈ (ofMatrix p A).space.leads) (hge : A.columns ≤ x.1) :
    (preimageRow A x).isZero = false := by
  refine Bool.eq_false_iff.mpr fun hzero => ?_
  have hlead := congrFun ((isZero_iff (proper_preimageRow hA hx).reduced).mp hzero) (x.1 - A.columns)
  rw [coords_preimageRow hA hx, rest_apply, Nat.add_sub_cancel' hge, (echelon_ofMatrix hA).leading x hx] at hlead
  exact one_ne_zero hlead

/-- Without zero rows, what is left of the other rows are the rows of the kernel. -/
theorem kernelRows_eq_drop (hA : A.Proper p) :
    (ofMatrix p A).kernelRows.map (fun v => v.block A.columns (A.columns + A.height)) =
      (((A.withIdentity.rowReduce p).rows.drop (ofMatrix p A).imageRank).map fun v =>
        v.block A.columns (A.columns + A.height)).filter fun v => !v.isZero := by
  have hzero : ((Vec.zero (A.columns + A.height)).block A.columns (A.columns + A.height)).isZero = true := by
    refine isZero_iff_entry.mpr fun i => ?_
    rw [entry_block, entry_zero, ite_self]
  rw [Matrix.rows_rowReduce, List.drop_append_of_le_length (imageRank_le hA), ← (rows_eq_take hA).2, List.map_append,
    List.filter_append, List.filter_eq_self.mpr, List.filter_eq_nil_iff.mpr, List.append_nil]
  · intro v hv
    obtain ⟨w, hw, rfl⟩ := List.mem_map.mp hv
    rw [List.eq_of_mem_replicate hw]
    exact (congrArg (!·) hzero).trans_ne (by decide)
  · intro v hv
    obtain ⟨w, hw, rfl⟩ := List.mem_map.mp hv
    obtain ⟨x, hx, rfl⟩ := List.mem_map.mp hw
    obtain ⟨hx, hge⟩ := List.mem_filter.mp hx
    exact congrArg (!·) (isZero_preimageRow hA hx (of_decide_eq_true hge))

/-- The first part of a row is the image of its second part. -/
theorem coords_imageRow (hA : A.Proper p) {x : ℕ × Vec} (hx : x ∈ (ofMatrix p A).space.leads) :
    (x.2.block 0 A.columns).coords p = A.linear p ((preimageRow A x).coords p) := by
  rw [coords_preimageRow hA hx, ← ((mem_space_ofMatrix hA).mp (row_mem_space hx)).1]
  funext i
  rw [coords_block, cut_apply, Nat.sub_zero, Nat.zero_add]

theorem proper_imageRows (hA : A.Proper p) :
    ∀ v ∈ (ofMatrix p A).imageRows.map fun v => v.block 0 A.columns, Vec.Proper p A.columns v := by
  intro v hv
  obtain ⟨r, hr, rfl⟩ := List.mem_map.mp hv
  obtain ⟨x, hx, rfl⟩ := List.mem_map.mp hr
  have hproper := (echelon_ofMatrix hA).proper x (List.mem_of_mem_filter hx)
  rw [columns_ofMatrix] at hproper
  exact hproper.block (a := 0) (Nat.le_add_right _ _)

theorem space_image (hA : A.Proper p) : ((ofMatrix p A).image p).space p = A.rowSpan p := by
  have hspan := Subspace.space_span (proper_imageRows hA)
  rw [image, width_ofMatrix, hspan, Matrix.rowSpan_eq_image]
  refine le_antisymm (Submodule.span_le.mpr ?_) fun y hy => ?_
  · rintro _ ⟨v, hv, rfl⟩
    obtain ⟨r, hr, rfl⟩ := List.mem_map.mp hv
    obtain ⟨x, hx, rfl⟩ := List.mem_map.mp hr
    have hx := List.mem_of_mem_filter hx
    rw [coords_imageRow hA hx]
    exact Submodule.mem_map_of_mem (proper_preimageRow hA hx).coords_mem
  · -- An element of the image is what its expansion in the preimages is sent to.
    rw [← linear_expand_leadingRows hA hy]
    have hmap := Submodule.mem_map_of_mem (f := A.linear p) (Subspace.expand_mem (leadingRows p A) y)
    rw [Submodule.map_span] at hmap
    refine Submodule.span_mono ?_ hmap
    rintro _ ⟨_, ⟨a, ha, rfl⟩, rfl⟩
    obtain ⟨x, hx, hlt, rfl⟩ := mem_leadingRows.mp ha
    refine ⟨x.2.block 0 A.columns, List.mem_map.mpr ⟨x.2, List.mem_map.mpr ⟨x, ?_, rfl⟩, rfl⟩, coords_imageRow hA hx⟩
    exact List.mem_filter.mpr ⟨hx, decide_eq_true hlt⟩

theorem image_eq_rowSpace (hA : A.Proper p) : (ofMatrix p A).image p = A.rowSpace p := by
  have hechelon : ((ofMatrix p A).image p).Echelon p := Subspace.echelon_span (proper_imageRows hA)
  refine hechelon.eq_of_space_eq (Matrix.echelon_rowSpace hA) ?_ ?_
  · rw [image, width_ofMatrix, Subspace.columns_span, Matrix.rowSpace, Subspace.columns_span]
  · rw [space_image hA, Matrix.space_rowSpace hA]

/-- The recorded kernel consists of the vectors that are sent to zero. -/
theorem contains?_kernel_iff (hA : A.Proper p) {x : Vec} (hx : Vec.Proper p A.height x) :
    ((ofMatrix p A).kernel p).contains? p x = some true ↔ A.image? p 1 x = some (Vec.zero A.columns) := by
  obtain ⟨r, hr, hproper, hcoords⟩ := Matrix.image?_eq hA 1 hx.size_eq
  rw [Nat.cast_one, one_smul] at hcoords
  rw [(echelon_kernel hA).contains?_iff ((columns_kernel p A).symm ▸ hx), space_kernel hA, Matrix.mem_kernel, ← hcoords, hr,
    Option.some.injEq]
  constructor
  · rintro ⟨_, hzero⟩
    exact hproper.eq_zero hzero
  · rintro rfl
    exact ⟨hx.coords_mem, coords_zero _⟩

theorem dimension_kernel_add_dimension_image (hA : A.Proper p) :
    ((ofMatrix p A).kernel p).dimension + ((ofMatrix p A).image p).dimension = A.height := by
  have hrank : (A.rowSpace p).dimension = Module.finrank p.Field (A.rowSpan p) := Matrix.rank_eq_finrank hA
  rw [image_eq_rowSpace hA, hrank, ← (echelon_kernel hA).finrank_space, space_kernel hA]
  exact Matrix.finrank_kernel_add_finrank_rowSpan p A

/-- What the quasi-inverse finds for an element of the row space is sent back to it, and is added to what is there. -/
theorem exists_preimage (hA : A.Proper p) {y : Vec} (hy : Vec.Proper p A.columns y) (hmem : y.coords p ∈ A.rowSpan p) (c : ℕ) :
    ∃ x, (ofMatrix p A).quasiInverse.pullBack? p p (Vec.zero A.height) c y = some x ∧ Vec.Proper p A.height x ∧
      A.image? p 1 x = some (y.scale p c) ∧
      ∀ r, Vec.Proper p A.height r → (ofMatrix p A).quasiInverse.pullBack? p p r c y = some (r.add p 1 x) := by
  obtain ⟨x, hx, hproper, hcoords⟩ := pullBack?_quasiInverse hA hy Proper.zero c
  rw [coords_zero, zero_add] at hcoords
  refine ⟨x, hx, hproper, ?_, fun r hr => ?_⟩
  · obtain ⟨w, hw, hwproper, hwcoords⟩ := Matrix.image?_eq hA 1 hproper.size_eq
    rw [hw]
    refine congrArg some (hwproper.ext (Proper.scale hy.size_eq c) ?_)
    rw [hwcoords, Nat.cast_one, one_smul, hcoords, map_smul, coords_scale,
      linear_expand_leadingRows hA (Matrix.rowSpan_eq_image (p := p) A ▸ hmem)]
  · obtain ⟨w, hw, hwproper, hwcoords⟩ := pullBack?_quasiInverse hA hy hr c
    rw [hw]
    refine congrArg some (hwproper.ext (hr.add 1 x) ?_)
    rw [hwcoords, hr.coords_add 1 hproper, hcoords, Nat.cast_one, one_smul]

/-- What is read off the reduced form of `[A | I]`, for a matrix of any shape with reduced entries. The rows that lead inside `A`
come first and give image and quasi-inverse, the others without zero rows give the kernel. The image is the row space of `A`,
the kernel is what `A` sends to zero, and the dimensions add up to the number of rows. For every multiple of an element of the
row space the quasi-inverse finds a preimage. -/
theorem kernel_image_preimages (hA : A.Proper p) :
    ((Segmented.besideRoom A).addIdentity? p 1 1 = some ⟨[A.columns, A.height], A.withIdentity⟩ ∧
      (ofMatrix p A).imageRows = (A.withIdentity.rowReduce p).rows.take (ofMatrix p A).imageRank ∧
      (ofMatrix p A).kernelRows.map (fun v => v.block A.columns (A.columns + A.height)) =
        (((A.withIdentity.rowReduce p).rows.drop (ofMatrix p A).imageRank).map fun v =>
          v.block A.columns (A.columns + A.height)).filter fun v => !v.isZero) ∧
    ((ofMatrix p A).image p = A.rowSpace p ∧
      ∀ y, Vec.Proper p A.columns y → (((ofMatrix p A).image p).contains? p y = some true ↔ y.coords p ∈ A.rowSpan p)) ∧
    (((ofMatrix p A).kernel p).columns = A.height ∧
      ∀ x, Vec.Proper p A.height x →
        (((ofMatrix p A).kernel p).contains? p x = some true ↔ A.image? p 1 x = some (Vec.zero A.columns))) ∧
    ((ofMatrix p A).kernel p).dimension + ((ofMatrix p A).image p).dimension = A.height ∧
    ∀ y c, Vec.Proper p A.columns y → y.coords p ∈ A.rowSpan p →
      ∃ x, (ofMatrix p A).quasiInverse.pullBack? p p (Vec.zero A.height) c y = some x ∧ Vec.Proper p A.height x ∧
        A.image? p 1 x = some (y.scale p c) ∧
        ∀ r, Vec.Proper p A.height r → (ofMatrix p A).quasiInverse.pullBack? p p r c y = some (r.add p 1 x) := by
  refine ⟨⟨addIdentity_besideRoom hA, imageRows_eq_take hA, kernelRows_eq_drop hA⟩, ⟨image_eq_rowSpace hA, fun y hy => ?_⟩,
    ⟨columns_kernel p A, fun x hx => contains?_kernel_iff hA hx⟩, dimension_kernel_add_dimension_image hA,
    fun y c hy hmem => exists_preimage hA hy hmem c⟩
  have hcolumns : (A.rowSpace p).columns = A.columns := Subspace.columns_span p _ _
  rw [image_eq_rowSpace hA, (Matrix.echelon_rowSpace hA).contains?_iff (hcolumns.symm ▸ hy), Matrix.space_rowSpace hA]

theorem kernel_image_preimages_threeRows :
    Matrix.threeRows.Proper Prime.five ∧
      ((ofMatrix Prime.five Matrix.threeRows).image Prime.five).basis = [⟨#[1, 0, 1]⟩, ⟨#[0, 1, 2]⟩] ∧
      ((ofMatrix Prime.five Matrix.threeRows).kernel Prime.five).basis = [⟨#[1, 3, 2]⟩] ∧
      ((ofMatrix Prime.five Matrix.threeRows).kernel Prime.five).dimension +
        ((ofMatrix Prime.five Matrix.threeRows).image Prime.five).dimension = 3 ∧
      ∃ x, Matrix.threeRows.image? Prime.five 1 x = some (Vec.scale Prime.five 3 ⟨#[3, 0, 3]⟩) := by
  obtain ⟨_, _, _, hdimension, hpreimage⟩ := kernel_image_preimages Matrix.threeRows_proper
  have hrow : (⟨#[3, 0, 3]⟩ : Vec) ∈ Matrix.threeRows.rows := by decide
  obtain ⟨x, _, _, himage, _⟩ := hpreimage _ 3 (Matrix.threeRows_proper _ hrow) (mem_spanOf hrow)
  exact ⟨Matrix.threeRows_proper, by decide +kernel, by decide +kernel, hdimension, x, himage⟩

end Augmented
end Steenrod
