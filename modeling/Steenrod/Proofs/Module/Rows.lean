import Steenrod.Module.Tensor
import Steenrod.Proofs.Module.DirectSum
/-!
What an operation makes of one block of a product, in coordinates. Main statement: where two modules act on their basis elements, the loops
over the basis elements of the left factor and over their rows add the tensors of the images, written row by row into the target block.
-/
namespace Steenrod
namespace Vec

variable {p : Prime} {m n size start : ℕ} {v w : Vec}

/-- Adding to a block. -/
theorem Proper.exists_addBlock (hv : Proper p n v) (hw : Proper p m w) (h : start + m ≤ n) (c : ℕ) :
    ∃ r, v.addBlock? p start c w = some r ∧ Proper p n r ∧
      r.coords p = v.coords p + (c : p.Field) • putBlock p start m (w.coords p) := by
  have hblock : Proper p m (v.block start (start + m)) := by
    have hproper := hv.block (a := start) h
    rwa [Nat.add_sub_cancel_left] at hproper
  have hsum := hblock.add c w
  refine ⟨v.splice start ((v.block start (start + m)).add p c w), ?_, hv.splice hsum.reduced (by rw [hsum.size_eq]; exact h), ?_⟩
  · rw [addBlock?, hw.size_eq, block?, if_pos ⟨Nat.le_add_right _ _, by rw [hv.size_eq]; exact h⟩]
    rfl
  · funext i
    rw [coords_splice (by rw [hsum.size_eq, hv.size_eq]; exact h), hsum.size_eq, hblock.coords_add c hw]
    change _ = v.coords p i + (c : p.Field) • putBlock p start m (w.coords p) i
    rw [putBlock_apply]
    by_cases hi : start ≤ i ∧ i < start + m
    · rw [if_pos hi, if_pos hi, Pi.add_apply, Pi.smul_apply, coords_block, if_pos (by omega), Nat.add_sub_cancel' hi.1]
    · rw [if_neg hi, if_neg hi, smul_zero, add_zero]

/-- The coordinates of a tensor: rows of length `n` from `start` on, one for each of the `m` coordinates of the left factor. -/
def outer (p : Prime) (start m n : ℕ) : (ℕ → p.Field) →ₗ[p.Field] (ℕ → p.Field) →ₗ[p.Field] (ℕ → p.Field) :=
  ∑ i ∈ Finset.range m, (LinearMap.proj i : (ℕ → p.Field) →ₗ[p.Field] p.Field).smulRight (putBlock p (start + i * n) n)

theorem outer_apply (f g : ℕ → p.Field) : outer p start m n f g = ∑ i ∈ Finset.range m, f i • putBlock p (start + i * n) n g := by
  simp only [outer, LinearMap.sum_apply, LinearMap.smulRight_apply, LinearMap.proj_apply, LinearMap.smul_apply]

theorem outer_eq_zero (h : m = 0 ∨ n = 0) (f g : ℕ → p.Field) : outer p start m n f g = 0 := by
  rw [outer_apply]
  rcases h with rfl | rfl
  · rfl
  · exact Finset.sum_eq_zero fun i _ => by rw [putBlock_zero_width, smul_zero]

/-- The rows lie between the start of the block and its end. -/
theorem row_le {i : ℕ} (hi : i < m) : i * n + n ≤ m * n := by
  have hle := Nat.mul_le_mul_right n (Nat.succ_le_of_lt hi)
  rwa [Nat.succ_mul] at hle

theorem outer_place {i j : ℕ} (hi : i < m) (hj : j < n) (f g : ℕ → p.Field) : outer p start m n f g (start + i * n + j) = f i * g j := by
  rw [outer_apply, Finset.sum_apply, Finset.sum_eq_single_of_mem i (Finset.mem_range.mpr hi)]
  · rw [Pi.smul_apply, putBlock_apply, if_pos (by omega), Nat.add_sub_cancel_left, smul_eq_mul]
  · intro k _ hk
    rw [Pi.smul_apply, putBlock_apply, if_neg, smul_zero]
    rcases Nat.lt_or_gt_of_ne hk with hlt | hlt
    · have := row_le (n := n) hlt
      omega
    · have := row_le (n := n) hlt
      omega

theorem outer_apply_of_outside {k : ℕ} (h : k < start ∨ start + m * n ≤ k) (f g : ℕ → p.Field) : outer p start m n f g k = 0 := by
  rw [outer_apply, Finset.sum_apply]
  refine Finset.sum_eq_zero fun i hi => ?_
  have := row_le (n := n) (Finset.mem_range.mp hi)
  rw [Pi.smul_apply, putBlock_apply, if_neg (by omega), smul_zero]

/-- Adding a tensor, row by row. -/
theorem exists_addTensor {left right result : Vec} (hleft : Proper p m left) (hright : Proper p n right) (hresult : Proper p size result)
    (hfit : start + m * n ≤ size) :
    ∃ w, Result.ofOption (result.addTensor? p start 1 left right) = .ok w ∧ Proper p size w ∧
      w.coords p = result.coords p + outer p start m n (left.coords p) (right.coords p) := by
  have hloop : ∃ w, left.nonzero.foldlM (fun u x =>
      Result.ofOption (u.addBlock? p (start + x.1 * right.size) (p.product x.2 1) right)) result = .ok w ∧ Proper p size w ∧
      w.coords p = result.coords p + combine left.size (fun i => putBlock p (start + i * n) n (right.coords p)) (left.coords p) := by
    refine foldlM_nonzero (fun i x hx u hu => ?_) hresult
    have hi : i < m := hleft.size_eq ▸ lt_size_of_mem_nonzero hx
    have hrow := row_le (n := n) hi
    have hend : start + i * n + n ≤ size := by omega
    obtain ⟨r, hr, hrp, hrc⟩ := hu.exists_addBlock hright hend (p.product x 1)
    refine ⟨r, ?_, hrp, ?_⟩
    · rw [hright.size_eq]
      exact Result.ofOption_eq_ok.mpr hr
    · rw [hrc, Prime.cast_product, Nat.cast_one, mul_one]
  obtain ⟨w, hw, hproper, hcoords⟩ := hloop
  refine ⟨w, (Result.ofOption_foldlM _ left.nonzero result).trans hw, hproper, ?_⟩
  rw [hcoords, combine_apply, hleft.size_eq, outer_apply]

end Vec

namespace Tensor

open Vec

variable {p : Prime} {A : Algebra} {L R : GradedModule} {X Y : Representation p} {T : TensorTable} {a b : Operation} {top top' l r t : ℤ}
variable {c i j k m size start target : ℕ} {v left result : Vec}

section Loops

variable (hR : R.ActsAs Y A top') (hb : b.IsBasis p) (hltb : b.degree < A.computed) (hr : r + b.degree ≤ top')
variable (hfit : target + m * Y.dim (r + b.degree) ≤ size)

include hR hb hltb hr hfit

/-- One entry times the image of a basis element of the left factor. -/
theorem exists_actOnEntry (hj : j < Y.dim r) (hleft : Proper p m left) (hk : k < v.size) (hresult : Proper p size result) :
    ∃ w, (do
        let x ← Result.ofOption (v.entry? k)
        if x = 0 then .ok result
        else do
          let right ← R.actOnBasis p x b r j
          if right.isZero then .ok result
          else Result.ofOption (result.addTensor? p target 1 left right) : Result Vec) = .ok w ∧ Proper p size w ∧
      w.coords p = result.coords p +
        outer p target m (Y.dim (r + b.degree)) (left.coords p) (v.coords p k • Y.act b r (Pi.single j 1)) := by
  have hentry : v.entry? k = some (v.entry k) := by
    have hsize : k < v.entries.size := hk
    rw [ entry?, entry, Array.getElem?_eq_getElem hsize, Option.getD_some]
  obtain ⟨right, hright, hrightp, hrightc⟩ := hR (v.entry k) b r j hb hltb hr hj
  rw [hentry, Result.ofOption_some, Result.ok_bind, coords_apply, ← hrightc]
  by_cases hx : v.entry k = 0
  · refine ⟨result, if_pos hx, hresult, ?_⟩
    rw [hrightc, hx, Nat.cast_zero, zero_smul, map_zero, add_zero]
  · rw [if_neg hx, hright, Result.ok_bind]
    by_cases hzero : right.isZero
    · refine ⟨result, if_pos hzero, hresult, ?_⟩
      rw [(isZero_iff hrightp.reduced).mp hzero, map_zero, add_zero]
    · rw [if_neg hzero]
      exact exists_addTensor hleft hrightp hresult hfit

/-- One row times the image of a basis element of the left factor. -/
theorem exists_actOnRow (hleft : Proper p m left) (hv : start + Y.dim r ≤ v.size) (hresult : Proper p size result) :
    ∃ w, (List.range (Y.dim r)).foldlM (fun result j => do
        let x ← Result.ofOption (v.entry? (start + j))
        if x = 0 then .ok result
        else do
          let right ← R.actOnBasis p x b r j
          if right.isZero then .ok result
          else Result.ofOption (result.addTensor? p target 1 left right)) result = .ok w ∧ Proper p size w ∧
      w.coords p = result.coords p +
        outer p target m (Y.dim (r + b.degree)) (left.coords p) (Y.act b r (takeBlock p start (Y.dim r) (v.coords p))) := by
  obtain ⟨w, hw, hproper, hcoords⟩ := foldlM_add (List.range (Y.dim r)) (fun j hj u hu => by
    have hj := List.mem_range.mp hj
    exact exists_actOnEntry (v := v) (k := start + j) (j := j) hR hb hltb hr hfit hj hleft (by omega) hu) hresult
  refine ⟨w, hw, hproper, ?_⟩
  have hrow : Y.act b r (takeBlock p start (Y.dim r) (v.coords p)) =
      ∑ j ∈ Finset.range (Y.dim r), v.coords p (start + j) • Y.act b r (Pi.single j 1) := by
    rw [← combine_units (takeBlock_mem start (Y.dim r) (v.coords p)), map_combine, combine_apply]
    refine Finset.sum_congr rfl fun j hj => ?_
    rw [takeBlock_apply, if_pos (Finset.mem_range.mp hj)]
  rw [hcoords, hrow, map_sum, ← List.sum_toFinset _ List.nodup_range, List.toFinset_range]

end Loops

variable (hL : L.ActsAs X A top) (hR : R.ActsAs Y A top') (ha : a.IsBasis p) (hb : b.IsBasis p)
variable (hlta : a.degree < A.computed) (hltb : b.degree < A.computed) (hl : l + a.degree ≤ top) (hr : t - l + b.degree ≤ top')

include hL hR ha hb hlta hltb hl hr

/-- One basis element of the left factor, with its row. -/
theorem exists_actOnLeft (hi : i < X.dim l) (hv : start + Y.dim (t - l) ≤ v.size)
    (hfit : target + X.dim (l + a.degree) * Y.dim (t - l + b.degree) ≤ size) (hresult : Proper p size result) :
    ∃ w, (do
        let left ← L.actOnBasis p c a l i
        if left.isZero then .ok result
        else
          (List.range (Y.dim (t - l))).foldlM (fun result j => do
            let x ← Result.ofOption (v.entry? (start + j))
            if x = 0 then .ok result
            else do
              let right ← R.actOnBasis p x b (t - l) j
              if right.isZero then .ok result
              else Result.ofOption (result.addTensor? p target 1 left right)) result : Result Vec) = .ok w ∧ Proper p size w ∧
      w.coords p = result.coords p + (c : p.Field) • outer p target (X.dim (l + a.degree)) (Y.dim (t - l + b.degree))
        (X.act a l (Pi.single i 1)) (Y.act b (t - l) (takeBlock p start (Y.dim (t - l)) (v.coords p))) := by
  obtain ⟨left, hleft, hleftp, hleftc⟩ := hL c a l i ha hlta hl hi
  rw [hleft, Result.ok_bind, ← LinearMap.smul_apply, ← map_smul, ← hleftc]
  by_cases hzero : left.isZero
  · refine ⟨result, if_pos hzero, hresult, ?_⟩
    rw [(isZero_iff hleftp.reduced).mp hzero, map_zero, LinearMap.zero_apply, add_zero]
  · rw [if_neg hzero]
    exact exists_actOnRow hR hb hltb hr hfit hleftp hv hresult

/-- One summand of a coproduct on one block, whose place and whose target are read from the table. -/
theorem exists_actOnBlock (hprime : L.prime = p) (hdim : L.dimension l = .ok (X.dim l)) (hdim' : R.dimension (t - l) = .ok (Y.dim (t - l)))
    (hto : L.dimension (l + a.degree) = .ok (X.dim (l + a.degree)))
    (hto' : R.dimension (t - l + b.degree) = .ok (Y.dim (t - l + b.degree)))
    (hplaces : X.dim (l + a.degree) ≠ 0 → Y.dim (t - l + b.degree) ≠ 0 → X.dim l ≠ 0 → Y.dim (t - l) ≠ 0 →
      T.offset t l = .ok start ∧ start + X.dim l * Y.dim (t - l) ≤ v.size ∧
      T.offset (t + a.degree + b.degree) (l + a.degree) = .ok target ∧
      target + X.dim (l + a.degree) * Y.dim (t - l + b.degree) ≤ size) (hresult : Proper p size result) :
    ∃ w, actOnBlock L R T p c a b t v l result = .ok w ∧ Proper p size w ∧
      w.coords p = result.coords p + ∑ i ∈ Finset.range (X.dim l), ((c : p.Field) * (p.sign (b.degree * l) : p.Field)) •
        outer p target (X.dim (l + a.degree)) (Y.dim (t - l + b.degree)) (X.act a l (Pi.single i 1))
          (Y.act b (t - l) (takeBlock p (start + i * Y.dim (t - l)) (Y.dim (t - l)) (v.coords p))) := by
  unfold actOnBlock
  simp only
  rw [hdim, Result.ok_bind, hdim', Result.ok_bind, hto, Result.ok_bind, hto', Result.ok_bind]
  split
  · next hempty =>
    refine ⟨result, rfl, hresult, ?_⟩
    rw [Finset.sum_eq_zero, add_zero]
    intro i hi
    rcases hempty with hzero | hzero | hzero | hzero
    · rw [outer_eq_zero (.inl hzero), smul_zero]
    · rw [outer_eq_zero (.inr hzero), smul_zero]
    · rw [hzero] at hi
      exact absurd hi (Finset.notMem_empty i)
    · have hrow := takeBlock_mem (p := p) (start + i * Y.dim (t - l)) (Y.dim (t - l)) (v.coords p)
      rw [hzero, space_zero, Submodule.mem_bot] at hrow
      rw [hzero, hrow, map_zero, map_zero, smul_zero]
  · next hempty =>
    obtain ⟨hleft, hright, hm, hn⟩ : X.dim (l + a.degree) ≠ 0 ∧ Y.dim (t - l + b.degree) ≠ 0 ∧ X.dim l ≠ 0 ∧ Y.dim (t - l) ≠ 0 := by
      simpa only [not_or] using hempty
    obtain ⟨hstart, hsource, htarget, hfit⟩ := hplaces hleft hright hm hn
    obtain ⟨w, hw, hproper, hcoords⟩ := foldlM_add (List.range (X.dim l)) (fun i hi u hu => by
      have hi := List.mem_range.mp hi
      have hrow := row_le (n := Y.dim (t - l)) hi
      have hend : start + i * Y.dim (t - l) + Y.dim (t - l) ≤ v.size := by omega
      have hadded := exists_actOnLeft (c := p.product c (p.sign (b.degree * l))) hL hR ha hb hlta hltb hl hr hi hend hfit hu
      exact hadded) hresult
    refine ⟨w, ?_, hproper, ?_⟩
    · rw [hstart, Result.ok_bind, htarget, Result.ok_bind, hprime]
      exact hw
    · rw [hcoords, ← List.sum_toFinset _ List.nodup_range, List.toFinset_range, Prime.cast_product]

end Tensor
end Steenrod
