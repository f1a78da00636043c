import Steenrod.Map.Finite
import Steenrod.Proofs.Module.Stored
import Steenrod.Proofs.Module.Maps
/-!
The linear systems from which a homomorphism of finite modules is found. Main statements: when all leads of a system stand in the columns
of the source, what the system demands is what its solution does, and a system whose rows lie in the graph of a linear map is of that
kind; the rows of the system of a degree are the equations `f(a x) = a f(x)` and the given values.
-/
namespace Steenrod

open Vec

theorem Vec.coords_of_proper_zero {p : Prime} {v : Vec} (hv : Proper p 0 v) : v.coords p = 0 :=
  funext fun i => coords_of_size_le (by rw [hv.size_eq]; exact Nat.zero_le i)

namespace PartialMap

section Solution

variable {p : Prime} {E : Subspace} {m n i : ℕ}

@[simp] theorem columns_solution (m n : ℕ) (E : Subspace) : (solution m n E).columns = n := rfl

@[simp] theorem height_solution (m n : ℕ) (E : Subspace) : (solution m n E).height = m := by
  simp [solution, Matrix.height]

/-- The row for basis element `i` of the source. -/
def solutionRow (m n : ℕ) (E : Subspace) (i : ℕ) : Vec :=
  match E.leads.find? (·.1 = i) with
  | some (_, row) => row.block m (m + n)
  | none => Vec.zero n

theorem rows_solution (m n : ℕ) (E : Subspace) : (solution m n E).rows = (List.range m).map (solutionRow m n E) := rfl

theorem rowCoords_solution (hi : i < m) : (solution m n E).rowCoords p i = (solutionRow m n E i).coords p := by
  rw [Matrix.rowCoords, rows_solution, List.getElem?_map, List.getElem?_range hi]
  rfl

theorem proper_solution (hE : E.Echelon p) (hcol : E.columns = m + n) : (solution m n E).Proper p := by
  intro r hr
  obtain ⟨i, _, rfl⟩ := List.mem_map.mp hr
  rw [columns_solution]
  change Proper p n (solutionRow m n E i)
  rw [solutionRow]
  split
  · next c row hx =>
    have hproper := (hE.proper _ (List.mem_of_find?_eq_some hx)).block (a := m) (b := m + n) hcol.ge
    rwa [Nat.add_sub_cancel_left] at hproper
  · exact Proper.zero

/-- A row that leads in a column of the source gives the image of that basis element. -/
theorem rowCoords_solution_of_lead (hE : E.Echelon p) (hcol : E.columns = m + n) {x : ℕ × Vec} (hx : x ∈ E.leads) (hlt : x.1 < m) :
    (solution m n E).rowCoords p x.1 = rest p m (x.2.coords p) := by
  rw [rowCoords_solution hlt, solutionRow]
  split
  · next c row hy =>
    have hyx : c = x.1 := by simpa using List.find?_some hy
    obtain rfl : (c, row) = x := List.inj_on_of_nodup_map hE.nodup_columns (List.mem_of_find?_eq_some hy) hx hyx
    funext j
    rw [coords_block, Nat.add_sub_cancel_left, rest_apply]
    split
    · rfl
    · exact (coords_of_size_le (by rw [(hE.proper _ hx).size_eq]; omega)).symm
  · next hnone =>
    have hne := List.find?_eq_none.mp hnone x hx
    simp at hne

/-- Directions that the system leaves free go to zero. -/
theorem rowCoords_solution_of_free (hi : i < m) (h : ∀ x ∈ E.leads, x.1 ≠ i) : (solution m n E).rowCoords p i = 0 := by
  rw [rowCoords_solution hi, solutionRow]
  split
  · next c row hy => exact absurd (by simpa using List.find?_some hy) (h _ (List.mem_of_find?_eq_some hy))
  · exact coords_zero n

/-- The solution sends the source part of what the system demands to its target part. -/
theorem linear_solution (hE : E.Echelon p) (hcol : E.columns = m + n) (hlead : ∀ x ∈ E.leads, x.1 < m) {w : ℕ → p.Field}
    (hw : w ∈ E.space p) : (solution m n E).linear p w = rest p m w := by
  refine LinearMap.eqOn_span (fun f hf => ?_) hw
  obtain ⟨x, hx, rfl⟩ := hf
  rw [Matrix.linear, combine_apply, height_solution, Finset.sum_eq_single_of_mem x.1 (Finset.mem_range.mpr (hlead x hx)),
    hE.leading x hx, one_smul, rowCoords_solution_of_lead hE hcol hx (hlead x hx)]
  intro i hi hne
  by_cases h : ∃ y ∈ E.leads, y.1 = i
  · obtain ⟨y, hy, rfl⟩ := h
    rw [hE.cleared y hy x hx hne, zero_smul]
  · rw [rowCoords_solution_of_free (Finset.mem_range.mp hi) fun y hy hyi => h ⟨y, hy, hyi⟩, smul_zero]

/-- Rows in the graph of a linear map never force zero to go to something else. -/
theorem lead_lt_of_graph (hE : E.Echelon p) {φ : (ℕ → p.Field) →ₗ[p.Field] (ℕ → p.Field)}
    (h : ∀ w ∈ E.space p, rest p m w = φ (cut p m w)) : ∀ x ∈ E.leads, x.1 < m := by
  intro x hx
  by_contra hle
  have hcut : cut p m (x.2.coords p) = 0 := by
    funext j
    rw [cut_apply]
    split
    · exact hE.before x hx j (by omega)
    · rfl
  have hrest := congrFun (h _ (Submodule.subset_span ⟨x, hx, rfl⟩)) (x.1 - m)
  rw [hcut, map_zero, rest_apply, Nat.add_sub_cancel' (by omega), hE.leading x hx] at hrest
  exact one_ne_zero hrest

end Solution

/-- What has been found through some degree, as a map that is zero beyond. -/
def found (f : PartialMap) (R : Graded Matrix) : FiniteMap := ⟨f.source, f.target, f.shift, R⟩

/-- The value given last for a basis element. -/
def value? (f : PartialMap) (x : ℤ × ℕ) : Option Vec := (f.values.find? (·.1 = x)).map (·.2)

/-- The matrices have the sizes of the degrees that they are for, and reach from the lowest degree of the target up to `t`. -/
structure Fits (p : Prime) (f : PartialMap) (R : Graded Matrix) (t : ℤ) : Prop where
  min_eq : R.minDegree = f.target.minDegree
  next_eq : R.nextDegree = t
  matrix : ∀ (e : ℤ) (N : Matrix), R.get? e = some N →
    N.columns = f.target.dimension e ∧ N.height = f.source.dimension (e + f.shift) ∧ N.Proper p

namespace Fits

variable {p : Prime} {f : PartialMap} {R : Graded Matrix} {N : Matrix} {t d : ℤ}

theorem empty (p : Prime) (f : PartialMap) : f.Fits p (Graded.empty f.target.minDegree) f.target.minDegree :=
  ⟨rfl, by simp [Graded.nextDegree, Graded.empty], fun e N hN => by simp at hN⟩

theorem push (h : f.Fits p R t) (hcol : N.columns = f.target.dimension t) (hheight : N.height = f.source.dimension (t + f.shift))
    (hN : N.Proper p) : f.Fits p (R.push N) (t + 1) where
  min_eq := h.min_eq
  next_eq := by rw [Graded.nextDegree_push, h.next_eq]
  matrix e K hK := by
    rw [Graded.get?_push, h.next_eq] at hK
    split at hK
    · next he =>
      obtain rfl := Option.some.inj hK
      exact he ▸ ⟨hcol, hheight, hN⟩
    · exact h.matrix e K hK

theorem row (h : f.Fits p R t) (hN : R.get? (d - f.shift) = some N) {i : ℕ} (hi : i < f.source.dimension d) :
    ∃ r, N.row? i = some r ∧ Proper p (f.target.dimension (d - f.shift)) r := by
  obtain ⟨hcol, hheight, hproper⟩ := h.matrix _ N hN
  have hlt : i < N.rows.length := by rwa [show N.rows.length = _ from hheight, sub_add_cancel]
  exact ⟨N.rows[i], List.getElem?_eq_getElem hlt, hcol ▸ hproper _ (List.getElem_mem hlt)⟩

theorem hasRows (h : f.Fits p R t) : (f.found R).HasRows := by
  intro d N hN _ i hi
  obtain ⟨r, hr, hproper⟩ := h.row hN hi
  exact ⟨r, hr, hproper.size_eq⟩

theorem rowAt_eq (h : f.Fits p R t) (hN : R.get? (d - f.shift) = some N) {i : ℕ} (hi : i < f.source.dimension d) :
    (f.found R).rowAt p d i = N.rowCoords p i := by
  obtain ⟨r, hr, hproper⟩ := h.row hN hi
  have hmatrices : (f.found R).matrices.get? (d - (f.found R).shift) = some N := hN
  rw [FiniteMap.rowAt, hmatrices, Matrix.rowCoords]
  simp only
  rw [Matrix.row?] at hr ⊢
  rw [hr, Option.getD_some]
  split
  · next hzero =>
    rw [← (h.matrix _ N hN).1, hzero] at hproper
    exact (coords_of_proper_zero hproper).symm
  · rfl

/-- In a degree that has been reached the map is the matrix. -/
theorem linear_eq (h : f.Fits p R t) (hN : R.get? (d - f.shift) = some N) (v : ℕ → p.Field) :
    (f.found R).linear p d v = N.linear p v := by
  have hheight := (h.matrix _ N hN).2.1
  rw [sub_add_cancel] at hheight
  rw [FiniteMap.linear, Matrix.linear, hheight]
  exact combine_congr (fun i hi => h.rowAt_eq hN hi) fun _ _ => rfl

/-- In the other degrees it is zero. -/
theorem linear_eq_zero (hN : R.get? (d - f.shift) = none) (v : ℕ → p.Field) : (f.found R).linear p d v = 0 := by
  have hmatrices : (f.found R).matrices.get? (d - (f.found R).shift) = none := hN
  rw [FiniteMap.linear, combine_apply]
  refine Finset.sum_eq_zero fun i _ => ?_
  rw [FiniteMap.rowAt, hmatrices, smul_zero]

theorem linear_push (h : f.Fits p R t) (hd : d - f.shift ≠ t) (N : Matrix) :
    (f.found (R.push N)).linear p d = (f.found R).linear p d := by
  have hget : (R.push N).get? (d - f.shift) = R.get? (d - f.shift) := by
    rw [Graded.get?_push, if_neg (by rwa [h.next_eq])]
  rw [FiniteMap.linear, FiniteMap.linear]
  congr 1
  funext i
  rw [FiniteMap.rowAt, FiniteMap.rowAt]
  simp only [found]
  rw [hget]

theorem linear_push_new (h : (f.Fits p (R.push N) (t + 1))) (hd : d - f.shift = t) (v : ℕ → p.Field) :
    (f.found (R.push N)).linear p d v = N.linear p v := by
  refine h.linear_eq ?_ v
  have hnext : R.nextDegree = t := by
    have := h.next_eq
    rw [Graded.nextDegree_push] at this
    omega
  rw [Graded.get?_push, if_pos (hd.trans hnext.symm)]

end Fits

section Equations

variable {p : Prime} {f : PartialMap} {R : Graded Matrix} {t d e : ℤ} {A : Algebra}

/-- The equation `f(a x) = a f(x)` for basis element `i` of degree `e`, with what is known of `f` on the right. -/
def equation (p : Prime) (f : PartialMap) (R : Graded Matrix) (a : Operation) (e : ℤ) (i : ℕ) : ℕ → p.Field :=
  glue (f.source.dimension (e + a.degree)) ((f.source.rep p).act a e (Pi.single i 1))
    ((f.target.rep p).act a (e - f.shift) ((f.found R).linear p e (Pi.single i 1)))

/-- What is demanded of the images in degree `d`. -/
def equations (p : Prime) (f : PartialMap) (R : Graded Matrix) (d : ℤ) : Set (ℕ → p.Field) :=
  {w | ∃ a e i, a.IsBasis p ∧ e < d ∧ e + a.degree = d ∧ i < f.source.dimension e ∧ f.equation p R a e i = w} ∪
  {w | ∃ i v, i < f.source.dimension d ∧ f.value? (d, i) = some v ∧ glue (f.source.dimension d) (Pi.single i 1) (v.coords p) = w}

/-- The given values have the length of the degree of the target that they are in. -/
def ValuesFit (p : Prime) (f : PartialMap) : Prop :=
  ∀ ⦃x : ℤ × ℕ⦄ ⦃v : Vec⦄, f.value? x = some v → Proper p (f.target.dimension (x.1 - f.shift)) v

theorem coords_append_eq_glue {n : ℕ} {v w : Vec} (hv : Proper p n v) : (v.append w).coords p = glue n (v.coords p) (w.coords p) := by
  funext i
  rw [coords_append, hv.size_eq]
  rfl

/-- What is known of the map on a basis element is a row of the matrix of its degree, unless there is none with columns. -/
theorem lower_row (h : f.Fits p R t) {i : ℕ} (hi : i < f.source.dimension e) :
    ((R.get? (e - f.shift)).filter (0 < ·.columns) = none ∧ (f.found R).linear p e (Pi.single i 1) = 0) ∨
      ∃ N r, (R.get? (e - f.shift)).filter (0 < ·.columns) = some N ∧ N.row? i = some r ∧
        Proper p (f.target.dimension (e - f.shift)) r ∧ (f.found R).linear p e (Pi.single i 1) = r.coords p := by
  cases hN : R.get? (e - f.shift) with
  | none => exact .inl ⟨rfl, Fits.linear_eq_zero hN _⟩
  | some N =>
    have hcol := (h.matrix _ N hN).1
    by_cases hzero : N.columns = 0
    · have hmem := FiniteMap.linear_mem h.hasRows p e (Pi.single i 1)
      rw [show (f.found R).target.dimension (e - (f.found R).shift) = 0 from hcol.symm.trans hzero, space_zero,
        Submodule.mem_bot] at hmem
      exact .inl ⟨by rw [Option.filter_some, if_neg (by simp [hzero])], hmem⟩
    · obtain ⟨r, hr, hproper⟩ := h.row hN hi
      have hpos : decide (0 < N.columns) = true := decide_eq_true (Nat.pos_of_ne_zero hzero)
      refine .inr ⟨N, r, by rw [Option.filter_some, if_pos hpos], hr, hproper, ?_⟩
      have hsource : i < (f.found R).source.dimension e := hi
      rw [FiniteMap.linear, combine_single hsource, one_smul, h.rowAt_eq hN hi, Matrix.rowCoords]
      rw [Matrix.row?] at hr
      rw [hr, Option.getD_some]

/-- The equation of one basis element of the algebra for one of the source. -/
theorem exists_actionRow (hS : f.source.StoredBelow A.prime A.computed) (hT : f.target.StoredBelow A.prime A.computed)
    (h : f.Fits A.prime R t) (hlt : d - e < A.computed) {i k : ℕ} (hi : i < f.source.dimension e) (hk : k < Milnor.dim A.prime (d - e)) :
    ∃ r, (do
      let left ← (f.source.toGraded A).actOnBasis A.prime 1 ⟨d - e, k⟩ e i
      let right ← match (R.get? (e - f.shift)).filter (0 < ·.columns) with
        | none => .ok (Vec.zero (f.target.dimension (d - f.shift)))
        | some lower => do
          let image ← Result.ofOption (lower.row? i)
          (f.target.toGraded A).act A.prime 1 ⟨d - e, k⟩ (e - f.shift) image
      .ok ((left.padTo (f.source.dimension d)).append right) : Result Vec) = .ok r ∧
      Proper A.prime (f.source.dimension d + f.target.dimension (d - f.shift)) r ∧
      f.equation A.prime R ⟨d - e, k⟩ e i = r.coords A.prime := by
  have ha := Representation.isBasis_of_lt hk
  have hsum : e + (d - e) = d := by omega
  have hsum' : e - f.shift + (d - e) = d - f.shift := by omega
  obtain ⟨u, hu, hup, huc⟩ := f.source.actOnBasis_eq hS ha hlt hi 1
  simp only [hsum] at hup
  have hpad := hup.padTo (le_refl (f.source.dimension d))
  have hequation : ∀ w, w.coords A.prime = (f.target.rep A.prime).act ⟨d - e, k⟩ (e - f.shift)
      ((f.found R).linear A.prime e (Pi.single i 1)) →
      f.equation A.prime R ⟨d - e, k⟩ e i = ((u.padTo (f.source.dimension d)).append w).coords A.prime := by
    intro w hw
    rw [coords_append_eq_glue hpad, coords_padTo, equation, huc, Nat.cast_one, one_smul, hw]
    simp only [hsum]
  change ∃ r, (f.source.actOnBasis A A.prime 1 ⟨d - e, k⟩ e i >>= fun left => _) = Except.ok r ∧ _
  rw [hu, Result.ok_bind]
  rcases lower_row h hi with ⟨hlower, hzero⟩ | ⟨N, image, hlower, himage, hproper, hlinear⟩
  · rw [hlower]
    exact ⟨_, rfl, hpad.append Proper.zero, hequation _ (by rw [hzero, map_zero, coords_zero])⟩
  · obtain ⟨w, hw, hwp, hwc⟩ := (FiniteModule.shows hT _).act_eq 1 ⟨d - e, k⟩ (e - f.shift) image ha hlt (le_refl _) hproper
    change Proper A.prime (f.target.dimension (e - f.shift + (d - e))) w at hwp
    rw [hsum'] at hwp
    rw [hlower]
    simp only
    rw [himage, Result.ofOption_some, Result.ok_bind, hw, Result.ok_bind]
    exact ⟨_, rfl, hpad.append hwp, hequation w (by rw [hwc, Nat.cast_one, one_smul, hlinear])⟩

/-- The rows that come from one degree below are its equations, apart from those that say nothing. -/
theorem actionRows_eq (hS : f.source.StoredBelow A.prime A.computed) (hT : f.target.StoredBelow A.prime A.computed)
    (h : f.Fits A.prime R t) (hlt : d - e < A.computed) :
    ∃ rows, f.actionRows A (f.source.toGraded A) (f.target.toGraded A) R d e = .ok rows ∧
      (∀ r ∈ rows, Proper A.prime (f.source.dimension d + f.target.dimension (d - f.shift)) r ∧
        ∃ a i, a.IsBasis A.prime ∧ e + a.degree = d ∧ i < f.source.dimension e ∧ f.equation A.prime R a e i = r.coords A.prime) ∧
      ∀ a i, a.IsBasis A.prime → e + a.degree = d → i < f.source.dimension e →
        f.equation A.prime R a e i = 0 ∨ ∃ r ∈ rows, r.coords A.prime = f.equation A.prime R a e i := by
  have hrow := fun i k (hi : i < f.source.dimension e) (hk : k < Milnor.dim A.prime (d - e)) => exists_actionRow hS hT h hlt hi hk
  have hinhabited : Nonempty Vec := ⟨Vec.zero 0⟩
  choose! g hg hproper hequation using hrow
  have hrows : f.actionRows A (f.source.toGraded A) (f.target.toGraded A) R d e =
      .ok ((((List.range (f.source.dimension e)).map fun i =>
        (List.range (Milnor.dim A.prime (d - e))).map (g i)).flatten).filter (!·.isZero)) := by
    rw [actionRows, Algebra.dimension_of_lt hlt, Result.ok_bind]
    refine Result.bind_eq_ok.mpr ⟨_, Result.mapM_eq_ok (g := fun i => (List.range (Milnor.dim A.prime (d - e))).map (g i)) ?_, rfl⟩
    exact fun i hi => Result.mapM_eq_ok fun k hk => hg i k (List.mem_range.mp hi) (List.mem_range.mp hk)
  refine ⟨_, hrows, fun r hr => ?_, fun a i ha hd hi => ?_⟩
  · obtain ⟨l, hl, hr⟩ := List.mem_flatten.mp (List.mem_of_mem_filter hr)
    obtain ⟨i, hi, rfl⟩ := List.mem_map.mp hl
    obtain ⟨k, hk, rfl⟩ := List.mem_map.mp hr
    have hi := List.mem_range.mp hi
    have hk := List.mem_range.mp hk
    exact ⟨hproper i k hi hk, ⟨d - e, k⟩, i, Representation.isBasis_of_lt hk, add_sub_cancel e d, hi, hequation i k hi hk⟩
  · obtain ⟨degree, k⟩ := a
    obtain rfl : degree = d - e := by simp only at hd; omega
    have hk : k < Milnor.dim A.prime (d - e) := ha.index_lt
    rw [hequation i k hi hk]
    by_cases hzero : (g i k).isZero = true
    · exact .inl ((isZero_iff (hproper i k hi hk).reduced).mp hzero)
    · refine .inr ⟨g i k, List.mem_filter.mpr ⟨List.mem_flatten.mpr ⟨_, List.mem_map.mpr ⟨i, List.mem_range.mpr hi, rfl⟩,
        List.mem_map.mpr ⟨k, List.mem_range.mpr hk, rfl⟩⟩, by simpa using hzero⟩, rfl⟩

theorem mem_valueRows {r : Vec} : r ∈ f.valueRows d ↔
    ∃ i v, i < f.source.dimension d ∧ f.value? (d, i) = some v ∧ (Vec.unit (f.source.dimension d) i).append v = r := by
  rw [valueRows, List.mem_filterMap]
  constructor
  · rintro ⟨i, hi, hr⟩
    obtain ⟨x, hx, rfl⟩ := Option.map_eq_some_iff.mp hr
    exact ⟨i, x.2, List.mem_range.mp hi, by rw [value?, hx]; rfl, rfl⟩
  · rintro ⟨i, v, hi, hv, rfl⟩
    obtain ⟨x, hx, rfl⟩ := Option.map_eq_some_iff.mp hv
    exact ⟨i, List.mem_range.mpr hi, by rw [hx]; rfl⟩

/-- The system for the images in degree `t` of the target demands the equations and the given values. -/
theorem system_eq (hS : f.source.StoredBelow A.prime A.computed) (hT : f.target.StoredBelow A.prime A.computed)
    (h : f.Fits A.prime R t) (hvalues : f.ValuesFit A.prime) (hlt : t + f.shift - f.source.minDegree < A.computed) :
    ∃ E, f.system A (f.source.toGraded A) (f.target.toGraded A) R t = .ok E ∧ E.Echelon A.prime ∧
      E.columns = f.source.dimension (t + f.shift) + f.target.dimension t ∧
      E.space A.prime = if f.target.dimension t = 0 then ⊥ else Submodule.span A.prime.Field (f.equations A.prime R (t + f.shift)) := by
  rw [system]
  by_cases hzero : f.target.dimension t = 0
  · rw [if_pos hzero, if_pos hzero]
    exact ⟨_, rfl, Subspace.echelon_empty _, rfl, Subspace.space_empty _⟩
  · rw [if_neg hzero, if_neg hzero]
    have hrows : ∀ e ∈ GradedModule.degreesBetween f.source.minDegree (t + f.shift - 1), ∃ rows,
        f.actionRows A (f.source.toGraded A) (f.target.toGraded A) R (t + f.shift) e = .ok rows ∧ _ := fun e he =>
      f.actionRows_eq hS hT h (by have := (GradedModule.mem_degreesBetween.mp he).1; omega)
    choose! g hg hproper hequation using hrows
    rw [Result.mapM_eq_ok hg, Result.ok_bind]
    rw [add_sub_cancel_right] at hproper
    have hall : ∀ r ∈ ((GradedModule.degreesBetween f.source.minDegree (t + f.shift - 1)).map g).flatten ++ f.valueRows (t + f.shift),
        Proper A.prime (f.source.dimension (t + f.shift) + f.target.dimension t) r := by
      intro r hr
      rcases List.mem_append.mp hr with hr | hr
      · obtain ⟨l, hl, hr⟩ := List.mem_flatten.mp hr
        obtain ⟨e, he, rfl⟩ := List.mem_map.mp hl
        exact (hproper e he r hr).1
      · obtain ⟨i, v, hi, hv, rfl⟩ := mem_valueRows.mp hr
        have hfit := hvalues hv
        simp only [add_sub_cancel_right] at hfit
        exact (proper_unit _ i).append hfit
    refine ⟨_, rfl, Subspace.echelon_span hall, Subspace.columns_span _ _ _, ?_⟩
    change Subspace.space A.prime (Subspace.span A.prime _ _) = _
    rw [Subspace.space_span hall]
    refine le_antisymm (Submodule.span_le.mpr ?_) (Submodule.span_le.mpr ?_)
    · rintro _ ⟨r, hr, rfl⟩
      refine Submodule.subset_span ?_
      rcases List.mem_append.mp hr with hr | hr
      · obtain ⟨l, hl, hr⟩ := List.mem_flatten.mp hr
        obtain ⟨e, he, rfl⟩ := List.mem_map.mp hl
        obtain ⟨a, i, ha, hdegree, hi, heq⟩ := (hproper e he r hr).2
        have hbelow := (GradedModule.mem_degreesBetween.mp he).2
        exact .inl ⟨a, e, i, ha, by omega, hdegree, hi, heq⟩
      · obtain ⟨i, v, hi, hv, rfl⟩ := mem_valueRows.mp hr
        exact .inr ⟨i, v, hi, hv, by rw [coords_append_eq_glue (proper_unit _ i), coords_unit hi]⟩
    · rintro _ (⟨a, e, i, ha, hbelow, hdegree, hi, rfl⟩ | ⟨i, v, hi, hv, rfl⟩)
      · have he : e ∈ GradedModule.degreesBetween f.source.minDegree (t + f.shift - 1) :=
          GradedModule.mem_degreesBetween.mpr ⟨(FiniteModule.degrees_of_lt_dimension hi).1, by omega⟩
        rcases hequation e he a i ha hdegree hi with hzero | ⟨r, hr, heq⟩
        · rw [hzero]
          exact Submodule.zero_mem _
        · exact Submodule.subset_span ⟨r, List.mem_append_left _ (List.mem_flatten.mpr ⟨_, List.mem_map.mpr ⟨e, he, rfl⟩, hr⟩), heq⟩
      · refine Submodule.subset_span ⟨_, List.mem_append_right _ (mem_valueRows.mpr ⟨i, v, hi, hv, rfl⟩), ?_⟩
        rw [coords_append_eq_glue (proper_unit _ i), coords_unit hi]

end Equations

end PartialMap
end Steenrod
