import Steenrod.Proofs.Linear.Combination
import Steenrod.Linear.Subspace
/-!
What the rows of a subspace span. Main statements: inserting vectors keeps the reduced echelon form and adds the
vector to the span; a vector lies in the span exactly when it reduces to zero; the leading columns are the
positions of first entries of elements of the span, and their number is its dimension.
-/
namespace Steenrod
namespace Subspace

open Vec

variable {p : Prime} {S : Subspace} {n : ℕ}

/-- The span of the rows. -/
def space (p : Prime) (S : Subspace) : Submodule p.Field (ℕ → p.Field) :=
  Submodule.span p.Field {f | ∃ x ∈ S.leads, x.2.coords p = f}

/-- The rows are in reduced echelon form. -/
structure Echelon (p : Prime) (S : Subspace) : Prop where
  proper : ∀ x ∈ S.leads, Proper p S.columns x.2
  lt_columns : ∀ x ∈ S.leads, x.1 < S.columns
  leading : ∀ x ∈ S.leads, x.2.coords p x.1 = 1
  before : ∀ x ∈ S.leads, ∀ j < x.1, x.2.coords p j = 0
  sorted : S.leads.Pairwise fun x y => x.1 < y.1
  cleared : ∀ x ∈ S.leads, ∀ y ∈ S.leads, x.1 ≠ y.1 → y.2.coords p x.1 = 0

/-- The combination of rows that has the given values in their leading columns. -/
def expand (p : Prime) (leads : List (ℕ × Vec)) : (ℕ → p.Field) →ₗ[p.Field] (ℕ → p.Field) where
  toFun f := (leads.map fun x => f x.1 • x.2.coords p).sum
  map_add' f g := by
    induction leads with
    | nil => simp
    | cons x leads ih =>
      simp only [List.map_cons, List.sum_cons, Pi.add_apply, add_smul] at ih ⊢
      rw [ih]
      abel
  map_smul' c f := by
    induction leads with
    | nil => simp
    | cons x leads ih =>
      simp only [List.map_cons, List.sum_cons, Pi.smul_apply, smul_eq_mul, RingHom.id_apply, smul_add,
        mul_smul] at ih ⊢
      rw [ih]

@[simp] theorem expand_nil (f : ℕ → p.Field) : expand p [] f = 0 := rfl

@[simp] theorem expand_cons (x : ℕ × Vec) (leads : List (ℕ × Vec)) (f : ℕ → p.Field) :
    expand p (x :: leads) f = f x.1 • x.2.coords p + expand p leads f := rfl

theorem expand_mem (leads : List (ℕ × Vec)) (f : ℕ → p.Field) :
    expand p leads f ∈ Submodule.span p.Field {f | ∃ x ∈ leads, x.2.coords p = f} := by
  have hsub : ∀ l : List (ℕ × Vec), (∀ x ∈ l, x ∈ leads) →
      expand p l f ∈ Submodule.span p.Field {f | ∃ x ∈ leads, x.2.coords p = f} := by
    intro l
    induction l with
    | nil => intro _; exact Submodule.zero_mem _
    | cons x l ih =>
      intro hl
      rw [expand_cons]
      refine Submodule.add_mem _ (Submodule.smul_mem _ _ (Submodule.subset_span ?_)) ?_
      · exact ⟨x, hl x (by simp), rfl⟩
      · exact ih fun y hy => hl y (by simp [hy])
  exact hsub leads fun _ hx => hx

/-- At a column where every row vanishes, so does a combination. -/
theorem expand_apply_eq_zero {leads : List (ℕ × Vec)} {j : ℕ}
    (h : ∀ x ∈ leads, x.2.coords p j = 0) (f : ℕ → p.Field) : expand p leads f j = 0 := by
  induction leads with
  | nil => rfl
  | cons x leads ih =>
    rw [expand_cons, Pi.add_apply, Pi.smul_apply, h x (by simp), smul_zero, zero_add]
    exact ih fun y hy => h y (by simp [hy])

theorem expand_eq_zero {leads : List (ℕ × Vec)} {f : ℕ → p.Field} (h : ∀ x ∈ leads, f x.1 = 0) :
    expand p leads f = 0 := by
  induction leads with
  | nil => rfl
  | cons x leads ih =>
    rw [expand_cons, h x (by simp), zero_smul, zero_add]
    exact ih fun y hy => h y (by simp [hy])

/-- Rows that lead with 1 and vanish in each other's leading columns. -/
structure Triangular (p : Prime) (leads : List (ℕ × Vec)) : Prop where
  leading : ∀ x ∈ leads, x.2.coords p x.1 = 1
  distinct : leads.Pairwise fun x y => x.1 ≠ y.1
  cleared : ∀ x ∈ leads, ∀ y ∈ leads, x.1 ≠ y.1 → y.2.coords p x.1 = 0

theorem Triangular.tail {x : ℕ × Vec} {leads : List (ℕ × Vec)} (h : Triangular p (x :: leads)) :
    Triangular p leads where
  leading y hy := h.leading y (by simp [hy])
  distinct := (List.pairwise_cons.mp h.distinct).2
  cleared y hy z hz := h.cleared y (by simp [hy]) z (by simp [hz])

theorem Triangular.expand_apply {leads : List (ℕ × Vec)} (h : Triangular p leads) (f : ℕ → p.Field)
    {y : ℕ × Vec} (hy : y ∈ leads) : expand p leads f y.1 = f y.1 := by
  induction leads with
  | nil => simp at hy
  | cons x leads ih =>
    have hne := (List.pairwise_cons.mp h.distinct).1
    rw [expand_cons, Pi.add_apply, Pi.smul_apply, smul_eq_mul]
    rcases List.mem_cons.mp hy with rfl | hmem
    · have hzero : expand p leads f y.1 = 0 := by
        refine expand_apply_eq_zero (fun z hz => ?_) f
        exact h.cleared y (by simp) z (by simp [hz]) (hne z hz)
      rw [h.leading y (by simp), mul_one, hzero, add_zero]
    · rw [h.cleared y (by simp [hmem]) x (by simp) (hne y hmem).symm, mul_zero, zero_add]
      exact ih h.tail hmem

theorem Triangular.expand_row {leads : List (ℕ × Vec)} (h : Triangular p leads) {y : ℕ × Vec}
    (hy : y ∈ leads) : expand p leads (y.2.coords p) = y.2.coords p := by
  induction leads with
  | nil => simp at hy
  | cons x leads ih =>
    have hne := (List.pairwise_cons.mp h.distinct).1
    rw [expand_cons]
    rcases List.mem_cons.mp hy with rfl | hmem
    · have hzero : expand p leads (y.2.coords p) = 0 := by
        refine expand_eq_zero fun z hz => ?_
        exact h.cleared z (by simp [hz]) y (by simp) (hne z hz).symm
      rw [hzero, h.leading y (by simp), one_smul, add_zero]
    · rw [h.cleared x (by simp) y (by simp [hmem]) (hne y hmem), zero_smul, zero_add]
      exact ih h.tail hmem

theorem Triangular.mem_span_iff {leads : List (ℕ × Vec)} (h : Triangular p leads) {f : ℕ → p.Field} :
    f ∈ Submodule.span p.Field {f | ∃ x ∈ leads, x.2.coords p = f} ↔ expand p leads f = f := by
  constructor
  · intro hf
    induction hf using Submodule.span_induction with
    | mem f hf =>
      obtain ⟨x, hx, rfl⟩ := hf
      exact h.expand_row hx
    | zero => exact map_zero _
    | add f g _ _ hf hg => rw [map_add, hf, hg]
    | smul c f _ hf => rw [map_smul, hf]
  · intro hf
    exact hf ▸ expand_mem leads f

/-- Clearing the leading columns one after the other subtracts the combination with those values. -/
theorem reduceBy_eq {leads : List (ℕ × Vec)} (h : Triangular p leads) {v : Vec} (hv : Proper p n v)
    (hl : ∀ x ∈ leads, Proper p n x.2) :
    Proper p n (reduceBy p leads v) ∧
      (reduceBy p leads v).coords p = v.coords p - expand p leads (v.coords p) := by
  induction leads generalizing v with
  | nil => exact ⟨hv, by simp [reduceBy]⟩
  | cons x leads ih =>
    have hne := (List.pairwise_cons.mp h.distinct).1
    have hstep : (v.add p (p.negate (v.entry x.1)) x.2).coords p =
        v.coords p - v.coords p x.1 • x.2.coords p := by
      rw [hv.coords_add _ (hl x (by simp)), Prime.cast_negate, neg_smul, sub_eq_add_neg]
      rfl
    obtain ⟨hp, hc⟩ := ih h.tail (hv.add _ x.2) fun y hy => hl y (by simp [hy])
    refine ⟨hp, hc.trans ?_⟩
    have hsame : expand p leads (v.coords p - v.coords p x.1 • x.2.coords p) = expand p leads (v.coords p) := by
      have hzero : expand p leads (x.2.coords p) = 0 := by
        refine expand_eq_zero fun z hz => ?_
        exact h.cleared z (by simp [hz]) x (by simp) (hne z hz).symm
      rw [map_sub, map_smul, hzero, smul_zero, sub_zero]
    rw [hstep, hsame, expand_cons]
    abel

namespace Echelon

theorem triangular (h : Echelon p S) : Triangular p S.leads where
  leading := h.leading
  distinct := h.sorted.imp fun hlt => Nat.ne_of_lt hlt
  cleared := h.cleared

theorem mem_space_iff (h : Echelon p S) {f : ℕ → p.Field} :
    f ∈ S.space p ↔ expand p S.leads f = f :=
  h.triangular.mem_span_iff

theorem proper_reduce (h : Echelon p S) {v : Vec} (hv : Proper p S.columns v) :
    Proper p S.columns (S.reduce p v) :=
  (reduceBy_eq h.triangular hv h.proper).1

theorem coords_reduce (h : Echelon p S) {v : Vec} (hv : Proper p S.columns v) :
    (S.reduce p v).coords p = v.coords p - expand p S.leads (v.coords p) :=
  (reduceBy_eq h.triangular hv h.proper).2

/-- A vector lies in the span exactly when it reduces to zero. -/
theorem isZero_reduce_iff (h : Echelon p S) {v : Vec} (hv : Proper p S.columns v) :
    (S.reduce p v).isZero = true ↔ v.coords p ∈ S.space p := by
  rw [isZero_iff (h.proper_reduce hv).reduced, h.coords_reduce hv, h.mem_space_iff, sub_eq_zero]
  exact eq_comm

/-- The reduced vector is zero in every leading column. -/
theorem coords_reduce_lead (h : Echelon p S) {v : Vec} (hv : Proper p S.columns v) {x : ℕ × Vec}
    (hx : x ∈ S.leads) : (S.reduce p v).coords p x.1 = 0 := by
  rw [h.coords_reduce hv, Pi.sub_apply, h.triangular.expand_apply _ hx, sub_self]

theorem space_le (h : Echelon p S) : S.space p ≤ p.space S.columns := by
  refine Submodule.span_le.mpr ?_
  rintro f ⟨x, hx, rfl⟩
  exact (h.proper x hx).coords_mem

/-- The leading columns are where elements of the span have their first entry. -/
theorem exists_lead_iff (h : Echelon p S) {c : ℕ} :
    (∃ x ∈ S.leads, x.1 = c) ↔ ∃ f ∈ S.space p, f c ≠ 0 ∧ ∀ j < c, f j = 0 := by
  constructor
  · rintro ⟨x, hx, rfl⟩
    refine ⟨x.2.coords p, Submodule.subset_span ⟨x, hx, rfl⟩, ?_, h.before x hx⟩
    rw [h.leading x hx]
    exact one_ne_zero
  · rintro ⟨f, hf, hc, hbefore⟩
    by_contra hnone
    -- Every row contributes 0 at `c`: rows that lead before `c` have coefficient 0, the others start later.
    have hzero : ∀ l : List (ℕ × Vec), (∀ x ∈ l, x ∈ S.leads) → expand p l f c = 0 := by
      intro l
      induction l with
      | nil => intro _; rfl
      | cons x l ih =>
        intro hl
        have hx := hl x (by simp)
        have hne : x.1 ≠ c := fun he => hnone ⟨x, hx, he⟩
        rw [expand_cons, Pi.add_apply, Pi.smul_apply, ih fun y hy => hl y (by simp [hy]), add_zero]
        rcases Nat.lt_or_gt_of_ne hne with hlt | hgt
        · rw [hbefore _ hlt, zero_smul]
        · rw [h.before x hx c hgt, smul_zero]
    have hself := h.mem_space_iff.mp hf
    exact hc (by rw [← hself]; exact hzero S.leads fun _ hx => hx)

end Echelon

theorem mem_place {c : ℕ} {row : Vec} {l : List (ℕ × Vec)} {x : ℕ × Vec} :
    x ∈ place c row l ↔ x = (c, row) ∨ x ∈ l := by
  induction l with
  | nil => simp [place]
  | cons y l ih =>
    unfold place
    split
    · simp
    · simp only [List.mem_cons, ih]
      tauto

theorem sorted_place {c : ℕ} {row : Vec} {l : List (ℕ × Vec)} (hl : l.Pairwise fun x y => x.1 < y.1)
    (hc : ∀ x ∈ l, x.1 ≠ c) : (place c row l).Pairwise fun x y => x.1 < y.1 := by
  induction l with
  | nil => simp [place]
  | cons y l ih =>
    obtain ⟨hy, hrest⟩ := List.pairwise_cons.mp hl
    have hyc := hc y (by simp)
    unfold place
    split
    · next hlt =>
      refine List.pairwise_cons.mpr ⟨fun z hz => ?_, hl⟩
      rcases List.mem_cons.mp hz with rfl | hz
      · exact hlt
      · exact Nat.lt_trans hlt (hy z hz)
    · next hge =>
      refine List.pairwise_cons.mpr ⟨fun z hz => ?_, ih hrest fun x hx => hc x (by simp [hx])⟩
      rcases mem_place.mp hz with rfl | hz
      · exact Nat.lt_of_le_of_ne (Nat.le_of_not_lt hge) hyc
      · exact hy z hz

theorem echelon_empty (n : ℕ) : Echelon p (empty n) := by
  constructor <;> simp [empty]

@[simp] theorem space_empty (n : ℕ) : (empty n).space p = ⊥ := by
  simp [space, empty]

theorem echelon_entire (n : ℕ) : Echelon p (entire n) := by
  have hmem : ∀ x : ℕ × Vec, x ∈ (entire n).leads → x.1 < n ∧ x.2 = Vec.unit n x.1 := by
    intro x hx
    obtain ⟨i, hi, rfl⟩ := List.mem_map.mp hx
    exact ⟨List.mem_range.mp hi, rfl⟩
  refine ⟨fun x hx => ?_, fun x hx => (hmem x hx).1, fun x hx => ?_, fun x hx j hj => ?_, ?_,
    fun x hx y hy hne => ?_⟩
  · rw [(hmem x hx).2]
    exact proper_unit n x.1
  · rw [(hmem x hx).2, coords_unit (hmem x hx).1, Pi.single_eq_same]
  · rw [(hmem x hx).2, coords_unit (hmem x hx).1, Pi.single_eq_of_ne (Nat.ne_of_lt hj)]
  · exact List.pairwise_map.mpr List.pairwise_lt_range
  · rw [(hmem y hy).2, coords_unit (hmem y hy).1, Pi.single_eq_of_ne hne]

theorem space_entire (n : ℕ) : (entire n).space p = p.space n := by
  refine le_antisymm (echelon_entire n).space_le fun f hf => ?_
  have hsum : f = ∑ i ∈ Finset.range n, f i • (Vec.unit n i).coords p := by
    funext j
    rw [Finset.sum_apply]
    by_cases hj : j < n
    · rw [Finset.sum_eq_single_of_mem j (Finset.mem_range.mpr hj)]
      · simp [coords_unit hj]
      · intro i hi hij
        simp [coords_unit (Finset.mem_range.mp hi), Ne.symm hij]
    · rw [hf j (by omega), Finset.sum_eq_zero]
      intro i hi
      have hij : j ≠ i := by
        have := Finset.mem_range.mp hi
        omega
      simp [coords_unit (Finset.mem_range.mp hi), hij]
  rw [hsum]
  refine Submodule.sum_mem _ fun i hi => Submodule.smul_mem _ _ (Submodule.subset_span ?_)
  exact ⟨(i, Vec.unit n i), List.mem_map.mpr ⟨i, List.mem_range.mpr (Finset.mem_range.mp hi), rfl⟩, rfl⟩

/-- The rows after inserting a new one, `u`, that leads in column `c`. -/
def clearWith (p : Prime) (c : ℕ) (u : Vec) (leads : List (ℕ × Vec)) : List (ℕ × Vec) :=
  leads.map fun x => (x.1, x.2.add p (p.negate (x.2.entry c)) u)

theorem insert_eq (S : Subspace) (v : Vec) :
    S.insert p v = match (S.reduce p v).firstNonzero? with
      | none => S
      | some (c, x) =>
        let u := (S.reduce p v).scale p (p.inverse x)
        { S with leads := place c u (clearWith p c u S.leads) } := rfl

/-- A row that may be put beside the rows of a subspace. -/
structure Fresh (p : Prime) (S : Subspace) (c : ℕ) (u : Vec) : Prop where
  proper : Proper p S.columns u
  lt_columns : c < S.columns
  leading : u.coords p c = 1
  before : ∀ j < c, u.coords p j = 0
  cleared : ∀ x ∈ S.leads, u.coords p x.1 = 0

namespace Fresh

variable {c : ℕ} {u : Vec}

theorem ne (h : Fresh p S c u) {x : ℕ × Vec} (hx : x ∈ S.leads) : x.1 ≠ c := by
  intro he
  have hzero := h.cleared x hx
  rw [he, h.leading] at hzero
  exact one_ne_zero hzero

theorem coords_clear (h : Fresh p S c u) (hS : Echelon p S) {x : ℕ × Vec} (hx : x ∈ S.leads) :
    (x.2.add p (p.negate (x.2.entry c)) u).coords p = x.2.coords p - x.2.coords p c • u.coords p := by
  rw [(hS.proper x hx).coords_add _ h.proper, Prime.cast_negate, neg_smul, sub_eq_add_neg]
  rfl

theorem echelon (h : Fresh p S c u) (hS : Echelon p S) :
    Echelon p { S with leads := place c u (clearWith p c u S.leads) } := by
  have hmem : ∀ x, x ∈ place c u (clearWith p c u S.leads) →
      x = (c, u) ∨ ∃ y ∈ S.leads, x = (y.1, y.2.add p (p.negate (y.2.entry c)) u) := by
    intro x hx
    rcases mem_place.mp hx with rfl | hx
    · exact .inl rfl
    · obtain ⟨y, hy, rfl⟩ := List.mem_map.mp hx
      exact .inr ⟨y, hy, rfl⟩
  constructor
  case proper =>
    intro x hx
    rcases hmem x hx with rfl | ⟨y, hy, rfl⟩
    · exact h.proper
    · exact (hS.proper y hy).add _ u
  case lt_columns =>
    intro x hx
    rcases hmem x hx with rfl | ⟨y, hy, rfl⟩
    · exact h.lt_columns
    · exact hS.lt_columns y hy
  case leading =>
    intro x hx
    rcases hmem x hx with rfl | ⟨y, hy, rfl⟩
    · exact h.leading
    · simp only [h.coords_clear hS hy]
      simp [h.cleared y hy, hS.leading y hy]
  case before =>
    intro x hx j hj
    rcases hmem x hx with rfl | ⟨y, hy, rfl⟩
    · exact h.before j hj
    · simp only [h.coords_clear hS hy, Pi.sub_apply, Pi.smul_apply, hS.before y hy j hj, zero_sub,
        neg_eq_zero, smul_eq_mul, mul_eq_zero]
      -- Before the leading column of the row either the row vanishes at `c`, or `u` has not started.
      rcases Nat.lt_or_ge c y.1 with hlt | hge
      · exact .inl (hS.before y hy c hlt)
      · exact .inr (h.before j (Nat.lt_of_lt_of_le hj hge))
  case sorted =>
    refine sorted_place ?_ ?_
    · exact List.pairwise_map.mpr hS.sorted
    · intro x hx
      obtain ⟨y, hy, rfl⟩ := List.mem_map.mp hx
      exact (h.ne hy : y.1 ≠ c)
  case cleared =>
    intro x hx' y hy' hne
    rcases hmem x hx' with rfl | ⟨x, hx, rfl⟩ <;> rcases hmem y hy' with rfl | ⟨y, hy, rfl⟩
    · exact absurd rfl hne
    · simp [h.coords_clear hS hy, h.leading]
    · exact h.cleared x hx
    · simp [h.coords_clear hS hy, h.cleared x hx, hS.cleared x hx y hy hne]

theorem space_eq (h : Fresh p S c u) (hS : Echelon p S) :
    space p { S with leads := place c u (clearWith p c u S.leads) } =
      S.space p ⊔ Submodule.span p.Field {u.coords p} := by
  refine le_antisymm (Submodule.span_le.mpr ?_) (sup_le (Submodule.span_le.mpr ?_) ?_)
  · rintro f ⟨x, hx, rfl⟩
    have hu : u.coords p ∈ S.space p ⊔ Submodule.span p.Field {u.coords p} :=
      Submodule.mem_sup_right (Submodule.mem_span_singleton_self _)
    rcases mem_place.mp hx with rfl | hx
    · exact hu
    · obtain ⟨y, hy, rfl⟩ := List.mem_map.mp hx
      simp only [SetLike.mem_coe, h.coords_clear hS hy]
      refine Submodule.sub_mem _ (Submodule.mem_sup_left (Submodule.subset_span ⟨y, hy, rfl⟩)) ?_
      exact Submodule.smul_mem _ _ hu
  · rintro f ⟨y, hy, rfl⟩
    have hrow : y.2.coords p =
        (y.2.add p (p.negate (y.2.entry c)) u).coords p + y.2.coords p c • u.coords p := by
      rw [h.coords_clear hS hy, sub_add_cancel]
    rw [SetLike.mem_coe, hrow]
    refine Submodule.add_mem _ (Submodule.subset_span ?_) (Submodule.smul_mem _ _ (Submodule.subset_span ?_))
    · exact ⟨_, mem_place.mpr (.inr (List.mem_map.mpr ⟨y, hy, rfl⟩)), rfl⟩
    · exact ⟨(c, u), mem_place.mpr (.inl rfl), rfl⟩
  · refine (Submodule.span_singleton_le_iff_mem _ _).mpr (Submodule.subset_span ?_)
    exact ⟨(c, u), mem_place.mpr (.inl rfl), rfl⟩

end Fresh

namespace Echelon

variable {v : Vec}

/-- What is left of a vector that does not reduce to zero, made to lead with 1. -/
theorem fresh (h : Echelon p S) (hv : Proper p S.columns v) {c x : ℕ}
    (hx : (S.reduce p v).firstNonzero? = some (c, x)) :
    Fresh p S c ((S.reduce p v).scale p (p.inverse x)) := by
  obtain ⟨hcx, hne, hbefore⟩ := firstNonzero?_eq_some hx
  have hr := h.proper_reduce hv
  have hxne : (x : p.Field) ≠ 0 := by
    rw [← hcx]
    exact fun hz => hne (hcx ▸ (coords_eq_zero_iff hr.reduced).mp hz)
  refine ⟨Proper.scale hr.size_eq _, ?_, ?_, fun j hj => ?_, fun y hy => ?_⟩
  · by_contra hc
    exact hne (hcx ▸ entry_eq_zero_of_size_le (by rw [hr.size_eq]; omega))
  · rw [coords_scale, Pi.smul_apply, coords_apply, hcx, smul_eq_mul, p.cast_inverse x hxne,
      inv_mul_cancel₀ hxne]
  · rw [coords_scale, Pi.smul_apply, coords_apply, hbefore j hj, Nat.cast_zero, smul_zero]
  · rw [coords_scale, Pi.smul_apply, h.coords_reduce_lead hv hy, smul_zero]

theorem insert (h : Echelon p S) (hv : Proper p S.columns v) : Echelon p (S.insert p v) := by
  rw [insert_eq]
  split
  · exact h
  · next c x hx => exact (h.fresh hv hx).echelon h

theorem space_insert (h : Echelon p S) (hv : Proper p S.columns v) :
    (S.insert p v).space p = S.space p ⊔ Submodule.span p.Field {v.coords p} := by
  rw [insert_eq]
  split
  · next hnone =>
    have hmem := (h.isZero_reduce_iff hv).mp (firstNonzero?_eq_none.mp hnone)
    exact (sup_eq_left.mpr ((Submodule.span_singleton_le_iff_mem _ _).mpr hmem)).symm
  · next c x hx =>
    rw [(h.fresh hv hx).space_eq h]
    obtain ⟨hcx, hne, _⟩ := firstNonzero?_eq_some hx
    have hr := h.proper_reduce hv
    have hxne : (x : p.Field) ≠ 0 := by
      rw [← hcx]
      exact fun hz => hne (hcx ▸ (coords_eq_zero_iff hr.reduced).mp hz)
    have hunit : IsUnit (p.inverse x : p.Field) := by
      rw [p.cast_inverse x hxne]
      exact (inv_ne_zero hxne).isUnit
    rw [coords_scale, Submodule.span_singleton_smul_eq hunit]
    -- Modulo the rows there are, a vector and what it reduces to span the same.
    have hexp : expand p S.leads (v.coords p) ∈ S.space p := expand_mem S.leads _
    refine le_antisymm (sup_le le_sup_left ?_) (sup_le le_sup_left ?_) <;>
      refine (Submodule.span_singleton_le_iff_mem _ _).mpr ?_
    · rw [h.coords_reduce hv]
      exact Submodule.sub_mem _ (Submodule.mem_sup_right (Submodule.mem_span_singleton_self _))
        (Submodule.mem_sup_left hexp)
    · have hsplit : v.coords p = (S.reduce p v).coords p + expand p S.leads (v.coords p) := by
        rw [h.coords_reduce hv, sub_add_cancel]
      rw [hsplit]
      exact Submodule.add_mem _ (Submodule.mem_sup_right (Submodule.mem_span_singleton_self _))
        (Submodule.mem_sup_left hexp)

end Echelon

/-- Inserting rows one after the other keeps the echelon form and spans what they span. -/
theorem echelon_foldl (h : Echelon p S) {rows : List Vec} (hrows : ∀ v ∈ rows, Proper p S.columns v) :
    Echelon p (rows.foldl (Subspace.insert p) S) ∧
      (rows.foldl (Subspace.insert p) S).space p =
        S.space p ⊔ Submodule.span p.Field {f | ∃ v ∈ rows, v.coords p = f} := by
  induction rows generalizing S with
  | nil => exact ⟨h, by simp⟩
  | cons v rows ih =>
    have hv := hrows v (by simp)
    obtain ⟨he, hs⟩ := ih (h.insert hv) fun w hw => by
      rw [columns_insert]
      exact hrows w (by simp [hw])
    refine ⟨he, ?_⟩
    have hset : {f | ∃ w ∈ v :: rows, w.coords p = f} = {v.coords p} ∪ {f | ∃ w ∈ rows, w.coords p = f} := by
      ext f
      simp [eq_comm]
    rw [List.foldl_cons, hs, h.space_insert hv, hset, Submodule.span_union, sup_assoc]

theorem echelon_span {rows : List Vec} (h : ∀ v ∈ rows, Proper p n v) : Echelon p (span p n rows) :=
  (echelon_foldl (echelon_empty n) h).1

theorem space_span {rows : List Vec} (h : ∀ v ∈ rows, Proper p n v) :
    (span p n rows).space p = Submodule.span p.Field {f | ∃ v ∈ rows, v.coords p = f} := by
  rw [span, (echelon_foldl (echelon_empty n) h).2, space_empty, bot_sup_eq]

end Subspace
end Steenrod
