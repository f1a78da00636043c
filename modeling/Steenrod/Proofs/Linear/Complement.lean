import Steenrod.Proofs.Linear.Echelon
/-!
Dimensions, and complements found by comparing leading columns. Main statement: of an echelon basis of a space
the rows that lead in a column where no element of a smaller space has its first entry are a basis of a
complement of the smaller space.
-/
namespace Steenrod

/-- The positions where elements of a space of coordinates have their first entry. -/
def firsts {p : Prime} (V : Submodule p.Field (ℕ → p.Field)) : Set ℕ :=
  {c | ∃ f ∈ V, f c ≠ 0 ∧ ∀ j < c, f j = 0}

theorem exists_first {p : Prime} {f : ℕ → p.Field} (h : f ≠ 0) : ∃ c, f c ≠ 0 ∧ ∀ j < c, f j = 0 := by
  classical
  have hex : ∃ c, f c ≠ 0 := Function.ne_iff.mp h
  exact ⟨Nat.find hex, Nat.find_spec hex, fun j hj => not_not.mp (Nat.find_min hex hj)⟩

theorem firsts_mono {p : Prime} {V W : Submodule p.Field (ℕ → p.Field)} (h : V ≤ W) : firsts V ⊆ firsts W :=
  fun _ ⟨f, hf, hc⟩ => ⟨f, h hf, hc⟩

instance finite_space (p : Prime) (n : ℕ) : Module.Finite p.Field (p.space n) := by
  let e : p.space n →ₗ[p.Field] (Fin n → p.Field) :=
    { toFun := fun f i => f.1 i, map_add' := fun _ _ => rfl, map_smul' := fun _ _ => rfl }
  refine Module.Finite.of_injective e fun f g hfg => Subtype.ext (funext fun i => ?_)
  by_cases hi : i < n
  · exact congrFun hfg ⟨i, hi⟩
  · rw [f.2 i (by omega), g.2 i (by omega)]

theorem finite_of_le {p : Prime} {n : ℕ} {V : Submodule p.Field (ℕ → p.Field)} (h : V ≤ p.space n) :
    Module.Finite p.Field V :=
  Module.Finite.of_injective (Submodule.inclusion h) (Submodule.inclusion_injective h)

namespace Subspace

open Vec

variable {p : Prime} {S : Subspace} {n : ℕ}

/-- The coordinates of the `i`-th row. -/
def rowAt (p : Prime) (S : Subspace) (i : Fin S.leads.length) : ℕ → p.Field := (S.leads.get i).2.coords p

theorem range_rowAt (S : Subspace) : Set.range (S.rowAt p) = {f | ∃ x ∈ S.leads, x.2.coords p = f} := by
  ext f
  constructor
  · rintro ⟨i, rfl⟩
    exact ⟨_, List.get_mem _ i, rfl⟩
  · rintro ⟨x, hx, rfl⟩
    obtain ⟨i, rfl⟩ := List.mem_iff_get.mp hx
    exact ⟨i, rfl⟩

namespace Echelon

theorem rowAt_lead (h : Echelon p S) (i j : Fin S.leads.length) :
    S.rowAt p j (S.leads.get i).1 = if j = i then 1 else 0 := by
  split
  · next he =>
    subst he
    exact h.leading _ (List.get_mem _ j)
  · next hne =>
    refine h.cleared _ (List.get_mem _ i) _ (List.get_mem _ j) ?_
    have hsorted := List.pairwise_iff_get.mp h.sorted
    rcases lt_or_gt_of_ne hne with hlt | hgt
    · exact (Nat.ne_of_lt (hsorted j i hlt)).symm
    · exact Nat.ne_of_lt (hsorted i j hgt)

/-- A combination of rows has its coefficients in the leading columns. -/
theorem sum_rowAt_lead (h : Echelon p S) (a : Fin S.leads.length → p.Field) (i : Fin S.leads.length) :
    (∑ j, a j • S.rowAt p j) (S.leads.get i).1 = a i := by
  rw [Finset.sum_apply]
  simp only [Pi.smul_apply, h.rowAt_lead, smul_eq_mul]
  simp

theorem linearIndependent (h : Echelon p S) : LinearIndependent p.Field (S.rowAt p) := by
  refine Fintype.linearIndependent_iff.mpr fun a ha i => ?_
  rw [← h.sum_rowAt_lead a i, ha]
  rfl

theorem finrank_space (h : Echelon p S) : Module.finrank p.Field (S.space p) = S.dimension := by
  rw [space, ← range_rowAt, finrank_span_eq_card h.linearIndependent, Fintype.card_fin]
  rfl

theorem mem_firsts_iff (h : Echelon p S) {c : ℕ} : c ∈ firsts (S.space p) ↔ ∃ x ∈ S.leads, x.1 = c :=
  h.exists_lead_iff.symm

/-- Some of the rows are in reduced echelon form as well. -/
theorem filter (h : Echelon p S) (q : ℕ × Vec → Bool) :
    Echelon p { S with leads := S.leads.filter q } where
  proper x hx := h.proper x (List.mem_of_mem_filter hx)
  lt_columns x hx := h.lt_columns x (List.mem_of_mem_filter hx)
  leading x hx := h.leading x (List.mem_of_mem_filter hx)
  before x hx := h.before x (List.mem_of_mem_filter hx)
  sorted := h.sorted.filter q
  cleared x hx y hy := h.cleared x (List.mem_of_mem_filter hx) y (List.mem_of_mem_filter hy)

theorem nodup_columns (h : Echelon p S) : (S.leads.map (·.1)).Nodup :=
  List.pairwise_map.mpr (h.sorted.imp fun hlt => Nat.ne_of_lt hlt)

end Echelon

/-- Every space of coordinates has an echelon basis. -/
theorem exists_echelon {V : Submodule p.Field (ℕ → p.Field)} (h : V ≤ p.space n) :
    ∃ S, Echelon p S ∧ S.columns = n ∧ S.space p = V := by
  have hfin := finite_of_le h
  obtain ⟨s, hs⟩ := (Submodule.fg_top V).mp (Module.Finite.fg_top) |> fun h => (h : V.FG)
  let rows := s.toList.map (ofCoords p n)
  have hproper : ∀ v ∈ rows, Proper p n v := by
    intro v hv
    obtain ⟨f, _, rfl⟩ := List.mem_map.mp hv
    exact proper_ofCoords f
  refine ⟨span p n rows, echelon_span hproper, columns_span p n rows, ?_⟩
  rw [space_span hproper, ← hs]
  congr 1
  ext f
  have hcoords : ∀ g ∈ s, (ofCoords p n g).coords p = g := fun g hg =>
    coords_ofCoords (h (hs ▸ Submodule.subset_span hg))
  constructor
  · rintro ⟨v, hv, rfl⟩
    obtain ⟨g, hg, rfl⟩ := List.mem_map.mp hv
    have hgs := Finset.mem_toList.mp hg
    rw [hcoords g hgs]
    exact hgs
  · intro hf
    exact ⟨_, List.mem_map.mpr ⟨f, Finset.mem_toList.mpr hf, rfl⟩, hcoords f hf⟩

open Classical in
/-- The rows that lead where a smaller space has no first entry. -/
noncomputable def beyond (S : Subspace) (I : Set ℕ) : Subspace :=
  { S with leads := S.leads.filter fun x => x.1 ∉ I }

namespace Echelon

variable {I : Submodule p.Field (ℕ → p.Field)}

theorem beyond (h : Echelon p S) (I : Set ℕ) : Echelon p (S.beyond I) := h.filter _

theorem mem_firsts_beyond (h : Echelon p S) {I : Set ℕ} {c : ℕ} :
    c ∈ firsts ((S.beyond I).space p) ↔ c ∈ firsts (S.space p) ∧ c ∉ I := by
  classical
  rw [(h.beyond I).mem_firsts_iff, h.mem_firsts_iff]
  constructor
  · rintro ⟨x, hx, rfl⟩
    obtain ⟨hx, hq⟩ := List.mem_filter.mp hx
    exact ⟨⟨x, hx, rfl⟩, of_decide_eq_true hq⟩
  · rintro ⟨⟨x, hx, rfl⟩, hI⟩
    exact ⟨x, List.mem_filter.mpr ⟨hx, decide_eq_true hI⟩, rfl⟩

theorem disjoint_beyond (h : Echelon p S) : Disjoint I ((S.beyond (firsts I)).space p) := by
  refine Submodule.disjoint_def.mpr fun f hI hf => ?_
  by_contra hne
  obtain ⟨c, hc⟩ := exists_first hne
  exact (h.mem_firsts_beyond.mp ⟨f, hf, hc⟩).2 ⟨f, hI, hc⟩

theorem finrank_add_dimension_beyond (h : Echelon p S) (hI : I ≤ S.space p) :
    Module.finrank p.Field I + (S.beyond (firsts I)).dimension = S.dimension := by
  classical
  obtain ⟨E, hE, _, rfl⟩ := exists_echelon (hI.trans h.space_le)
  rw [hE.finrank_space]
  have hperm : (E.leads.map (·.1)).Perm
      ((S.leads.filter fun x => x.1 ∈ firsts (E.space p)).map (·.1)) := by
    refine (List.perm_ext_iff_of_nodup hE.nodup_columns (h.filter _).nodup_columns).mpr fun c => ?_
    simp only [List.mem_map, List.mem_filter, decide_eq_true_eq, ← hE.mem_firsts_iff]
    constructor
    · intro hc
      obtain ⟨x, hx, rfl⟩ := h.mem_firsts_iff.mp (firsts_mono hI hc)
      exact ⟨x, ⟨hx, hc⟩, rfl⟩
    · rintro ⟨x, ⟨_, hc⟩, rfl⟩
      exact hc
  have hlen := hperm.length_eq
  rw [List.length_map, List.length_map] at hlen
  have hsplit := List.length_eq_length_filter_add (l := S.leads) fun x => decide (x.1 ∈ firsts (E.space p))
  unfold dimension Subspace.beyond
  rw [hlen, hsplit]
  congr 2
  refine List.filter_congr fun x _ => ?_
  simp

/-- A space is the sum of a smaller one and the rows beyond it. -/
theorem sup_beyond (h : Echelon p S) (hI : I ≤ S.space p) :
    I ⊔ (S.beyond (firsts I)).space p = S.space p := by
  have hle : (S.beyond (firsts I)).space p ≤ S.space p := by
    refine Submodule.span_mono ?_
    rintro f ⟨x, hx, rfl⟩
    exact ⟨x, List.mem_of_mem_filter hx, rfl⟩
  have hfinS := finite_of_le h.space_le
  have hfinI := finite_of_le (hI.trans h.space_le)
  have hfinB := finite_of_le (hle.trans h.space_le)
  refine Submodule.eq_of_le_of_finrank_eq (sup_le hI hle) ?_
  have hsum := Submodule.finrank_sup_add_finrank_inf_eq I ((S.beyond (firsts I)).space p)
  rw [h.disjoint_beyond.eq_bot, finrank_bot, add_zero, (h.beyond _).finrank_space,
    h.finrank_add_dimension_beyond hI] at hsum
  rw [hsum, h.finrank_space]

end Echelon
end Subspace

theorem finrank_space (p : Prime) (n : ℕ) : Module.finrank p.Field (p.space n) = n := by
  rw [← Subspace.space_entire, (Subspace.echelon_entire n).finrank_space]
  simp [Subspace.dimension, Subspace.entire]

end Steenrod
