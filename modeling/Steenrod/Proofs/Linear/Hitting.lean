import Steenrod.Proofs.Linear.Complement
import Steenrod.Proofs.Linear.Parts
/-!
Extending a linear map by new coordinates that go to what it misses of a space. Main statements: the extended map
hits the space, and only the old coordinates go into the old image.
-/
namespace Steenrod

variable {p : Prime} {n : ℕ} {L : (ℕ → p.Field) →ₗ[p.Field] (ℕ → p.Field)} {S : Subspace}

/-- The coordinates of the rows of a basis. -/
def Subspace.rowCoords (p : Prime) (S : Subspace) : List (ℕ → p.Field) := S.leads.map fun x => x.2.coords p

/-- The map `L` on the first `n` coordinates, where further coordinates go to given vectors. -/
def hitting (n : ℕ) (L : (ℕ → p.Field) →ₗ[p.Field] (ℕ → p.Field)) (ys : List (ℕ → p.Field)) :
    (ℕ → p.Field) →ₗ[p.Field] (ℕ → p.Field) :=
  L.comp (cut p n) + (combine ys.length fun i => ys[i]?.getD 0).comp (rest p n)

theorem hitting_apply (ys : List (ℕ → p.Field)) (v : ℕ → p.Field) :
    hitting n L ys v = L (cut p n v) + combine ys.length (fun i => ys[i]?.getD 0) (rest p n v) := rfl

theorem hitting_of_mem (ys : List (ℕ → p.Field)) {v : ℕ → p.Field} (hv : v ∈ p.space n) :
    hitting n L ys v = L v := by
  have hrest : rest p n v = 0 := funext fun i => hv _ (Nat.le_add_right n i)
  rw [hitting_apply, cut_eq_self hv, hrest, map_zero, add_zero]

theorem combine_list_mem (ys : List (ℕ → p.Field)) (a : ℕ → p.Field) :
    combine ys.length (fun i => ys[i]?.getD 0) a ∈ Submodule.span p.Field {f | f ∈ ys} := by
  refine combine_mem (fun i hi => Submodule.subset_span ?_) a
  rw [List.getElem?_eq_getElem hi, Option.getD_some]
  exact List.getElem_mem hi

theorem map_hitting (ys : List (ℕ → p.Field)) :
    (p.space (n + ys.length)).map (hitting n L ys) =
      (p.space n).map L ⊔ Submodule.span p.Field {f | f ∈ ys} := by
  refine le_antisymm ?_ (sup_le ?_ (Submodule.span_le.mpr ?_))
  · rintro _ ⟨v, _, rfl⟩
    rw [hitting_apply]
    exact Submodule.add_mem_sup (Submodule.mem_map_of_mem (cut_mem _ _)) (combine_list_mem ys _)
  · rintro _ ⟨v, hv, rfl⟩
    exact ⟨v, fun i hi => hv i (by omega), hitting_of_mem ys hv⟩
  · rintro f hf
    obtain ⟨i, hi, rfl⟩ := List.mem_iff_getElem.mp hf
    refine ⟨Pi.single (n + i) 1, fun j hj => Pi.single_eq_of_ne (by omega) _, ?_⟩
    rw [hitting_apply, cut_single_of_le (Nat.le_add_right n i), map_zero, zero_add,
      rest_single_of_le (Nat.le_add_right n i), Nat.add_sub_cancel_left, combine_single hi,
      List.getElem?_eq_getElem hi, one_smul]
    rfl

namespace Subspace

theorem span_rowCoords (S : Subspace) : Submodule.span p.Field {f | f ∈ S.rowCoords p} = S.space p := by
  have hset : {f | f ∈ S.rowCoords p} = {f | ∃ x ∈ S.leads, x.2.coords p = f} := by
    ext f
    simp [rowCoords]
  rw [hset]
  rfl

/-- Rows of an echelon basis have no relations. -/
theorem Echelon.eq_zero_of_combine (h : Echelon p S) {a : ℕ → p.Field}
    (ha : combine (S.rowCoords p).length (fun i => (S.rowCoords p)[i]?.getD 0) a = 0) :
    ∀ i < (S.rowCoords p).length, a i = 0 := by
  have hlen : (S.rowCoords p).length = S.leads.length := List.length_map _
  have hsum : ∑ i : Fin S.leads.length, a i • S.rowAt p i = 0 := by
    rw [← ha, combine_apply, hlen, ← Fin.sum_univ_eq_sum_range (fun i => a i • (S.rowCoords p)[i]?.getD 0)]
    refine Finset.sum_congr rfl fun i _ => ?_
    rw [rowCoords, List.getElem?_map, List.getElem?_eq_getElem i.isLt]
    rfl
  intro i hi
  exact Fintype.linearIndependent_iff.mp h.linearIndependent (fun i => a i) hsum ⟨i, hlen ▸ hi⟩

/-- What `L` misses of `S`. -/
noncomputable def missed (n : ℕ) (L : (ℕ → p.Field) →ₗ[p.Field] (ℕ → p.Field)) (S : Subspace) : Subspace :=
  S.beyond (firsts ((p.space n).map L))

variable (h : Echelon p S) (hL : (p.space n).map L ≤ S.space p)

include h hL in
/-- The extended map hits the space. -/
theorem Echelon.map_hitting_missed :
    (p.space (n + (missed n L S).dimension)).map (hitting n L ((missed n L S).rowCoords p)) = S.space p := by
  have hlen : ((missed n L S).rowCoords p).length = (missed n L S).dimension := List.length_map _
  rw [← hlen, map_hitting, span_rowCoords]
  exact h.sup_beyond hL

include h in
/-- Only the old coordinates go into the old image. -/
theorem Echelon.mem_of_hitting_mem {v : ℕ → p.Field} (hv : v ∈ p.space (n + (missed n L S).dimension))
    (himage : hitting n L ((missed n L S).rowCoords p) v ∈ (p.space n).map L) : v ∈ p.space n := by
  have hlen : ((missed n L S).rowCoords p).length = (missed n L S).dimension := List.length_map _
  rw [hitting_apply, Submodule.add_mem_iff_right _ (Submodule.mem_map_of_mem (cut_mem _ _))] at himage
  have hspan := combine_list_mem ((missed n L S).rowCoords p) (rest p n v)
  rw [span_rowCoords] at hspan
  have hzero := (h.beyond _).eq_zero_of_combine (Submodule.disjoint_def.mp h.disjoint_beyond _ himage hspan)
  intro i hi
  by_cases hlt : i < n + (missed n L S).dimension
  · have hz := hzero (i - n) (by rw [missed] at hlen hlt; omega)
    rwa [rest_apply, Nat.add_sub_cancel' hi] at hz
  · exact hv i (by omega)

include h hL in
theorem Echelon.finrank_hitting :
    Module.finrank p.Field ((p.space n).map L) + (missed n L S).dimension =
      Module.finrank p.Field ((p.space (n + (missed n L S).dimension)).map
        (hitting n L ((missed n L S).rowCoords p))) := by
  rw [h.map_hitting_missed hL, h.finrank_space]
  exact h.finrank_add_dimension_beyond hL

end Subspace
end Steenrod
