import Mathlib.Data.List.Nodup
import Steenrod.Proofs.Module.Genuine
/-!
Generators in the order of their degrees. Main statements: a module without actions depends on the generators of each degree only, so
that they may be listed degree by degree; and where names are distinct, looking one up gives its place.
-/
namespace Steenrod

namespace Presentation

open FiniteModule

variable {p : Prime} {P P' : Presentation} {d : ℤ} {i : ℕ} {name : String}

/-- What is declared has valid names, and distinct ones. -/
structure WellNamed (P : Presentation) : Prop where
  valid : ∀ g ∈ P.generators, Text.isName g.2 = true
  distinct : (P.generators.map Prod.snd).Nodup

/-- A name is looked up to its place among those of its degree. -/
theorem WellNamed.lookup?_eq (h : P.WellNamed) (hget : (P.generators.filter (·.1 = d))[i]? = some (d, name)) :
    P.lookup? name = some (d, i) := by
  have hinj : ∀ g ∈ P.generators, ∀ g' ∈ P.generators, g.2 = g'.2 → g = g' := fun g hg g' hg' heq =>
    List.inj_on_of_nodup_map h.distinct hg hg' heq
  have hmem := List.mem_of_mem_filter (List.mem_of_getElem? hget)
  have hfind : P.generators.find? (·.2 == name) = some (d, name) := by
    cases hf : P.generators.find? (·.2 == name) with
    | none => exact absurd (List.find?_eq_none.mp hf _ hmem) (by simp)
    | some g =>
      have hname : g.2 = name := by simpa using List.find?_some hf
      rw [hinj g (List.mem_of_find?_eq_some hf) _ hmem hname]
  have hplace : (P.generators.filter (·.1 = d)).findIdx (·.2 == name) = i := by
    obtain ⟨hi, hentry⟩ := List.getElem?_eq_some_iff.mp hget
    refine (List.findIdx_eq hi).mpr ⟨by simp [hentry], fun j hj => ?_⟩
    have hdistinct : ((P.generators.filter (·.1 = d)).map Prod.snd).Nodup := h.distinct.sublist (List.filter_sublist.map _)
    have hne := List.pairwise_iff_getElem.mp hdistinct j i (by rw [List.length_map]; omega) (by rwa [List.length_map]) hj
    rw [List.getElem_map, List.getElem_map, hentry] at hne
    simpa using hne
  rw [lookup?, hfind]
  exact congrArg (fun k => some (d, k)) hplace

/-- The names of a degree, in their order. -/
def namesIn (P : Presentation) (d : ℤ) : List String := (P.generators.filter (·.1 = d)).map Prod.snd

@[simp] theorem length_namesIn (P : Presentation) (d : ℤ) : (P.namesIn d).length = P.dimension d := List.length_map _

theorem WellNamed.lookup?_getElem (h : P.WellNamed) (hget : (P.namesIn d)[i]? = some name) : P.lookup? name = some (d, i) := by
  rw [namesIn, List.getElem?_map, Option.map_eq_some_iff] at hget
  obtain ⟨⟨e, n⟩, hg, rfl⟩ := hget
  obtain rfl : e = d := by simpa using List.of_mem_filter (List.mem_of_getElem? hg)
  exact h.lookup?_eq hg

theorem WellNamed.isName (h : P.WellNamed) (hmem : name ∈ P.namesIn d) : Text.isName name = true := by
  obtain ⟨g, hg, rfl⟩ := List.mem_map.mp hmem
  exact h.valid g (List.mem_of_mem_filter hg)

/-- The range of degrees depends on the dimensions only. -/
theorem degrees_congr (h : P'.dimension = P.dimension) : P'.minDegree = P.minDegree ∧ P'.maxDegree = P.maxDegree := by
  have hbounds : ∀ (Q : Presentation) (d : ℤ), 0 < Q.dimension d → Q.minDegree ≤ d ∧ d ≤ Q.maxDegree := by
    intro Q d hd
    by_contra hnot
    rw [Q.dimension_eq_zero (by omega)] at hd
    exact absurd hd (lt_irrefl 0)
  rcases P.degrees_eq with ⟨hmin, hmax⟩ | ⟨hmin, hmax⟩ <;> rcases P'.degrees_eq with ⟨hmin', hmax'⟩ | ⟨hmin', hmax'⟩
  · omega
  · have := hbounds P _ (h ▸ hmin')
    omega
  · have := hbounds P' _ (h ▸ hmin)
    omega
  · have := hbounds P _ (h ▸ hmin')
    have := hbounds P _ (h ▸ hmax')
    have := hbounds P' _ (h ▸ hmin)
    have := hbounds P' _ (h ▸ hmax)
    omega

/-- Before actions are entered a module depends on the generators of each degree only. -/
theorem start_congr (hname : P'.name = P.name) (h : ∀ d, P'.generators.filter (·.1 = d) = P.generators.filter (·.1 = d)) :
    P'.start p = P.start p := by
  have hdim : P'.dimension = P.dimension := funext fun d => congrArg List.length (h d)
  obtain ⟨hmin, hmax⟩ := degrees_congr hdim
  have hdims : P'.dims = P.dims := by rw [dims, dims, hmin, hmax, hdim]
  rw [start, start, hname, hdims, hmin, hmax]
  simp only [h]

/-- The generators listed degree by degree. -/
def ordered (P : Presentation) : List (ℤ × String) :=
  (GradedModule.degreesBetween P.minDegree P.maxDegree).flatMap fun d => P.generators.filter (·.1 = d)

theorem flatMap_ite {α β : Type} [DecidableEq α] {l : List α} (hl : l.Nodup) (a : α) (k : List β) :
    l.flatMap (fun e => if e = a then k else []) = if a ∈ l then k else [] := by
  induction l with
  | nil => rfl
  | cons e l ih =>
    obtain ⟨he, hl⟩ := List.nodup_cons.mp hl
    rw [List.flatMap_cons, ih hl]
    by_cases hea : e = a
    · subst hea
      rw [if_pos rfl, if_neg he, List.append_nil, if_pos List.mem_cons_self]
    · rw [if_neg hea, List.nil_append]
      simp [Ne.symm hea]

theorem filter_ordered (P : Presentation) (d : ℤ) : P.ordered.filter (·.1 = d) = P.generators.filter (·.1 = d) := by
  have hpiece : ∀ e, (P.generators.filter (·.1 = e)).filter (·.1 = d) = if e = d then P.generators.filter (·.1 = d) else [] := by
    intro e
    split
    · next h =>
      subst h
      exact List.filter_filter.trans (by simp)
    · next h =>
      rw [List.filter_eq_nil_iff]
      intro g hg hd
      have he := List.of_mem_filter hg
      simp only [decide_eq_true_eq] at hd he
      exact h (he.symm.trans hd)
  have hdistinct : (GradedModule.degreesBetween P.minDegree P.maxDegree).Nodup :=
    (pairwise_degreesBetween _ _).imp fun h => h.ne
  rw [ordered, List.filter_flatMap]
  simp only [hpiece]
  rw [flatMap_ite hdistinct]
  split
  · rfl
  · next hd =>
    rw [GradedModule.mem_degreesBetween] at hd
    exact (List.length_eq_zero_iff.mp (P.dimension_eq_zero (by omega))).symm

/-- These are the same generators. -/
theorem ordered_perm (P : Presentation) : P.ordered.Perm P.generators := by
  refine List.perm_iff_count.mpr fun g => ?_
  have hcount : ∀ l : List (ℤ × String), l.count g = (l.filter (·.1 = g.1)).count g := fun l =>
    (List.count_filter (by simp)).symm
  rw [hcount, hcount P.generators, filter_ordered]

theorem WellNamed.of_ordered (h : P.WellNamed) (hgens : P'.generators = P.ordered) : P'.WellNamed where
  valid g hg := h.valid g (P.ordered_perm.mem_iff.mp (hgens ▸ hg))
  distinct := by
    rw [hgens]
    exact (P.ordered_perm.map Prod.snd).nodup_iff.mpr h.distinct

/-- What is laid out first has the names of each degree. -/
theorem get?_names_start (p : Prime) (P : Presentation) (hd : 0 < P.dimension d) :
    (P.start p).names.get? d = some (P.namesIn d) := by
  have hbounds : P.minDegree ≤ d ∧ d ≤ P.maxDegree := by
    by_contra hnot
    rw [P.dimension_eq_zero (by omega)] at hd
    exact absurd hd (lt_irrefl 0)
  have hplace : P.minDegree + ((d - P.minDegree).toNat : ℤ) = d := by omega
  rw [start, Graded.get?_ofList, if_neg (by omega), List.getElem?_map, GradedModule.getElem?_degreesBetween, hplace,
    if_pos hbounds.2, Option.map_some]
  rfl

theorem pairs_names_start (p : Prime) (P : Presentation) :
    (P.start p).names.pairs = (GradedModule.degreesBetween P.minDegree P.maxDegree).map fun d => (d, P.namesIn d) := by
  have hlength : (GradedModule.degreesBetween P.minDegree P.maxDegree).length = (P.maxDegree + 1 - P.minDegree).toNat :=
    GradedModule.length_degreesBetween _ _
  have hdegrees : (P.start p).names.degrees = GradedModule.degreesBetween P.minDegree P.maxDegree := by
    simp only [Graded.degrees, start, Graded.ofList, List.size_toArray, List.length_map, hlength]
    rfl
  have hentries : (P.start p).names.toList = (GradedModule.degreesBetween P.minDegree P.maxDegree).map P.namesIn := rfl
  have hzip := List.zip_map' (f := id) (g := P.namesIn) (l := GradedModule.degreesBetween P.minDegree P.maxDegree)
  rw [List.map_id] at hzip
  rw [Graded.pairs, hdegrees, hentries, hzip]
  rfl

end Presentation
end Steenrod
