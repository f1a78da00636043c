import Steenrod.Proofs.Module.FreeTables
import Steenrod.Proofs.Module.Generators
/-!
The numbering of the basis of a free module. Main statements: what is looked up in the tables is what the module answers; in each
degree that its table reaches, the indices below the dimension and the products of an operation and a generator are in bijection,
in the order of generators and then of operations; the numbering depends on nothing but the numbers of generators, and no index
changes later.
-/
namespace Steenrod

namespace FreeModule

variable {p : Prime} {A : Algebra} {F F' : FreeModule} {T : Tables} {d t : ℤ} {gens : List Generator} {g : Generator} {i : ℕ}

section Generators

theorem mem_generatorsThrough : g ∈ F.generatorsThrough d ↔ g.index < F.count g.degree ∧ g.degree ≤ d := by
  rw [generatorsThrough_eq, List.mem_filter, mem_generatorList, decide_eq_true_eq]

theorem sorted_generatorsThrough (F : FreeModule) (d : ℤ) : (F.generatorsThrough d).Pairwise Generator.Before :=
  generatorsThrough_eq F d ▸ F.sorted_generatorList.filter _

theorem nodup_generatorsThrough (F : FreeModule) (d : ℤ) : (F.generatorsThrough d).Nodup :=
  generatorsThrough_eq F d ▸ F.nodup_generatorList.filter _

/-- The numbers of generators determine the generators. -/
theorem generatorsThrough_congr {G : FreeModule} (h : ∀ d, G.count d = F.count d) (d : ℤ) :
    G.generatorsThrough d = F.generatorsThrough d := by
  have hirrefl : Std.Irrefl Generator.Before := ⟨fun g hg => by
    rcases hg with hlt | ⟨_, hlt⟩
    · exact lt_irrefl _ hlt
    · exact lt_irrefl _ hlt⟩
  have hantisymm : Std.Antisymm Generator.Before := ⟨fun g h hgh hhg => by
    unfold Generator.Before at hgh hhg
    omega⟩
  refine List.Subset.antisymm_of_pairwise (G.sorted_generatorsThrough d) (F.sorted_generatorsThrough d) (fun g hg => ?_)
    fun g hg => ?_
  · rw [mem_generatorsThrough, h] at hg
    exact mem_generatorsThrough.mpr hg
  · rw [mem_generatorsThrough, ← h] at hg
    exact mem_generatorsThrough.mpr hg

/-- The generators of one degree come one after the other, between those of less degree and the others. -/
theorem exists_split (hg : g ∈ F.generatorList) : ∃ before after,
    F.generatorList = before ++ ((List.range (F.count g.degree)).map (Generator.mk g.degree) ++ after) ∧
      (∀ h ∈ before, h.degree < g.degree) ∧ ∀ h ∈ after, g.degree < h.degree := by
  have hindex := mem_generatorList.mp hg
  cases hget : F.generators.get? g.degree with
  | none => simp [count, hget] at hindex
  | some l =>
    have hcount : F.count g.degree = l.length := by rw [count, hget, Option.map_some, Option.getD_some]
    obtain ⟨before, after, hsplit⟩ := List.append_of_mem (Graded.mem_pairs.mpr hget)
    have hsorted := F.generators.sorted_pairs
    rw [hsplit, List.pairwise_append, List.pairwise_cons] at hsorted
    obtain ⟨_, ⟨hafter, _⟩, hbefore⟩ := hsorted
    let listed : List (ℤ × List String) → List Generator := fun l =>
      l.flatMap fun x => (List.range x.2.length).map fun i => ⟨x.1, i⟩
    have hlisted : ∀ l, ∀ h ∈ listed l, ∃ x ∈ l, h.degree = x.1 := fun l h hh => by
      obtain ⟨x, hx, hh⟩ := List.mem_flatMap.mp hh
      obtain ⟨i, _, rfl⟩ := List.mem_map.mp hh
      exact ⟨x, hx, rfl⟩
    refine ⟨listed before, listed after, ?_, fun h hh => ?_, fun h hh => ?_⟩
    · rw [generatorList, hsplit, List.flatMap_append, List.flatMap_cons, hcount]
    · obtain ⟨x, hx, he⟩ := hlisted before h hh
      exact he ▸ hbefore x hx (g.degree, l) List.mem_cons_self
    · obtain ⟨x, hx, he⟩ := hlisted after h hh
      exact he ▸ hafter x hx

/-- Where a generator stands among those through a degree. -/
theorem getElem?_generatorsThrough (hg : g ∈ F.generatorList) (hd : g.degree ≤ d) :
    (F.generatorsThrough d)[(F.generatorsThrough (g.degree - 1)).length + g.index]? = some g := by
  obtain ⟨before, after, hlist, hlow, hhigh⟩ := exists_split hg
  have hthrough : F.generatorsThrough d = before ++ ((List.range (F.count g.degree)).map (Generator.mk g.degree) ++
      after.filter fun h => h.degree ≤ d) := by
    rw [generatorsThrough_eq, hlist, List.filter_append, List.filter_append, List.filter_eq_self.mpr, List.filter_eq_self.mpr]
    · intro h hh
      obtain ⟨i, _, rfl⟩ := List.mem_map.mp hh
      exact decide_eq_true hd
    · exact fun h hh => decide_eq_true ((hlow h hh).le.trans hd)
  have hbelow : F.generatorsThrough (g.degree - 1) = before := by
    rw [generatorsThrough_eq, hlist, List.filter_append, List.filter_eq_self.mpr, List.filter_eq_nil_iff.mpr, List.append_nil]
    · intro h hh hle
      have hle : h.degree ≤ g.degree - 1 := of_decide_eq_true hle
      rcases List.mem_append.mp hh with hh | hh
      · obtain ⟨i, _, rfl⟩ := List.mem_map.mp hh
        simp only at hle
        omega
      · have := hhigh h hh
        omega
    · exact fun h hh => decide_eq_true (Int.le_sub_one_of_lt (hlow h hh))
  have hindex := mem_generatorList.mp hg
  rw [hbelow, hthrough, List.getElem?_append_right (Nat.le_add_right _ _), Nat.add_sub_cancel_left,
    List.getElem?_append_left (by simpa using hindex), List.getElem?_map, List.getElem?_range hindex, Option.map_some]

theorem length_generatorsThrough_le (h : d ≤ t) : (F.generatorsThrough d).length ≤ (F.generatorsThrough t).length := by
  rw [generatorsThrough_eq, generatorsThrough_eq]
  refine (List.monotone_filter_right F.generatorList fun g hg => ?_).length_le
  exact decide_eq_true ((of_decide_eq_true hg).trans h)

end Generators

section Rows

theorem elements_rowOf (p : Prime) (d : ℤ) (gens : List Generator) : (rowOf p d gens).elements =
    gens.flatMap fun g => (List.range (Milnor.dim p (d - g.degree))).map fun k => (⟨d - g.degree, k⟩, g) := by
  induction gens using List.reverseRecOn with
  | nil => rfl
  | append_singleton gens g ih => simp [rowOf_append, Row.place, Row.appendBlock, ih]

theorem length_elements_rowOf (p : Prime) (d : ℤ) (gens : List Generator) :
    (rowOf p d gens).elements.length = total ((blocksOf p d gens).map (·.2)) := by
  rw [elements_rowOf]
  induction gens with
  | nil => rfl
  | cons g gens ih => rw [List.flatMap_cons, List.length_append, ih, List.length_map, List.length_range]; rfl

/-- A place in a row is a place in one of its blocks. -/
theorem getElem?_elements_rowOf (p : Prime) (d : ℤ) (gens : List Generator) (i : ℕ) : (rowOf p d gens).elements[i]? =
    (locate? i (blocksOf p d gens)).map fun x => (⟨d - x.2.degree, x.1⟩, x.2) := by
  rw [elements_rowOf]
  induction gens generalizing i with
  | nil => rfl
  | cons g gens ih =>
    rw [List.flatMap_cons, List.getElem?_append, List.length_map, List.length_range, ih]
    simp only [blocksOf, List.map_cons, locate?]
    split
    · next hi => rw [List.getElem?_map, List.getElem?_range hi, Option.map_some, Option.map_some]
    · rfl

/-- Where the blocks of some generators start, the first of them at `o`. -/
def startsFrom (p : Prime) (d : ℤ) : ℕ → List Generator → List ℕ
  | _, [] => []
  | o, g :: gens => o :: startsFrom p d (o + Milnor.dim p (d - g.degree)) gens

@[simp] theorem length_startsFrom (o : ℕ) (gens : List Generator) : (startsFrom p d o gens).length = gens.length := by
  induction gens generalizing o with
  | nil => rfl
  | cons g gens ih => rw [startsFrom, List.length_cons, ih, List.length_cons]

theorem starts_foldl (r : Row) (gens : List Generator) :
    (gens.foldl (Row.place p d) r).starts = r.starts ++ startsFrom p d r.offset gens := by
  induction gens generalizing r with
  | nil => exact (List.append_nil _).symm
  | cons g gens ih => rw [List.foldl_cons, ih, startsFrom, Row.place, Row.appendBlock, List.append_assoc, List.singleton_append]

theorem starts_rowOf (p : Prime) (d : ℤ) (gens : List Generator) : (rowOf p d gens).starts = startsFrom p d 0 gens :=
  starts_foldl Row.empty gens

/-- What is recorded for a generator is where its block starts. -/
theorem getElem?_startsFrom (o : ℕ) (hnodup : gens.Nodup) {j : ℕ} (hg : gens[j]? = some g) :
    (startsFrom p d o gens)[j]? = (startOf? g (blocksOf p d gens)).map (o + ·) := by
  induction gens generalizing o j with
  | nil => simp at hg
  | cons h gens ih =>
    obtain ⟨hh, hnodup⟩ := List.nodup_cons.mp hnodup
    simp only [blocksOf, List.map_cons, startOf?] at ih ⊢
    cases j with
    | zero =>
      obtain rfl := Option.some.inj hg
      rw [startsFrom, List.getElem?_cons_zero, if_pos rfl, Option.map_some, Nat.add_zero]
    | succ j =>
      rw [List.getElem?_cons_succ] at hg
      have hne : h ≠ g := fun he => hh (he ▸ List.mem_of_getElem? hg)
      rw [startsFrom, List.getElem?_cons_succ, ih _ hnodup hg, if_neg hne, Option.map_map]
      refine congrArg (Option.map · _) (funext fun k => ?_)
      exact Nat.add_assoc _ _ _

/-- The place of an element is where the block of its generator starts, and the place in the block. -/
theorem startOf?_of_locate? {k : ℕ} (hnodup : gens.Nodup) (h : locate? i (blocksOf p d gens) = some (k, g)) :
    ∃ start, startOf? g (blocksOf p d gens) = some start ∧ start + k = i := by
  induction gens generalizing i with
  | nil => simp [blocksOf, locate?] at h
  | cons g' gens ih =>
    obtain ⟨hg', hnodup⟩ := List.nodup_cons.mp hnodup
    simp only [blocksOf, List.map_cons, locate?, startOf?] at h ih ⊢
    split at h
    · next hi =>
      simp only [Option.some.injEq, Prod.mk.injEq] at h
      obtain ⟨rfl, rfl⟩ := h
      exact ⟨0, if_pos rfl, Nat.zero_add i⟩
    · next hi =>
      have hne : g' ≠ g := fun he => hg' (he ▸ (locate?_spec (p := p) (d := d) h).1)
      obtain ⟨start, hstart, hsum⟩ := ih hnodup h
      exact ⟨_, by rw [if_neg hne, hstart, Option.map_some], by omega⟩

end Rows

section Answers

theorem reaches_iff : F.reaches d = true ↔ F.minDegree ≤ d ∧ d < F.tableEnd := by
  simp only [reaches, Bool.and_eq_true, decide_eq_true_eq]

/-- The elements of a degree are those of its row. -/
theorem elementAt_of_reaches (hd : F.reaches d = true) (hc : d - F.minDegree < A.computed) (i : ℕ) :
    F.elementAt A d i = Result.ofOption (rowOf A.prime d (F.generatorsThrough d)).elements[i]? := by
  rw [elementAt, hd, require_true, Result.ok_bind, blocks_of_lt hc, Result.ok_bind, getElem?_elements_rowOf]
  cases locate? i (blocksOf A.prime d (F.generatorsThrough d)) <;> rfl

theorem elementAt_eq_breach (hd : ¬F.reaches d = true) (i : ℕ) : F.elementAt A d i = breach := by
  rw [elementAt, Bool.eq_false_iff.mpr hd]
  rfl

theorem offset_of_reaches (hg : g ∈ F.generatorList) (hd : F.reaches d = true) (hc : d - F.minDegree < A.computed) :
    F.offset A d g = Result.ofOption (startOf? g (blocksOf A.prime d (F.generatorsThrough d))) := by
  rw [offset, decide_eq_true ⟨minDegree_le hg, mem_generatorList.mp hg⟩, require_true, Result.ok_bind, hd, require_true,
    Result.ok_bind, blocks_of_lt hc, Result.ok_bind]

theorem offset_eq_breach (h : g ∉ F.generatorList ∨ ¬F.reaches d = true) : F.offset A d g = breach := by
  by_cases hg : g ∈ F.generatorList
  · have hd := h.resolve_left (not_not.mpr hg)
    rw [offset, decide_eq_true ⟨minDegree_le hg, mem_generatorList.mp hg⟩, Bool.eq_false_iff.mpr hd]
    rfl
  · have hnot : ¬(F.minDegree ≤ g.degree ∧ g.index < F.count g.degree) := fun hin => hg (mem_generatorList.mpr hin.2)
    rw [offset, decide_eq_false hnot]
    rfl

theorem startOf?_eq_none (h : g ∉ gens) : startOf? g (blocksOf p d gens) = none := by
  induction gens with
  | nil => rfl
  | cons g' gens ih =>
    simp only [blocksOf, List.map_cons, startOf?] at ih ⊢
    rw [if_neg fun he => h (by simp [he]), ih fun hg => h (by simp [hg]), Option.map_none]

end Answers

namespace Tables.Hold

theorem lt_computed_of_reaches (h : Hold A F T) (hd : F.reaches d = true) : d - F.minDegree < A.computed := by
  have hc := h.lt_computed
  have hd := (reaches_iff.mp hd).2
  omega

theorem elementAt_eq (h : Hold A F T) (d : ℤ) (i : ℕ) : T.elementAt d i = F.elementAt A d i := by
  rw [Tables.elementAt, h.elements.get?_eq]
  by_cases hd : F.reaches d = true
  · rw [elementAt_of_reaches hd (h.lt_computed_of_reaches hd), if_pos (reaches_iff.mp hd)]
    rfl
  · rw [elementAt_eq_breach hd, if_neg fun hin => hd (reaches_iff.mpr hin)]
    rfl

theorem dimension_eq (h : Hold A F T) (d : ℤ) : T.dimension d = F.dimension A d := by
  have hhas : T.elements.has d = F.reaches d := by
    rw [Graded.has, FreeModule.reaches, h.elements.minDegree_eq, h.elements.nextDegree_eq]
  rw [Tables.dimension, FreeModule.dimension, hhas, h.elements.minDegree_eq, h.elements.nextDegree_eq, h.elements.get?_eq]
  split
  · rfl
  · by_cases hd : F.reaches d = true
    · rw [if_pos (reaches_iff.mp hd), blocks_of_lt (h.lt_computed_of_reaches hd), Result.ok_bind, Result.ofOption_some,
        Result.ok_bind, length_elements_rowOf]
    · rw [Bool.eq_false_iff.mpr hd]
      rfl

/-- What is recorded for a generator is found by its number among all generators. -/
theorem offset_eq (h : Hold A F T) (d : ℤ) (g : Generator) : T.offset d g = F.offset A d g := by
  rw [Tables.offset, h.elements.minDegree_eq, h.counts_eq, Graded.get?_map, h.starts.get?_eq, h.firsts.get?_eq]
  by_cases hg : g ∈ F.generatorList
  · have hindex := mem_generatorList.mp hg
    have hcount : ((F.generators.get? g.degree).map List.length) = some (F.count g.degree) := by
      cases hget : F.generators.get? g.degree with
      | none => simp [count, hget] at hindex
      | some l => simp [count, hget]
    have hlt := degree_lt_nextDegree hg
    rw [decide_eq_true (minDegree_le hg), hcount, require_true, Result.ok_bind, Result.ofOption_some, Result.ok_bind,
      decide_eq_true hindex, require_true, Result.ok_bind, if_pos (show F.minDegree ≤ g.degree ∧ g.degree < F.nextDegree + 1 from
        ⟨minDegree_le hg, hlt.trans (Int.lt_succ _)⟩)]
    by_cases hd : F.reaches d = true
    · rw [if_pos (reaches_iff.mp hd), offset_of_reaches hg hd (h.lt_computed_of_reaches hd), Result.ofOption_some, Result.ok_bind,
        Result.ofOption_some, Result.ok_bind, starts_rowOf]
      by_cases hle : g.degree ≤ d
      · rw [getElem?_startsFrom 0 (F.nodup_generatorsThrough d) (getElem?_generatorsThrough hg hle)]
        simp
      · -- The row of a lesser degree has no block of the generator.
        have hlength : (F.generatorsThrough d).length ≤ (F.generatorsThrough (g.degree - 1)).length :=
          length_generatorsThrough_le (by omega)
        rw [List.getElem?_eq_none (by rw [length_startsFrom]; omega),
          startOf?_eq_none fun hin => hle (mem_generatorsThrough.mp hin).2]
    · rw [if_neg fun hin => hd (reaches_iff.mpr hin), offset_eq_breach (.inr hd)]
      rfl
  · rw [offset_eq_breach (.inl hg)]
    by_cases hlow : F.minDegree ≤ g.degree
    · rw [decide_eq_true hlow, require_true, Result.ok_bind]
      cases hget : F.generators.get? g.degree with
      | none => rfl
      | some l =>
        have hindex : ¬g.index < l.length := fun hin => hg (mem_generatorList.mpr (by simpa [count, hget] using hin))
        rw [Option.map_some, Result.ofOption_some, Result.ok_bind, decide_eq_false hindex]
        rfl
    · rw [decide_eq_false hlow]
      rfl

theorem indexOf_eq (h : Hold A F T) (a : Operation) (g : Generator) : T.indexOf a g = F.indexOf A a g := by
  rw [Tables.indexOf, FreeModule.indexOf, h.offset_eq]

end Tables.Hold

/-- By generator, and then by operation. -/
def Precedes (x y : Operation × Generator) : Prop := x.2.Before y.2 ∨ x.2 = y.2 ∧ x.1.index < y.1.index

/-- The indices below `n` number the products of an operation and a generator of total degree `d`, by generator and then by
operation. -/
structure Numbers (A : Algebra) (F : FreeModule) (d : ℤ) (n : ℕ) : Prop where
  exists_pair : ∀ i < n, ∃ a g, F.elementAt A d i = .ok (a, g) ∧ a.IsBasis A.prime ∧ g.index < F.count g.degree ∧
    a.degree + g.degree = d ∧ F.indexOf A a g = .ok i
  exists_index : ∀ a g, a.IsBasis A.prime → g.index < F.count g.degree → a.degree + g.degree = d →
    ∃ i < n, F.indexOf A a g = .ok i ∧ F.elementAt A d i = .ok (a, g)
  ordered : ∀ i j x y, i < j → F.elementAt A d i = .ok x → F.elementAt A d j = .ok y → Precedes x y
  breach_of_le : ∀ i, n ≤ i → F.elementAt A d i = breach

/-- The elements of a row come in order. -/
theorem sorted_elements_rowOf (hgens : gens.Pairwise Generator.Before) : (rowOf p d gens).elements.Pairwise Precedes := by
  rw [elements_rowOf]
  refine List.pairwise_flatMap.mpr ⟨fun g _ => ?_, hgens.imp fun hgh => ?_⟩
  · exact List.pairwise_map.mpr (List.pairwise_lt_range.imp fun hlt => .inr ⟨rfl, hlt⟩)
  · intro x hx y hy
    obtain ⟨k, _, rfl⟩ := List.mem_map.mp hx
    obtain ⟨l, _, rfl⟩ := List.mem_map.mp hy
    exact .inl hgh

theorem indexOf_of_startOf? (hd : F.reaches d = true) (hc : d - F.minDegree < A.computed) {a : Operation} {start : ℕ}
    (ha : 0 ≤ a.degree) (hg : g ∈ F.generatorsThrough d) (hsum : a.degree + g.degree = d)
    (hstart : startOf? g (blocksOf A.prime d (F.generatorsThrough d)) = some start) :
    F.indexOf A a g = .ok (start + a.index) := by
  have hlist : g ∈ F.generatorList := mem_generatorList.mpr (mem_generatorsThrough.mp hg).1
  rw [indexOf, decide_eq_true ha, require_true, Result.ok_bind, hsum, offset_of_reaches hlist hd hc, hstart]
  rfl

theorem numbers_row (hd : F.reaches d = true) (hc : d - F.minDegree < A.computed) :
    Numbers A F d (rowOf A.prime d (F.generatorsThrough d)).elements.length := by
  have hnodup := F.nodup_generatorsThrough d
  constructor
  case exists_pair =>
    intro i hi
    rw [length_elements_rowOf] at hi
    obtain ⟨k, g, hkg⟩ := exists_locate? hi
    obtain ⟨hg, hk⟩ := locate?_spec hkg
    obtain ⟨start, hstart, hsum⟩ := startOf?_of_locate? hnodup hkg
    have ha : Operation.IsBasis A.prime ⟨d - g.degree, k⟩ := Representation.isBasis_of_lt hk
    have hdegree : d - g.degree + g.degree = d := sub_add_cancel _ _
    refine ⟨⟨d - g.degree, k⟩, g, ?_, ha, (mem_generatorsThrough.mp hg).1, hdegree, ?_⟩
    · rw [elementAt_of_reaches hd hc, getElem?_elements_rowOf, hkg]
      rfl
    · rw [indexOf_of_startOf? hd hc ha.nonneg hg hdegree hstart, hsum]
  case exists_index =>
    intro a g ha hcount hsum
    have hnonneg := ha.nonneg
    have hg : g ∈ F.generatorsThrough d := mem_generatorsThrough.mpr ⟨hcount, by omega⟩
    obtain ⟨start, hstart⟩ := exists_startOf? (p := A.prime) (d := d) hg
    have hdegree : d - g.degree = a.degree := by omega
    have hk : a.index < Milnor.dim A.prime (d - g.degree) := hdegree ▸ ha.index_lt
    have hfit := startOf?_add_le hstart
    refine ⟨start + a.index, ?_, indexOf_of_startOf? hd hc hnonneg hg hsum hstart, ?_⟩
    · rw [length_elements_rowOf]
      omega
    · rw [elementAt_of_reaches hd hc, getElem?_elements_rowOf, locate?_of_startOf? hstart hk, Option.map_some, hdegree]
      rfl
  case ordered =>
    intro i j x y hij hx hy
    rw [elementAt_of_reaches hd hc, Result.ofOption_eq_ok] at hx hy
    obtain ⟨hi, rfl⟩ := List.getElem?_eq_some_iff.mp hx
    obtain ⟨hj, rfl⟩ := List.getElem?_eq_some_iff.mp hy
    exact List.pairwise_iff_getElem.mp (sorted_elements_rowOf (F.sorted_generatorsThrough d)) i j hi hj hij
  case breach_of_le =>
    intro i hi
    rw [elementAt_of_reaches hd hc, List.getElem?_eq_none hi]
    rfl

section Comparison

variable {B : Algebra} {G : FreeModule} {x y : Algebra × FreeModule}

/-- Where there are the same numbers of generators, the elements have the same numbers. -/
theorem elementAt_congr (hprime : B.prime = A.prime) (hcount : ∀ d, G.count d = F.count d) (hF : F.reaches d = true)
    (hG : G.reaches d = true) (hA : d - F.minDegree < A.computed) (hB : d - G.minDegree < B.computed) (i : ℕ) :
    G.elementAt B d i = F.elementAt A d i := by
  rw [elementAt_of_reaches hG hB, elementAt_of_reaches hF hA, generatorsThrough_congr hcount, hprime]

theorem indexOf_congr (hprime : B.prime = A.prime) (hcount : ∀ d, G.count d = F.count d) (hF : F.reaches d = true)
    (hG : G.reaches d = true) (hA : d - F.minDegree < A.computed) (hB : d - G.minDegree < B.computed) {a : Operation}
    (hsum : a.degree + g.degree = d) : G.indexOf B a g = F.indexOf A a g := by
  have hmem : g ∈ G.generatorList ↔ g ∈ F.generatorList := by rw [mem_generatorList, mem_generatorList, hcount]
  have hoffset : G.offset B d g = F.offset A d g := by
    by_cases hg : g ∈ F.generatorList
    · rw [offset_of_reaches (hmem.mpr hg) hG hB, offset_of_reaches hg hF hA, generatorsThrough_congr hcount, hprime]
    · rw [offset_eq_breach (.inl hg), offset_eq_breach (.inl fun hin => hg (hmem.mp hin))]
  rw [indexOf, indexOf, hsum, hoffset]

theorem Later.exists_generatorsThrough (h : Later x y) (d : ℤ) :
    ∃ more, y.2.generatorsThrough d = x.2.generatorsThrough d ++ more := by
  obtain ⟨more, hmore, _⟩ := h.grows
  exact ⟨_, by rw [generatorsThrough_eq, generatorsThrough_eq, hmore, List.filter_append]⟩

theorem Later.reaches (h : Later x y) (hd : x.2.reaches d = true) : y.2.reaches d = true := by
  obtain ⟨hlow, hlt⟩ := reaches_iff.mp hd
  exact reaches_iff.mpr ⟨h.minDegree_eq.trans_le hlow, hlt.trans_le h.tableEnd_le⟩

/-- An element keeps its number. -/
theorem Later.elementAt_eq (h : Later x y) (hx : ∀ d, x.2.reaches d = true → d - x.2.minDegree < x.1.computed)
    (hy : ∀ d, y.2.reaches d = true → d - y.2.minDegree < y.1.computed) {e : Operation × Generator}
    (he : x.2.elementAt x.1 d i = .ok e) : y.2.elementAt y.1 d i = .ok e := by
  by_cases hd : x.2.reaches d = true
  · obtain ⟨more, hmore⟩ := h.exists_generatorsThrough d
    rw [elementAt_of_reaches hd (hx d hd), Result.ofOption_eq_ok] at he
    obtain ⟨hi, _⟩ := List.getElem?_eq_some_iff.mp he
    rw [elements_rowOf] at hi he
    rw [elementAt_of_reaches (h.reaches hd) (hy d (h.reaches hd)), Result.ofOption_eq_ok, elements_rowOf, hmore, h.prime_eq,
      List.flatMap_append, List.getElem?_append_left hi]
    exact he
  · rw [elementAt_eq_breach hd] at he
    cases he

theorem startOf?_append {blocks more : List (Generator × ℕ)} {start : ℕ} (h : startOf? g blocks = some start) :
    startOf? g (blocks ++ more) = some start := by
  induction blocks generalizing start with
  | nil => simp [startOf?] at h
  | cons b blocks ih =>
    simp only [List.cons_append, startOf?] at h ⊢
    split at h
    · next hb => rw [if_pos hb, h]
    · next hb =>
      obtain ⟨s, hs, rfl⟩ := Option.map_eq_some_iff.mp h
      rw [if_neg hb, ih hs, Option.map_some]

theorem Later.indexOf_eq (h : Later x y) (hx : ∀ d, x.2.reaches d = true → d - x.2.minDegree < x.1.computed)
    (hy : ∀ d, y.2.reaches d = true → d - y.2.minDegree < y.1.computed) {a : Operation}
    (he : x.2.indexOf x.1 a g = .ok i) : y.2.indexOf y.1 a g = .ok i := by
  obtain ⟨_, hnonneg, he⟩ := Result.bind_eq_ok.mp he
  obtain ⟨start, hstart, he⟩ := Result.bind_eq_ok.mp he
  have hoffset : y.2.offset y.1 (a.degree + g.degree) g = .ok start := by
    by_cases hin : g ∈ x.2.generatorList ∧ x.2.reaches (a.degree + g.degree) = true
    · obtain ⟨hg, hd⟩ := hin
      obtain ⟨more, hmore, _⟩ := h.grows
      have hg' : g ∈ y.2.generatorList := hmore ▸ List.mem_append_left _ hg
      obtain ⟨more', hmore'⟩ := h.exists_generatorsThrough (a.degree + g.degree)
      rw [offset_of_reaches hg hd (hx _ hd), Result.ofOption_eq_ok] at hstart
      rw [offset_of_reaches hg' (h.reaches hd) (hy _ (h.reaches hd)), Result.ofOption_eq_ok, hmore', h.prime_eq,
        blocksOf_append]
      exact startOf?_append hstart
    · rw [offset_eq_breach (not_and_or.mp hin)] at hstart
      cases hstart
  rw [FreeModule.indexOf, hnonneg, Result.ok_bind, hoffset, Result.ok_bind]
  exact he

end Comparison

/-- The numbering of the basis of a free module, after any calls that are allowed. The calls answer, and what they filled the tables
with is what the module answers. In each degree that the table reaches, the indices below the dimension and the products of an
operation and a generator of that total degree are in bijection, by generator in the order of degree and place and then by
operation. A module that other calls led to, with the same numbers of generators, has the same numbering; and no index changes
later. -/
theorem numbering {name : String} {m : ℤ} {calls : List Call} (hcalls : Call.AllAllowed calls (A, FreeModule.new name m)) :
    ∃ A' F T, calls.foldlM Call.run (A, FreeModule.new name m) = .ok (A', F) ∧
      calls.foldlM Call.fill (A, Tables.new m) = .ok (A', T) ∧
      ((∀ d, T.dimension d = F.dimension A' d) ∧ (∀ d i, T.elementAt d i = F.elementAt A' d i) ∧
        ∀ a g, T.indexOf a g = F.indexOf A' a g) ∧
      (∀ d, F.reaches d = true → ∃ n, (F.tableEnd ≤ maxSigned → F.dimension A' d = .ok n) ∧ Numbers A' F d n) ∧
      (∀ B name' m' calls', B.prime = A.prime → Call.AllAllowed calls' (B, FreeModule.new name' m') →
        ∀ B' G, calls'.foldlM Call.run (B, FreeModule.new name' m') = .ok (B', G) → (∀ d, G.count d = F.count d) →
          ∀ d, F.reaches d = true → G.reaches d = true → (∀ i, G.elementAt B' d i = F.elementAt A' d i) ∧
            ∀ a g, a.degree + g.degree = d → G.indexOf B' a g = F.indexOf A' a g) ∧
      ∀ more, Call.AllAllowed more (A', F) → ∃ A'' F', more.foldlM Call.run (A', F) = .ok (A'', F') ∧
        (∀ d i x, F.elementAt A' d i = .ok x → F'.elementAt A'' d i = .ok x) ∧
        ∀ a g i, F.indexOf A' a g = .ok i → F'.indexOf A'' a g = .ok i := by
  obtain ⟨A', F, T, hrun, hfill, hold, hlater⟩ := (Tables.hold_new A name m).run hcalls
  refine ⟨A', F, T, hrun, hfill, ⟨hold.dimension_eq, hold.elementAt_eq, hold.indexOf_eq⟩, fun d hd => ?_, ?_, fun more hmore => ?_⟩
  · have hc := hold.lt_computed_of_reaches hd
    refine ⟨_, fun hmax => ?_, numbers_row hd hc⟩
    rw [dimension, if_neg (not_lt.mpr (reaches_iff.mp hd).1), hd, decide_eq_true hmax, Bool.and_self, require_true, Result.ok_bind,
      blocks_of_lt hc, Result.ok_bind, length_elements_rowOf]
  · intro B name' m' calls' hprime hcalls' B' G hrun' hcount d hF hG
    obtain ⟨B₁, G₁, S, hrun₁, _, hold', hlater'⟩ := (Tables.hold_new B name' m').run hcalls'
    obtain ⟨rfl, rfl⟩ := Prod.mk.inj (Except.ok.inj (hrun₁.symm.trans hrun'))
    have hprime' : B₁.prime = A'.prime := hlater'.prime_eq.trans (hprime.trans hlater.prime_eq.symm)
    have hA := hold.lt_computed_of_reaches hF
    have hB := hold'.lt_computed_of_reaches hG
    exact ⟨elementAt_congr hprime' hcount hF hG hA hB, fun a g hsum => indexOf_congr hprime' hcount hF hG hA hB hsum⟩
  · obtain ⟨A'', F', T', hrun', _, hold', hlater'⟩ := hold.run hmore
    have hA : ∀ d, F.reaches d = true → d - F.minDegree < A'.computed := fun _ => hold.lt_computed_of_reaches
    have hA' : ∀ d, F'.reaches d = true → d - F'.minDegree < A''.computed := fun _ => hold'.lt_computed_of_reaches
    exact ⟨A'', F', hrun', fun d i x => hlater'.elementAt_eq hA hA', fun a g i => hlater'.indexOf_eq hA hA'⟩

/-- Generators in degrees 0 and 2, with the table reaching further in between. -/
def twoGenerators : List Call :=
  [.compute 4, .extend 0, .add 0 1 none, .extend 2, .add 1 0 none, .add 2 1 none, .extend 4]

namespace Call.AllAllowed

variable {calls : List Call}

theorem cons {x y : Algebra × FreeModule} {c : Call} (hc : c.Allowed x) (hrun : c.run x = .ok y) (h : AllAllowed calls y) :
    AllAllowed (c :: calls) x :=
  ⟨hc, fun z hz => by
    obtain rfl := Except.ok.inj (hrun.symm.trans hz)
    exact h⟩

theorem extend (hd : F.tableEnd ≤ d) (hc : d - F.minDegree < A.computed)
    (h : AllAllowed calls (A, { F with tableEnd := d + 1 })) : AllAllowed (.extend d :: calls) (A, F) :=
  cons hc (by rw [run, extendTable_eq hd hc, Result.ok_bind]) h

theorem add {count : ℕ} (hd : d = F.nextDegree) (hlt : d < F.tableEnd) (hmax : F.tableEnd ≤ maxSigned)
    (hc : F.tableEnd - 1 - F.nextDegree < A.computed) (h : AllAllowed calls (A, F.grow (defaultNames d count))) :
    AllAllowed (.add d count none :: calls) (A, F) := by
  subst hd
  refine cons ⟨rfl, hlt, hmax, fun l hl => by cases hl⟩ ?_ h
  rw [run, addGenerators_eq hlt hmax hc (by simp [defaultNames]), Result.ok_bind]
  rfl

end Call.AllAllowed

theorem allAllowed_twoGenerators (A : Algebra) : Call.AllAllowed twoGenerators (A, FreeModule.new "F" 0) := by
  have hc : ∀ d ≤ 4, d < ((A.extend 4).computed : ℤ) := fun d hd => by
    rw [Algebra.computed_extend]
    split <;> omega
  refine .cons (y := (A.extend 4, FreeModule.new "F" 0)) trivial rfl ?_
  refine .extend (by decide) (hc _ (by decide)) (.add rfl (by decide) (by decide) (hc _ (by decide)) ?_)
  refine .extend (by decide) (hc _ (by decide)) (.add rfl (by decide) (by decide) (hc _ (by decide)) ?_)
  exact .add rfl (by decide) (by decide) (hc _ (by decide)) (.extend (by decide) (hc _ (by decide)) trivial)

theorem numbering_twoGenerators : ∃ A F n,
    twoGenerators.foldlM Call.run (Algebra.new Prime.two none, FreeModule.new "F" 0) = .ok (A, F) ∧
      F.elementAt A 4 2 = .ok (⟨2, 0⟩, ⟨2, 0⟩) ∧ Numbers A F 4 n := by
  obtain ⟨A, F, T, hrun, _, _, hnumbers, _⟩ := numbering (allAllowed_twoGenerators (Algebra.new Prime.two none))
  have heval : (do
      let x ← twoGenerators.foldlM Call.run (Algebra.new Prime.two none, FreeModule.new "F" 0)
      let y ← x.2.elementAt x.1 4 2
      .ok (x.2.reaches 4, y)) = (.ok (true, ⟨2, 0⟩, ⟨2, 0⟩) : Result (Bool × Operation × Generator)) := by decide +kernel
  rw [hrun, Result.ok_bind] at heval
  obtain ⟨y, hy, heval⟩ := Result.bind_eq_ok.mp heval
  obtain ⟨hreaches, rfl⟩ := Prod.mk.inj (Except.ok.inj heval)
  obtain ⟨n, _, hn⟩ := hnumbers 4 hreaches
  exact ⟨A, F, n, hrun, hy, hn⟩

end FreeModule
end Steenrod
