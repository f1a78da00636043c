import Steenrod.Proofs.Map.Values
import Steenrod.Proofs.Module.RoundTrip
import Steenrod.Proofs.Module.Truncated
/-!
Names of basis elements. Main statements: basis elements are found by their names exactly where no two of them share one; this is so in
whatever the builder made of its calls or of a document; and where it is so, a document lists every basis element once and every basis
element can be given a value by its name.
-/
namespace Steenrod

open Growing

namespace FiniteModule

variable {M : FiniteModule} {A A' : Algebra} {d e : ℤ} {i j : ℕ} {x : String}

/-- What has a name are the basis elements. -/
def Labelled (M : FiniteModule) : Prop := ∀ ⦃d : ℤ⦄ ⦃i : ℕ⦄, i < M.dimension d ↔ ∃ x, M.nameOf d i = .ok x

/-- No two basis elements share a name. -/
def Distinct (M : FiniteModule) : Prop := ∀ ⦃d e : ℤ⦄ ⦃i j : ℕ⦄ ⦃x : String⦄, M.nameOf d i = .ok x → M.nameOf e j = .ok x → d = e ∧ i = j

/-- What has a name are the basis elements, and each is found by its name. -/
structure Identified (M : FiniteModule) : Prop where
  labelled : M.Labelled
  find?_eq : ∀ ⦃d : ℤ⦄ ⦃i : ℕ⦄ ⦃x : String⦄, M.nameOf d i = .ok x → M.find? x = some (d, i)

theorem nameOf_eq_ok : M.nameOf d i = .ok x ↔ ∃ l, M.names.get? d = some l ∧ l[i]? = some x := by
  rw [nameOf, Result.ofOption_eq_ok, Option.bind_eq_some_iff]

/-- What is found has that name. -/
theorem nameOf_of_find? (h : M.find? x = some (d, i)) : M.nameOf d i = .ok x := by
  obtain ⟨⟨e, l⟩, hmem, hfound⟩ := List.exists_of_findSome?_eq_some h
  obtain ⟨j, hj, heq⟩ := Option.map_eq_some_iff.mp hfound
  obtain ⟨rfl, rfl⟩ := Prod.mk.inj heq
  obtain ⟨hlt, hx, _⟩ := List.idxOf?_eq_some_iff.mp hj
  exact nameOf_eq_ok.mpr ⟨l, Graded.mem_pairs.mp hmem, List.getElem?_eq_some_iff.mpr ⟨hlt, hx⟩⟩

/-- Something is found by every name that occurs. -/
theorem exists_find? (h : M.nameOf d i = .ok x) : ∃ y, M.find? x = some y := by
  obtain ⟨l, hl, hx⟩ := nameOf_eq_ok.mp h
  refine Option.isSome_iff_exists.mp (List.findSome?_isSome_iff.mpr ⟨(d, l), Graded.mem_pairs.mpr hl, ?_⟩)
  rw [Option.isSome_map, List.isSome_idxOf?]
  exact List.mem_of_getElem? hx

theorem Labelled.named (h : M.Labelled) : M.Named := by
  intro d l hl
  have hiff : ∀ i, i < l.length ↔ i < M.dimension d := fun i => by
    rw [h]
    constructor
    · exact fun hi => ⟨l[i], nameOf_eq_ok.mpr ⟨l, hl, List.getElem?_eq_getElem hi⟩⟩
    · rintro ⟨x, hx⟩
      obtain ⟨l', hl', hx⟩ := nameOf_eq_ok.mp hx
      obtain rfl := Option.some.inj (hl.symm.trans hl')
      exact (List.getElem?_eq_some_iff.mp hx).1
  have hlength := hiff l.length
  have hdim := hiff (M.dimension d)
  omega

theorem Entered.labelled {N : FiniteModule} (h : Entered M N) (hM : M.Labelled) : N.Labelled := by
  intro d i
  rw [h.dimension_eq, hM]
  simp only [nameOf, h.names_eq]

/-- Basis elements are found by their names exactly where these are distinct. -/
theorem Labelled.identified_iff (h : M.Labelled) : M.Identified ↔ M.Distinct := by
  constructor
  · intro hM d e i j x hi hj
    exact Prod.mk.inj (Option.some.inj ((hM.find?_eq hi).symm.trans (hM.find?_eq hj)))
  · refine fun hdistinct => ⟨h, fun d i x hx => ?_⟩
    obtain ⟨⟨e, j⟩, hfind⟩ := exists_find? hx
    obtain ⟨rfl, rfl⟩ := hdistinct hx (nameOf_of_find? hfind)
    exact hfind

theorem Identified.distinct (h : M.Identified) : M.Distinct := h.labelled.identified_iff.mp h

/-- The names with their degrees, in order. -/
def labels (M : FiniteModule) : List (ℤ × String) := M.names.pairs.flatMap fun (d, names) => names.map fun n => (d, n)

theorem mem_labels : (d, x) ∈ M.labels ↔ ∃ i, M.nameOf d i = .ok x := by
  rw [labels, List.mem_flatMap]
  constructor
  · rintro ⟨⟨e, l⟩, hl, hx⟩
    obtain ⟨n, hn, heq⟩ := List.mem_map.mp hx
    obtain ⟨rfl, rfl⟩ := Prod.mk.inj heq
    obtain ⟨i, hi⟩ := List.mem_iff_getElem?.mp hn
    exact ⟨i, nameOf_eq_ok.mpr ⟨l, Graded.mem_pairs.mp hl, hi⟩⟩
  · rintro ⟨i, hx⟩
    obtain ⟨l, hl, hi⟩ := nameOf_eq_ok.mp hx
    exact ⟨(d, l), Graded.mem_pairs.mpr hl, List.mem_map_of_mem (List.mem_of_getElem? hi)⟩

theorem filter_labels (M : FiniteModule) (d : ℤ) : M.labels.filter (·.1 = d) = ((M.names.get? d).getD []).map fun n => (d, n) := by
  cases hget : M.names.get? d with
  | none =>
    refine List.filter_eq_nil_iff.mpr fun ⟨e, x⟩ hmem he => ?_
    obtain rfl : e = d := by simpa using he
    obtain ⟨i, hx⟩ := mem_labels.mp hmem
    obtain ⟨l, hl, _⟩ := nameOf_eq_ok.mp hx
    rw [hget] at hl
    cases hl
  | some l =>
    obtain ⟨before, after, hsplit⟩ := List.append_of_mem (Graded.mem_pairs.mpr hget)
    have hdistinct := M.names.pairwise_pairs
    rw [hsplit, List.pairwise_append, List.pairwise_cons] at hdistinct
    obtain ⟨_, ⟨hafter, _⟩, hbefore⟩ := hdistinct
    have hnone : ∀ ps : List (ℤ × List String), (∀ y ∈ ps, y.1 ≠ d) →
        (ps.flatMap fun (e, names) => names.map fun n => (e, n)).filter (fun g => decide (g.1 = d)) = [] := by
      intro ps hps
      refine List.filter_eq_nil_iff.mpr fun g hg he => ?_
      obtain ⟨y, hy, hg⟩ := List.mem_flatMap.mp hg
      obtain ⟨n, _, rfl⟩ := List.mem_map.mp hg
      exact hps y hy (by simpa using he)
    rw [labels, hsplit, List.flatMap_append, List.flatMap_cons, List.filter_append, List.filter_append,
      hnone before fun y hy => hbefore y hy _ List.mem_cons_self, hnone after fun y hy => (hafter y hy).symm, List.nil_append,
      List.append_nil, Option.getD_some, List.filter_eq_self]
    intro g hg
    obtain ⟨n, _, rfl⟩ := List.mem_map.mp hg
    exact decide_eq_true rfl

theorem Distinct.nodup_labels (h : M.Distinct) : (M.labels.map Prod.snd).Nodup := by
  rw [labels, List.map_flatMap]
  simp only [List.map_map, Function.comp_def, List.map_id']
  refine List.nodup_flatMap.mpr ⟨fun ⟨d, l⟩ hl => ?_, M.names.pairwise_pairs.imp_of_mem fun {a b} ha hb hne => ?_⟩
  · have hget := Graded.mem_pairs.mp hl
    refine List.nodup_iff_getElem?_ne_getElem?.mpr fun i j hij hj heq => ?_
    have hi := List.getElem?_eq_getElem (hij.trans hj)
    have hsame := (h (nameOf_eq_ok.mpr ⟨l, hget, hi⟩) (nameOf_eq_ok.mpr ⟨l, hget, heq ▸ hi⟩)).2
    omega
  · intro x hx hx'
    obtain ⟨i, hi⟩ := List.mem_iff_getElem?.mp hx
    obtain ⟨j, hj⟩ := List.mem_iff_getElem?.mp hx'
    exact hne (h (nameOf_eq_ok.mpr ⟨_, Graded.mem_pairs.mp ha, hi⟩) (nameOf_eq_ok.mpr ⟨_, Graded.mem_pairs.mp hb, hj⟩)).1

/-- The object of generators in a document lists every basis element once. -/
def ListedOnce (M : FiniteModule) (j : Json) : Prop :=
  ∃ l, j.get? "gens" = some (.obj l) ∧ (l.map Prod.fst).Nodup ∧ ∀ x v, (x, v) ∈ l ↔ ∃ d i, M.nameOf d i = .ok x ∧ v = .int d

/-- Where names are distinct, what is printed lists every basis element once. -/
theorem Distinct.listedOnce (h : M.Distinct) {j : Json} (hrun : M.toJson.run A = (.ok j, A')) : M.ListedOnce j := by
  let members := M.labels.map fun g => (g.2, Json.int g.1)
  have hmembers : (M.names.pairs.flatMap fun (d, names) => names.map fun n => (n, Json.int d)) = members := by
    simp only [members, labels, List.map_flatMap, List.map_map]
    rfl
  have hkeys : (members.map Prod.fst).Nodup := by
    rw [List.map_map]
    exact h.nodup_labels
  obtain ⟨texts, B, _, hdocument⟩ := run_bind_eq_ok.mp hrun
  rw [run_bind, run_get] at hdocument
  simp only [hmembers] at hdocument
  obtain rfl := Except.ok.inj (Prod.mk.inj hdocument).1
  refine ⟨members, ?_, hkeys, fun x v => ?_⟩
  · rw [← Json.collect_of_nodup hkeys]
    rfl
  · constructor
    · intro hmem
      obtain ⟨⟨d, y⟩, hlabel, heq⟩ := List.mem_map.mp hmem
      obtain ⟨rfl, rfl⟩ := Prod.mk.inj heq
      obtain ⟨i, hi⟩ := mem_labels.mp hlabel
      exact ⟨d, i, hi, rfl⟩
    · rintro ⟨d, i, hi, rfl⟩
      exact List.mem_map_of_mem (f := fun g : ℤ × String => (g.2, Json.int g.1)) (mem_labels.mpr ⟨i, hi⟩)

/-- Names can be read again. -/
def ValidNames (M : FiniteModule) : Prop := ∀ ⦃d : ℤ⦄ ⦃i : ℕ⦄ ⦃x : String⦄, M.nameOf d i = .ok x → Text.isName x = true

/-- Where names identify the basis elements, they are a basis to declare. -/
theorem Identified.hasBasis (h : M.Identified) (hvalid : M.ValidNames) : M.HasBasis ⟨M.name, M.labels, []⟩ := by
  have hnames : ∀ d, (⟨M.name, M.labels, []⟩ : Presentation).namesIn d = (M.names.get? d).getD [] := fun d => by
    rw [Presentation.namesIn, filter_labels, List.map_map]
    exact List.map_id _
  have hdim : ∀ d, (⟨M.name, M.labels, []⟩ : Presentation).dimension d = ((M.names.get? d).getD []).length := fun d => by
    rw [← Presentation.length_namesIn, hnames]
  refine ⟨⟨fun g hg => ?_, h.distinct.nodup_labels⟩, funext fun d => ?_, fun d hd => ?_⟩
  · obtain ⟨i, hx⟩ := mem_labels.mp (show (g.1, g.2) ∈ M.labels from hg)
    exact hvalid hx
  · rw [hdim]
    cases hget : M.names.get? d with
    | some l => exact (h.labelled.named hget).symm
    | none =>
      refine Nat.eq_zero_of_not_pos fun hpos => ?_
      obtain ⟨x, hx⟩ := h.labelled.mp hpos
      obtain ⟨l, hl, _⟩ := nameOf_eq_ok.mp hx
      rw [hget] at hl
      cases hl
  · rw [hdim] at hd
    rw [hnames]
    cases hget : M.names.get? d with
    | some l => rfl
    | none =>
      rw [hget] at hd
      exact absurd hd (Nat.lt_irrefl 0)

/-- A module is printed if its names identify the basis elements, and these are listed once. -/
theorem Identified.exists_toJson {p : Prime} (h : M.Identified) (hvalid : M.ValidNames) (hp : p.val < 1073741824) (hM : M.Stores p)
    (hrange : M.maxDegree - M.minDegree < Milnor.trackedBelow) (hA : A.prime = p) :
    ∃ j A', M.toJson.run A = (.ok j, A') ∧ M.ListedOnce j := by
  obtain ⟨texts, B, htexts, _⟩ := exists_actionTexts hp (h.hasBasis hvalid) hM hrange hA
  obtain ⟨j, B', hrun⟩ : ∃ j B', M.toJson.run A = (.ok j, B') := ⟨_, _, run_bind_eq_ok.mpr ⟨texts, B, htexts, rfl⟩⟩
  exact ⟨j, B', hrun, h.distinct.listedOnce hrun⟩

end FiniteModule

namespace PartialMap

variable {p : Prime} {f : PartialMap} {d : ℤ} {i : ℕ} {x : String}

/-- A value is given to the basis element that the name stands for. -/
theorem set_of_identified (hsource : f.source.Identified) (hx : f.source.nameOf d i = .ok x) :
    (∃ f', f.set p x "0" = .ok f') ∧ ∀ text f', f.set p x text = .ok f' → ∃ v, f' = { f with values := ((d, i), v) :: f.values } := by
  have hlookup := lookup_eq_ok.mpr (hsource.find?_eq hx)
  have hzero : ModuleSum.parse "0" = .ok [] := by decide +kernel
  constructor
  · refine ⟨{ f with values := ((d, i), Vec.zero (f.target.dimension (d - f.shift))) :: f.values },
      Result.bind_eq_ok.mpr ⟨(d, i), hlookup, ?_⟩⟩
    simp only
    rw [hzero]
    rfl
  · intro text f' h
    obtain ⟨y, hy, h⟩ := Result.bind_eq_ok.mp h
    obtain rfl := Except.ok.inj (hlookup.symm.trans hy)
    simp only at h
    split at h
    · cases h
    · obtain ⟨v, _, h⟩ := Result.bind_eq_ok.mp h
      exact ⟨v, (Except.ok.inj h).symm⟩

end PartialMap

namespace Presentation

open FiniteModule

variable {P P' : Presentation} {M : FiniteModule} {A A' : Algebra} {d : ℤ} {i : ℕ} {x name : String}

/-- The names are those of the generators. -/
theorem nameOf_start (p : Prime) (P : Presentation) : (P.start p).nameOf d i = .ok x ↔ (P.namesIn d)[i]? = some x := by
  rw [nameOf_eq_ok]
  constructor
  · rintro ⟨l, hl, hx⟩
    obtain rfl : P.namesIn d = l := by
      rw [start, get?_ofList_degrees (fun d => (P.generators.filter (·.1 = d)).map (·.2))] at hl
      split at hl
      · exact Option.some.inj hl
      · cases hl
    exact hx
  · intro hx
    have hi := (List.getElem?_eq_some_iff.mp hx).1
    rw [length_namesIn] at hi
    exact ⟨_, get?_names_start p P (Nat.zero_lt_of_lt hi), hx⟩

theorem labelled_start (p : Prime) (P : Presentation) : (P.start p).Labelled := by
  intro d i
  simp only [nameOf_start, dimension_start, ← P.length_namesIn d]
  constructor
  · exact fun hi => ⟨_, List.getElem?_eq_getElem hi⟩
  · rintro ⟨x, hx⟩
    exact (List.getElem?_eq_some_iff.mp hx).1

/-- The names of what was built are those of its generators. -/
theorem nameOf_of_run_build (h : P.build.run A = (.ok M, A')) : M.nameOf d i = .ok x ↔ (P.namesIn d)[i]? = some x := by
  rw [nameOf, (entered_of_run_build h).names_eq]
  exact nameOf_start A.prime P

theorem labelled_of_run_build (h : P.build.run A = (.ok M, A')) : M.Labelled :=
  (entered_of_run_build h).labelled (labelled_start A.prime P)

theorem WellNamed.distinct_of_run_build (hP : P.WellNamed) (h : P.build.run A = (.ok M, A')) : M.Distinct := by
  intro d e i j x hi hj
  rw [nameOf_of_run_build h] at hi hj
  have hsame := (hP.lookup?_getElem hi).symm.trans (hP.lookup?_getElem hj)
  exact Prod.mk.inj (Option.some.inj hsame)

theorem WellNamed.validNames_of_run_build (hP : P.WellNamed) (h : P.build.run A = (.ok M, A')) : M.ValidNames :=
  fun _ _ _ hx => hP.isName (List.mem_of_getElem? ((nameOf_of_run_build h).mp hx))

/-- Names identify the basis elements of what was built. -/
theorem WellNamed.identified_of_run_build (hP : P.WellNamed) (h : P.build.run A = (.ok M, A')) : M.Identified :=
  (labelled_of_run_build h).identified_iff.mpr (hP.distinct_of_run_build h)

/-- The names are those that the calls gave. -/
theorem mem_of_run_buildFrom {gens : List (String × ℤ)} {texts : List String} (h : (buildFrom name gens texts).run A = (.ok M, A'))
    (hx : M.nameOf d i = .ok x) : (x, d) ∈ gens := by
  obtain ⟨P, B, _, _, hgens, _, _, hbuild⟩ := of_run_buildFrom h
  obtain ⟨g, hg, rfl⟩ := List.mem_map.mp (List.mem_of_getElem? ((nameOf_of_run_build hbuild).mp hx))
  obtain rfl : g.1 = d := by simpa using List.of_mem_filter hg
  have hmem := List.mem_of_mem_filter hg
  rw [hgens] at hmem
  obtain ⟨y, hy, rfl⟩ := List.mem_map.mp hmem
  exact hy

/-- The generators of a document are declared one after the other. -/
theorem WellNamed.of_run_members (hP : P.WellNamed) {members : List (String × Json)} {fault : String → Failure}
    (h : (members.foldlM (fun P x => match x.2.signedWord? with
      | none => throw (fault x.1)
      | some d => Growing.read fun _ => P.addGenerator d x.1) P : Growing Presentation).run A = (.ok P', A')) : P'.WellNamed ∧ A' = A := by
  induction members generalizing P with
  | nil =>
    obtain ⟨hP', rfl⟩ := Prod.mk.inj h
    obtain rfl := Except.ok.inj hP'
    exact ⟨hP, rfl⟩
  | cons x members ih =>
    rw [List.foldlM_cons] at h
    obtain ⟨P₁, B, hadd, hrest⟩ := run_bind_eq_ok.mp h
    split at hadd
    · cases hadd
    · obtain ⟨hadded, rfl⟩ := run_read_eq_ok.mp hadd
      exact ih (hP.addGenerator hadded).1 hrest

/-- What is made of a document was built from generators of distinct names. -/
theorem of_run_ofJson {j : Json} (h : (ofJson j).run A = (.ok M, A')) :
    ∃ (P : Presentation) (B : Algebra), P.WellNamed ∧ B.prime = A.prime ∧ P.build.run B = (.ok M, A') := by
  rw [ofJson] at h
  split at h
  · cases h
  · next document _ =>
    rw [run_bind, run_get] at h
    simp only at h
    have hrest : ∀ fault : String → Failure, (do
        let P ← document.generators.foldlM (fun P x => match x.2.signedWord? with
          | none => throw (fault x.1)
          | some d => Growing.read fun _ => P.addGenerator d x.1) (empty (document.name.getD ""))
        let P ← document.actions.foldlM addAction P
        P.build : Growing FiniteModule).run A = (.ok M, A') →
        ∃ (P : Presentation) (B : Algebra), P.WellNamed ∧ B.prime = A.prime ∧ P.build.run B = (.ok M, A') := by
      intro fault h
      obtain ⟨P₁, B, hgens, h⟩ := run_bind_eq_ok.mp h
      obtain ⟨P, C, hactions, hbuild⟩ := run_bind_eq_ok.mp h
      have hnone : (empty (document.name.getD "")).WellNamed := ⟨fun g hg => absurd hg List.not_mem_nil, List.nodup_nil⟩
      obtain ⟨hnamed, rfl⟩ := hnone.of_run_members hgens
      obtain ⟨_, hgenerators, hfollows⟩ := of_run_addActions hactions
      exact ⟨P, C, ⟨by rw [hgenerators]; exact hnamed.valid, by rw [hgenerators]; exact hnamed.distinct⟩, hfollows.prime_eq.symm, hbuild⟩
    let fault (name : String) : Failure := .refused (.malformed j.compact (.badDegree name))
    split at h
    · split at h
      · cases h
      · exact hrest fault h
    · exact hrest fault h

end Presentation
end Steenrod
