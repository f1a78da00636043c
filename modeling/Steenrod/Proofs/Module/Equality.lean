import Steenrod.Proofs.Module.Portions
/-!
When two finite modules count as equal. The dimensions are compared in all degrees of both, the names and the stored actions only as far as the
table of the first goes. Main statements: the tables that are made over one algebra can be compared whatever their ranges are, and a comparison
finds no difference exactly if the modules have the same dimensions, the same names and the same answers to the operations of the algebra.
-/
namespace Steenrod

open Vec Milnor Growing

section Lists

variable {α β : Type} {l : List α}

/-- A list of steps that all answer: the answers have a property exactly if what they answer has. -/
theorem Result.exists_mapM_forall_iff {f : α → Result β} {P : β → Prop} {Q : α → Prop} (h : ∀ x ∈ l, ∃ y, f x = .ok y ∧ (P y ↔ Q x)) :
    ∃ ys, l.mapM f = .ok ys ∧ ((∀ y ∈ ys, P y) ↔ ∀ x ∈ l, Q x) := by
  obtain ⟨ys, hys, hall⟩ := Result.exists_mapM_forall₂ h
  refine ⟨ys, hys, ?_⟩
  clear hys h
  induction hall with
  | nil => simp
  | cons hiff _ ih => rw [List.forall_mem_cons, List.forall_mem_cons, hiff, ih]

theorem Text.join_eq_empty_iff {texts : List String} : String.join texts = "" ↔ ∀ text ∈ texts, text = "" := by
  induction texts with
  | nil => simp
  | cons text texts ih => rw [String.join_cons, String.append_eq_empty_iff, ih, List.forall_mem_cons]

end Lists

namespace FiniteModule

variable {p : Prime} {L M N : FiniteModule} {A A' : Algebra} {a : Operation} {d e : ℤ} {i : ℕ}

section Dimensions

/-- The dimensions are compared in all degrees where one of the modules may have some. -/
theorem dimensionDifference?_eq_none_iff : M.dimensionDifference? N = none ↔ ∀ d, M.dimension d = N.dimension d := by
  have hnone : M.dimensionDifference? N = none ↔
      (GradedModule.degreesBetween (min M.minDegree N.minDegree) (max M.maxDegree N.maxDegree)).filter
        (fun t => M.dimension t ≠ N.dimension t) = [] := by
    rw [dimensionDifference?]
    simp only
    split
    · next h => exact ⟨fun _ => List.isEmpty_iff.mp h, fun _ => rfl⟩
    · next h => exact ⟨fun hsome => absurd hsome (Option.some_ne_none _), fun hnil => absurd (List.isEmpty_iff.mpr hnil) h⟩
  rw [hnone, List.filter_eq_nil_iff]
  constructor
  · intro h d
    by_cases hd : d ∈ GradedModule.degreesBetween (min M.minDegree N.minDegree) (max M.maxDegree N.maxDegree)
    · simpa using h d hd
    · rw [GradedModule.mem_degreesBetween, not_and_or, not_le, not_le] at hd
      rcases hd with hlow | hhigh
      · rw [dimension_of_lt (by omega), dimension_of_lt (by omega)]
      · rw [dimension_of_maxDegree_lt (by omega), dimension_of_maxDegree_lt (by omega)]
  · intro h d _
    simp [h d]

end Dimensions

section Names

/-- Where the dimensions are the same, names of the second module that the first has no degree for cannot differ. -/
theorem nameDifference?_eq_none_iff (hM : M.Labelled) (hN : N.Labelled) (hdims : ∀ d, M.dimension d = N.dimension d) :
    M.nameDifference? N = none ↔ ∀ d, M.namesIn d = N.namesIn d := by
  rw [nameDifference?, List.findSome?_eq_none_iff]
  constructor
  · intro h d
    cases hget : M.names.get? d with
    | some names =>
      have hd := h (d, names) (Graded.mem_pairs.mpr hget)
      simp only at hd
      split at hd
      · next heq => rw [namesIn, hget, Option.getD_some, heq, namesIn]
      · cases hd
    | none =>
      have hnil : M.namesIn d = [] := by rw [namesIn, hget, Option.getD_none]
      have hlength : (N.namesIn d).length = 0 := by rw [hN.length_namesIn, ← hdims, ← hM.length_namesIn, hnil, List.length_nil]
      rw [hnil, List.length_eq_zero_iff.mp hlength]
  · intro h x hx
    have hget := Graded.mem_pairs.mp hx
    have hd := h x.1
    rw [namesIn, hget, Option.getD_some, namesIn] at hd
    simp only
    rw [if_pos hd]

end Names

section Rows

/-- Entering actions changes neither where a row begins nor which operations it is for. -/
theorem Entered.of_get?_actions (h : Entered (frame p M) M) {outputs : Graded (Array (Array Vec))} (hrow : M.actions.get? d = some outputs) :
    outputs.minDegree = d ∧ ∀ ⦃e operations⦄, outputs.get? e = some operations → e ≠ d → d < e ∧ operations.size = dim p (e - d) := by
  have hshape := congrArg (·.get? d) h.shape_eq
  simp only [shape, Graded.get?_map] at hshape
  rw [hrow, Option.map_some, eq_comm, Option.map_eq_some_iff] at hshape
  obtain ⟨row, hget, hsizes⟩ := hshape
  obtain rfl := eq_zeroRow_of_get? (show (zeroTable p M.name M.dims).actions.get? d = some row from hget)
  refine ⟨(congrArg (fun sizes : Graded (Array ℕ) => sizes.minDegree) hsizes).symm, fun e operations hcell he => ?_⟩
  have hcells := congrArg (·.get? e) hsizes
  simp only [Graded.get?_map] at hcells
  rw [hcell, Option.map_some, Option.map_eq_some_iff] at hcells
  obtain ⟨zeros, hzeros, hcounts⟩ := hcells
  obtain ⟨hlt, rfl⟩ := of_get?_zeroRow hzeros he
  have hcount := congrArg Array.size hcounts
  rw [Array.size_map, Array.size_map, Array.size_replicate] at hcount
  exact ⟨hlt, hcount.symm⟩

end Rows

/-- A table over an algebra that is computed as far as the table goes: as it is laid out, with reduced entries, and with a name for each basis
element. -/
structure Tabled (A : Algebra) (M : FiniteModule) : Prop where
  entered : Entered (frame A.prime M) M
  labelled : M.Labelled
  stores : M.Stores A.prime
  computed : M.maxDegree - M.minDegree < A.computed

/-- The tables have the same entries, as far as the first of them goes. -/
def StoresAlike (p : Prime) (M N : FiniteModule) : Prop :=
  ∀ ⦃a : Operation⦄ ⦃d : ℤ⦄ ⦃i : ℕ⦄, a.IsBasis p → 0 < a.degree → i < M.dimension d → 0 < M.dimension (d + a.degree) →
    M.action? a d i = N.action? a d i

section Actions

/-- An operation that leads from one basis element to the degree of another is computed. -/
theorem Tabled.degree_lt (h : Tabled A M) (hi : i < M.dimension d) (hroom : 0 < M.dimension (d + a.degree)) : a.degree < A.computed := by
  have hinput := degrees_of_lt_dimension hi
  have houtput := degrees_of_lt_dimension hroom
  have hcomputed := h.computed
  omega

/-- The operations that a cell of the table is for lead from its row to its degree. -/
theorem of_cell (M : FiniteModule) {k : ℕ} (hlt : d < e) (hk : k < dim p (e - d)) (hroom : M.dimension e ≠ 0) :
    Operation.IsBasis p ⟨e - d, k⟩ ∧ 0 < e - d ∧ 0 < M.dimension (d + (e - d)) :=
  ⟨Representation.isBasis_of_lt hk, sub_pos.mpr hlt, (add_sub_cancel d e).symm ▸ Nat.pos_of_ne_zero hroom⟩

theorem Labelled.exists_elementText (h : M.Labelled) {v : Vec} (hv : v.size = M.dimension d) (A : Algebra) :
    ∃ text, M.elementText A d v = .ok text := by
  obtain ⟨terms, hterms, _⟩ := Result.exists_mapM_forall₂ (R := fun _ _ => True) (l := v.nonzero)
    (f := fun x => do
      let name ← M.nameOf d x.1
      (Except.ok (if x.2 = 1 then name else s!"{x.2} {name}") : Result String))
    (fun x hx => by
      obtain ⟨name, hname⟩ := h.mp (hv ▸ lt_size_of_mem_nonzero hx)
      exact ⟨_, by rw [hname, Result.ok_bind], trivial⟩)
  exact ⟨_, Result.bind_eq_ok.mpr ⟨terms, hterms, rfl⟩⟩

/-- Two entries are compared, and where they differ something is said. -/
theorem exists_actionDifference (hM : Tabled A M) (hN : Tabled A N) (hdims : ∀ d, M.dimension d = N.dimension d) (ha : a.IsBasis A.prime)
    (hpos : 0 < a.degree) (hi : i < M.dimension d) (hroom : 0 < M.dimension (d + a.degree)) :
    ∃ text, actionDifference A A.prime M N a d i = .ok text ∧ (text = "" ↔ M.action? a d i = N.action? a d i) := by
  obtain ⟨v, hv, hvp⟩ := hM.stores ha hpos hi hroom
  obtain ⟨w, hw, hwp⟩ := hN.stores ha hpos (hdims d ▸ hi) (hdims (d + a.degree) ▸ hroom)
  obtain ⟨x, hx, _⟩ := A.element_of_isBasis ha (hM.degree_lt hi hroom)
  obtain ⟨name, hname⟩ := hM.labelled.mp hi
  obtain ⟨left, hleft⟩ := hM.labelled.exists_elementText hvp.size_eq A
  obtain ⟨right, hright⟩ := hM.labelled.exists_elementText (hwp.size_eq.trans (hdims _).symm) A
  have hoperation : A.nameOf a = .ok (x.name A.prime) := by rw [Algebra.nameOf, hx, Result.ok_bind]
  simp only [actionDifference]
  rw [hv, hw, Result.ofOption_some, Result.ok_bind, Result.ofOption_some, Result.ok_bind]
  by_cases heq : v = w
  · exact ⟨"", if_pos ⟨trivial, heq⟩, fun _ => congrArg some heq, fun _ => rfl⟩
  · rw [if_neg fun h => heq h.2, hoperation, Result.ok_bind, hname, Result.ok_bind, hleft, Result.ok_bind, hright, Result.ok_bind]
    refine ⟨_, rfl, fun hempty => ?_, fun hsame => absurd (Option.some.inj hsame) heq⟩
    simp only [String.append_eq_empty_iff, and_assoc] at hempty
    exact absurd hempty.1 (by decide)

/-- The texts for the operations from one degree to another. -/
def cellDifferences (A : Algebra) (q : Prime) (M N : FiniteModule) (d : ℤ) (y : ℤ × Array (Array Vec)) : Result (List (List String)) :=
  if M.dimension y.1 = 0 then .ok []
  else
    (List.range y.2.size).mapM fun k =>
      (List.range (M.dimension d)).mapM fun i => actionDifference A q M N ⟨y.1 - d, k⟩ d i

theorem actionDifferences_eq (A : Algebra) (q : Prime) (M N : FiniteModule) : actionDifferences A q M N = (do
    let texts ← M.actions.pairs.mapM fun x => (x.2.pairs.drop 1).mapM (cellDifferences A q M N x.1)
    .ok (String.join texts.flatten.flatten.flatten)) := rfl

/-- The same entries between two degrees. -/
def CellAlike (M N : FiniteModule) (d : ℤ) (y : ℤ × Array (Array Vec)) : Prop :=
  M.dimension y.1 ≠ 0 → ∀ k ∈ List.range y.2.size, ∀ i ∈ List.range (M.dimension d),
    M.action? ⟨y.1 - d, k⟩ d i = N.action? ⟨y.1 - d, k⟩ d i

theorem exists_cellDifferences (hM : Tabled A M) (hN : Tabled A N) (hdims : ∀ d, M.dimension d = N.dimension d) {y : ℤ × Array (Array Vec)}
    (hlt : d < y.1) (hsize : y.2.size = dim A.prime (y.1 - d)) :
    ∃ texts, cellDifferences A A.prime M N d y = .ok texts ∧ ((∀ l ∈ texts, ∀ text ∈ l, text = "") ↔ CellAlike M N d y) := by
  rw [cellDifferences, CellAlike]
  split
  · next hzero => exact ⟨[], rfl, by simp [hzero]⟩
  · next hroom =>
    obtain ⟨texts, htexts, hiff⟩ := Result.exists_mapM_forall_iff (l := List.range y.2.size) (P := fun l => ∀ text ∈ l, text = "")
      (f := fun k => (List.range (M.dimension d)).mapM fun i => actionDifference A A.prime M N ⟨y.1 - d, k⟩ d i)
      (Q := fun k => ∀ i ∈ List.range (M.dimension d), M.action? ⟨y.1 - d, k⟩ d i = N.action? ⟨y.1 - d, k⟩ d i)
      (fun k hk => Result.exists_mapM_forall_iff fun i hi => by
        obtain ⟨hbasis, hpos, hroom'⟩ := M.of_cell hlt (hsize ▸ List.mem_range.mp hk) hroom
        exact exists_actionDifference hM hN hdims hbasis hpos (List.mem_range.mp hi) hroom')
    exact ⟨texts, htexts, hiff.trans ⟨fun h _ => h, fun h => h hroom⟩⟩

/-- Something is said of the entries if and only if some of them differ. -/
theorem exists_actionDifferences (hM : Tabled A M) (hN : Tabled A N) (hdims : ∀ d, M.dimension d = N.dimension d) :
    ∃ text, actionDifferences A A.prime M N = .ok text ∧ (text = "" ↔ StoresAlike A.prime M N) := by
  obtain ⟨texts, htexts, hiff⟩ := Result.exists_mapM_forall_iff (l := M.actions.pairs)
    (f := fun x => (x.2.pairs.drop 1).mapM (cellDifferences A A.prime M N x.1)) (P := fun row => ∀ cell ∈ row, ∀ l ∈ cell, ∀ text ∈ l, text = "")
    (Q := fun x => ∀ y ∈ x.2.pairs.drop 1, CellAlike M N x.1 y) (fun x hx => Result.exists_mapM_forall_iff fun y hy => by
      obtain ⟨hfirst, hcells⟩ := hM.entered.of_get?_actions (Graded.mem_pairs.mp hx)
      obtain ⟨hne, hget⟩ := Graded.mem_drop_pairs.mp hy
      obtain ⟨hlt, hsize⟩ := hcells hget (hfirst ▸ hne)
      exact exists_cellDifferences hM hN hdims hlt hsize)
  refine ⟨_, by rw [actionDifferences_eq, htexts, Result.ok_bind], ?_⟩
  rw [Text.join_eq_empty_iff, List.forall_mem_flatten, List.forall_mem_flatten, List.forall_mem_flatten, hiff]
  constructor
  · intro h a d i ha hpos hi hroom
    -- the entry stands in a row of the table, which is read from its second cell on
    obtain ⟨v, hv, _⟩ := hM.stores ha hpos hi hroom
    rw [action?_eq] at hv
    obtain ⟨inputs, hv, _⟩ := Option.bind_eq_some_iff.mp hv
    obtain ⟨operations, hv, hinputs⟩ := Option.bind_eq_some_iff.mp hv
    obtain ⟨outputs, hrow, hcell⟩ := Option.bind_eq_some_iff.mp hv
    obtain ⟨hfirst, _⟩ := hM.entered.of_get?_actions hrow
    have hvisited : (d + a.degree, operations) ∈ outputs.pairs.drop 1 := Graded.mem_drop_pairs.mpr ⟨by omega, hcell⟩
    have hk := (Array.getElem?_eq_some_iff.mp hinputs).1
    have halike := h (d, outputs) (Graded.mem_pairs.mpr hrow) (d + a.degree, operations) hvisited hroom.ne' a.index (List.mem_range.mpr hk) i
      (List.mem_range.mpr hi)
    simp only [add_sub_cancel_left] at halike
    exact halike
  · intro h x hx y hy hroom k hk i hi
    obtain ⟨hfirst, hcells⟩ := hM.entered.of_get?_actions (Graded.mem_pairs.mp hx)
    obtain ⟨hne, hget⟩ := Graded.mem_drop_pairs.mp hy
    obtain ⟨hlt, hsize⟩ := hcells hget (hfirst ▸ hne)
    obtain ⟨hbasis, hpos, hroom'⟩ := M.of_cell hlt (hsize ▸ List.mem_range.mp hk) hroom
    exact h hbasis hpos (List.mem_range.mp hi) hroom'

end Actions

/-- Two modules are the same in all that can be asked of them over the algebra: in dimensions, in names, and in how each operation acts on each
basis element. The ranges of degrees that their tables are laid out for do not count. -/
structure IsSame (A : Algebra) (M N : FiniteModule) : Prop where
  dimension_eq : ∀ d, M.dimension d = N.dimension d
  namesIn_eq : ∀ d, M.namesIn d = N.namesIn d
  actOnBasis_eq : ∀ c a d i, M.actOnBasis A A.prime c a d i = N.actOnBasis A A.prime c a d i

namespace IsSame

theorem symm (h : IsSame A M N) : IsSame A N M :=
  ⟨fun d => (h.dimension_eq d).symm, fun d => (h.namesIn_eq d).symm, fun c a d i => (h.actOnBasis_eq c a d i).symm⟩

theorem trans (h : IsSame A L M) (h' : IsSame A M N) : IsSame A L N :=
  ⟨fun d => (h.dimension_eq d).trans (h'.dimension_eq d), fun d => (h.namesIn_eq d).trans (h'.namesIn_eq d),
    fun c a d i => (h.actOnBasis_eq c a d i).trans (h'.actOnBasis_eq c a d i)⟩

end IsSame

section Same

/-- An operation of positive degree acts by what is stored. -/
theorem Tabled.actOnBasis_eq (h : Tabled A M) (ha : a.IsBasis A.prime) (hpos : 0 < a.degree) (hi : i < M.dimension d)
    (hroom : 0 < M.dimension (d + a.degree)) {v : Vec} (hv : M.action? a d i = some v) (c : ℕ) :
    M.actOnBasis A A.prime c a d i = .ok ((Vec.zero (M.dimension (d + a.degree))).add A.prime c v) := by
  rw [actOnBasis, Algebra.dimension_of_lt (h.degree_lt hi hroom), Result.ok_bind, decide_eq_true ha.index_lt, require_true, Result.ok_bind,
    decide_eq_true hi, require_true, Result.ok_bind]
  simp only
  rw [if_neg hroom.ne', if_neg hpos.ne', hv, Result.ofOption_some, Result.ok_bind]

/-- Tables act alike, whatever is asked of them, exactly if their entries are alike. -/
theorem storesAlike_iff (hM : Tabled A M) (hN : Tabled A N) (hdims : ∀ d, M.dimension d = N.dimension d) :
    StoresAlike A.prime M N ↔ ∀ c a d i, M.actOnBasis A A.prime c a d i = N.actOnBasis A A.prime c a d i := by
  constructor
  · intro h c a d i
    simp only [actOnBasis, hdims]
    cases hcount : A.dimension a.degree with
    | error e => rfl
    | ok count =>
      obtain ⟨rfl, _⟩ := Algebra.dimension_eq_ok hcount
      simp only [Result.ok_bind]
      by_cases hk : a.index < dim A.prime a.degree
      · by_cases hi : i < N.dimension d
        · rw [decide_eq_true hk, decide_eq_true hi]
          simp only [require_true, Result.ok_bind]
          split
          · rfl
          · next hroom =>
            split
            · rfl
            · next hdegree =>
              have ha : a.IsBasis A.prime := Representation.isBasis_of_lt hk
              have hnonneg := ha.nonneg
              rw [h ha (by omega) (hdims d ▸ hi) (hdims (d + a.degree) ▸ Nat.pos_of_ne_zero hroom)]
        · rw [decide_eq_false hi, require_false]
          rfl
      · rw [decide_eq_false hk, require_false]
        rfl
  · intro h a d i ha hpos hi hroom
    obtain ⟨v, hv, hvp⟩ := hM.stores ha hpos hi hroom
    obtain ⟨w, hw, hwp⟩ := hN.stores ha hpos (hdims d ▸ hi) (hdims (d + a.degree) ▸ hroom)
    have hsame := h 1 a d i
    rw [hM.actOnBasis_eq ha hpos hi hroom hv, hN.actOnBasis_eq ha hpos (hdims d ▸ hi) (hdims (d + a.degree) ▸ hroom) hw, ← hdims] at hsame
    rw [← hdims] at hwp
    have hcoords := congrArg (·.coords A.prime) (Except.ok.inj hsame)
    simp only [Proper.zero.coords_add 1 hvp, Proper.zero.coords_add 1 hwp, Nat.cast_one, one_smul, add_right_inj] at hcoords
    rw [hv, hw, hvp.ext hwp hcoords]

/-- The comparison gets to its end, and finds no difference exactly if there is none. -/
theorem Tabled.exists_difference? (hM : Tabled A M) (hN : Tabled A N) :
    ∃ r, M.difference? A A.prime N = .ok r ∧ (r = none ↔ IsSame A M N) := by
  rw [difference?]
  cases hdims : M.dimensionDifference? N with
  | some text =>
    refine ⟨some text, rfl, fun h => absurd h (Option.some_ne_none text), fun h => ?_⟩
    rw [dimensionDifference?_eq_none_iff.mpr h.dimension_eq] at hdims
    cases hdims
  | none =>
    have hdims := dimensionDifference?_eq_none_iff.mp hdims
    cases hnames : M.nameDifference? N with
    | some text =>
      refine ⟨some text, rfl, fun h => absurd h (Option.some_ne_none text), fun h => ?_⟩
      rw [(nameDifference?_eq_none_iff hM.labelled hN.labelled hdims).mpr h.namesIn_eq] at hnames
      cases hnames
    | none =>
      have hnames := (nameDifference?_eq_none_iff hM.labelled hN.labelled hdims).mp hnames
      have hsame : StoresAlike A.prime M N ↔ IsSame A M N :=
        ⟨fun h => ⟨hdims, hnames, (storesAlike_iff hM hN hdims).mp h⟩, fun h => (storesAlike_iff hM hN hdims).mpr h.actOnBasis_eq⟩
      simp only
      split
      · next hshortcut =>
        -- tables that are equal as a whole hold the same entries
        refine ⟨none, rfl, fun _ => hsame.mp fun a d i _ _ _ _ => ?_, fun _ => rfl⟩
        rw [FiniteModule.action?_eq, FiniteModule.action?_eq, hshortcut.2]
      · obtain ⟨text, htext, hiff⟩ := exists_actionDifferences hM hN hdims
        refine ⟨_, by rw [htext, Result.ok_bind], ?_⟩
        rw [← hsame, ← hiff, ← String.isEmpty_iff]
        split
        · next hempty => exact ⟨fun _ => hempty, fun _ => rfl⟩
        · next hempty => exact ⟨fun h => absurd h (Option.some_ne_none _), fun h => absurd h hempty⟩

end Same

section Origins

variable {P : Presentation}

/-- Closing a table keeps it complete, whatever the prime is. -/
theorem stores_of_run_close (hA : A.prime = p) (hM : M.Stores p) (h : M.close.run A = (.ok N, A')) : N.Stores p :=
  close_invariant hA hM h fun _ hB hN hextend => (of_run_extendActions hB hN hextend).2

/-- Building leaves the algebra computed as far as the module goes. -/
theorem computed_of_run_build (h : P.build.run A = (.ok M, A')) : Follows A A' ∧ P.maxDegree + 1 - P.minDegree < A'.computed := by
  rw [Presentation.build, run_bind, run_get] at h
  simp only at h
  obtain ⟨_, A₁, hrequire, h₁⟩ := run_bind_eq_ok.mp h
  obtain ⟨_, rfl⟩ := run_read_eq_ok.mp hrequire
  obtain ⟨declared, A₂, hread, h₂⟩ := run_bind_eq_ok.mp h₁
  obtain ⟨_, rfl⟩ := run_read_eq_ok.mp hread
  obtain ⟨_, A₃, hensure, h₃⟩ := run_bind_eq_ok.mp h₂
  obtain ⟨M₀, A₄, hunderlying, h₄⟩ := run_bind_eq_ok.mp h₃
  obtain ⟨_, hfollows, hcomputed⟩ := Presentation.of_run_underlying hunderlying
  have hrest : Follows A₄ A' := by
    refine OnlyExtends.follows ?_ h₄
    exact (Presentation.onlyExtends_sort declared).bind fun sorted => (onlyExtends_close _).bind fun M =>
      (onlyExtends_read _).bind fun _ => onlyExtends_pure M
  have hle := hrest.computed_le
  exact ⟨((onlyExtends_ensure _).follows hensure).trans (hfollows.trans hrest), by omega⟩

/-- What is built is a table. -/
theorem tabled_of_run_build (h : P.build.run A = (.ok M, A')) : Tabled A' M := by
  obtain ⟨hfollows, hcomputed⟩ := computed_of_run_build h
  have hprime : A'.prime = A.prime := hfollows.prime_eq.symm
  have hentered := Presentation.entered_of_run_build h
  obtain ⟨hmin, hmax⟩ := Presentation.degrees_of_run_build h
  obtain ⟨declared, sorted, hsteps⟩ := Presentation.steps_of_run_build h
  obtain ⟨B, C, hB, _, hclose⟩ := hsteps.closes
  refine ⟨?_, Presentation.labelled_of_run_build h, ?_, by omega⟩
  · rwa [hprime, hentered.frame_eq rfl]
  · rw [hprime]
    exact stores_of_run_close hB hsteps.entered_dims.1 hclose

/-- What is cut off is a table. -/
theorem tabled_of_run_truncate {K : GradedModule} {top : ℤ} (h : (truncate K top).run A = (.ok M, A')) : Tabled A' M := by
  have hprime : A'.prime = A.prime := ((onlyExtends_truncate K top).follows h).prime_eq.symm
  refine ⟨hprime ▸ (entered_of_run_truncate h).2, labelled_of_run_truncate h, hprime ▸ stores_of_run_truncate h, ?_⟩
  obtain ⟨dims, B, hread, h₁⟩ := run_bind_eq_ok.mp ((congrArg (·.run A) (truncate_eq K top)).symm.trans h)
  obtain ⟨hdims, rfl⟩ := run_read_eq_ok.mp hread
  obtain ⟨M₀, C, hzero, h₂⟩ := run_bind_eq_ok.mp h₁
  obtain ⟨names, D, hread', h₃⟩ := run_bind_eq_ok.mp h₂
  obtain ⟨_, rfl⟩ := run_read_eq_ok.mp hread'
  obtain ⟨_, rfl⟩ := run_read_eq_ok.mp h₃
  obtain ⟨_, _, hcomputed⟩ := of_run_zeroAction hzero
  obtain ⟨dims', _, hdims', _, heq, _⟩ := of_run_truncate h
  obtain rfl := Except.ok.inj (hdims.symm.trans hdims')
  rw [minDegree, maxDegree, heq, Graded.maxDegree]
  omega

/-- The finite modules over the algebra `A`, as it is by now, that have been built, read from documents or cut off. -/
inductive Produced (A : Algebra) : FiniteModule → Prop
  | build {P : Presentation} {B C : Algebra} {M : FiniteModule} : P.build.run B = (.ok M, C) → Follows C A → Produced A M
  | ofJson {j : Json} {B C : Algebra} {M : FiniteModule} : (ofJson j).run B = (.ok M, C) → Follows C A → Produced A M
  | truncate {K : GradedModule} {top : ℤ} {B C : Algebra} {M : FiniteModule} : (truncate K top).run B = (.ok M, C) → Follows C A → Produced A M

theorem Tabled.mono (h : Tabled A M) (hfollows : Follows A A') : Tabled A' M := by
  have hle := hfollows.computed_le
  have hcomputed := h.computed
  exact ⟨hfollows.prime_eq ▸ h.entered, h.labelled, hfollows.prime_eq ▸ h.stores, by omega⟩

theorem Produced.tabled (h : Produced A M) : Tabled A M := by
  cases h with
  | build hrun hfollows => exact (tabled_of_run_build hrun).mono hfollows
  | ofJson hrun hfollows =>
    obtain ⟨P, B, _, _, hbuild⟩ := Presentation.of_run_ofJson hrun
    exact (tabled_of_run_build hbuild).mono hfollows
  | truncate hrun hfollows => exact (tabled_of_run_truncate hrun).mono hfollows

/-- Cells `x` and `y`, and others as they are given. -/
def cells (more : List (ℤ × String)) (actions : List Action) : Presentation := ⟨"C", (0, "x") :: (1, "y") :: more, actions⟩

/-- The relation that `Sq1 x` is `y`. -/
def attaching : Action := ⟨⟨1, 0⟩, "x", [(1, "y")], "Sq1 x = y"⟩

end Origins

end FiniteModule
end Steenrod
