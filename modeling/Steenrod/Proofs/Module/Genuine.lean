import Steenrod.Proofs.Module.Accepted
/-!
Genuine modules are accepted. Main statements: in a finite graded vector space with operators that satisfy the laws of a module, the
decompositions and the relations between the generators hold; closing a table that has the actions of the generators fills in the
operators and finds nothing wrong; and a presentation that states all non-zero actions of generators, and nothing that is not
true, is accepted and gives that module.
-/
namespace Steenrod

open Vec Milnor

/-- The coordinates of a sum of products. -/
def termCoords (p : Prime) (terms : List Term) : ℕ → p.Field :=
  (terms.map fun t => (t.coefficient : p.Field) • mul p t.left t.right).sum

namespace Milnor

variable {p : Prime} {terms : List Term} {D : ℤ}

theorem termCoords_cons (t : Term) (terms : List Term) :
    termCoords p (t :: terms) = (t.coefficient : p.Field) • mul p t.left t.right + termCoords p terms := by
  simp [termCoords]

theorem termCoords_mem (hterms : ∀ t ∈ terms, t.LiesIn p D) : termCoords p terms ∈ p.space (dim p D) := by
  refine list_sum_mem fun f hf => ?_
  obtain ⟨t, ht, rfl⟩ := List.mem_map.mp hf
  have hmem := mul_mem p t.left t.right
  rw [(hterms t ht).degree_eq] at hmem
  exact Submodule.smul_mem _ _ hmem

theorem denote_termCoords (hp : p.val < 1073741824) (hterms : ∀ t ∈ terms, t.LiesIn p D) (ht : D < trackedBelow) :
    (Faithful.operators (by omega) trackedBelow : Operators p trackedBelow (Faithful p)).denote D (termCoords p terms) =
      termSum (p := p) (Faithful.operators (by omega) trackedBelow : Operators p trackedBelow (Faithful p)).operator terms := by
  rw [termCoords, map_list_sum, List.map_map, termSum]
  refine congrArg List.sum (List.map_congr_left fun t hmem => ?_)
  obtain ⟨hleft, hright, hdegree⟩ := hterms t hmem
  have hmul := Operators.denote_mul (Faithful.operators (by omega) trackedBelow) hp le_rfl hleft hright (by omega)
  rw [hdegree] at hmul
  rw [Function.comp_apply, map_smul, hmul]

theorem termCoords_decomposition (hp : p.val < 1073741824) {a : Operation} (ha : a.IsBasis p) (hpos : 0 < a.degree)
    (ht : a.degree < trackedBelow) : termCoords p (decomposition p a) = Pi.single a.index 1 := by
  have hdecomposes := decomposes_decomposition hp ha hpos ht
  let O : Operators p trackedBelow (Faithful p) := Faithful.operators (by omega) trackedBelow
  have hzero : O.denote a.degree (termCoords p (decomposition p a) - Pi.single a.index 1) = 0 := by
    rw [map_sub, denote_termCoords hp hdecomposes.liesIn ht, hdecomposes.holds O le_rfl ht, O.denote_single ha, sub_self]
  exact sub_eq_zero.mp
    (Faithful.denote_injective hp ht (Submodule.sub_mem _ (termCoords_mem hdecomposes.liesIn) (space_single ha)) hzero)

theorem termCoords_relation (hp : p.val < 1073741824) (hrel : IsRelation p D terms) (ht : D < trackedBelow) : termCoords p terms = 0 := by
  let O : Operators p trackedBelow (Faithful p) := Faithful.operators (by omega) trackedBelow
  have hzero : O.denote D (termCoords p terms) = 0 := by
    rw [denote_termCoords hp (hrel.liesIn hp) ht]
    exact (O.checked hp le_rfl).relation D terms hrel ht
  exact Faithful.denote_injective hp ht (termCoords_mem (hrel.liesIn hp)) hzero

end Milnor

namespace Representation

variable {p : Prime} {X : Representation p} {low high : ℤ}

/-- A finite graded vector space with operators that satisfy the laws of a module, as far as degrees are tracked. -/
structure IsFiniteModule (X : Representation p) (low high : ℤ) : Prop where
  dim_eq_zero : ∀ d, d < low ∨ high < d → X.dim d = 0
  act_mem : ∀ {a : Operation} {d : ℤ} {v : ℕ → p.Field}, a.IsBasis p → v ∈ p.space (X.dim d) →
    X.act a d v ∈ p.space (X.dim (d + a.degree))
  one_act : ∀ {d : ℤ} {v : ℕ → p.Field}, v ∈ p.space (X.dim d) → X.act ⟨0, 0⟩ d v = v
  mul_act : ∀ {a b : Operation} {d : ℤ} {v : ℕ → p.Field}, a.IsBasis p → b.IsBasis p → a.degree + b.degree < 2 ^ 25 - 1 →
    v ∈ p.space (X.dim d) → X.act a (d + b.degree) (X.act b d v) =
      combine (Milnor.dim p (a.degree + b.degree)) (fun k => X.act ⟨a.degree + b.degree, k⟩ d v) (mul p a b)

namespace IsFiniteModule

variable (hX : X.IsFiniteModule low high)

include hX

theorem degrees_of_lt {d : ℤ} {i : ℕ} (hi : i < X.dim d) : low ≤ d ∧ d ≤ high := by
  by_contra hnot
  have := hX.dim_eq_zero d (by omega)
  omega

/-- A sum of products acts by its coordinates. -/
theorem termAct_eq {terms : List Term} {D d : ℤ} (hterms : ∀ t ∈ terms, t.LiesIn p D) (ht : D < trackedBelow) {v : ℕ → p.Field}
    (hv : v ∈ p.space (X.dim d)) :
    FiniteModule.termAct X terms d v = combine (Milnor.dim p D) (fun k => X.act ⟨D, k⟩ d v) (termCoords p terms) := by
  have htracked : ((2 : ℤ) ^ 25 - 1) = trackedBelow := by decide
  induction terms with
  | nil => exact (map_zero _).symm
  | cons t terms ih =>
    obtain ⟨hleft, hright, hdegree⟩ := hterms t (by simp)
    have hmul := hX.mul_act hleft hright (by omega) hv
    rw [hdegree] at hmul
    rw [FiniteModule.termAct_cons, LinearMap.add_apply, LinearMap.smul_apply, LinearMap.comp_apply, hmul,
      ih fun t' ht' => hterms t' (by simp [ht']), termCoords_cons, map_add, map_smul]

theorem termAct_decomposition (hp : p.val < 1073741824) {a : Operation} (ha : a.IsBasis p) (hpos : 0 < a.degree)
    (ht : a.degree < trackedBelow) {d : ℤ} {v : ℕ → p.Field} (hv : v ∈ p.space (X.dim d)) :
    FiniteModule.termAct X (decomposition p a) d v = X.act a d v := by
  rw [hX.termAct_eq (decomposes_decomposition hp ha hpos ht).liesIn ht hv, termCoords_decomposition hp ha hpos ht,
    combine_single ha.index_lt, one_smul]

theorem termAct_relation (hp : p.val < 1073741824) {rel : List Term} {D d : ℤ} (hrel : IsRelation p D rel) (ht : D < trackedBelow)
    {v : ℕ → p.Field} (hv : v ∈ p.space (X.dim d)) : FiniteModule.termAct X rel d v = 0 := by
  rw [hX.termAct_eq (hrel.liesIn hp) ht hv, termCoords_relation hp hrel ht, map_zero]

end IsFiniteModule

end Representation

namespace FiniteModule

open Growing

variable {p : Prime} {X : Representation p} {low high : ℤ} {M M' : FiniteModule} {A : Algebra} {a : Operation} {d : ℤ}

/-- What has been closed is a finite module. -/
theorem Closed.isFiniteModule (h : M.Closed p) (hp : p.val < 1073741824) : (M.rep p).IsFiniteModule M.minDegree M.maxDegree where
  dim_eq_zero d hd := by
    by_contra hne
    have := degrees_of_lt_dimension (M := M) (Nat.pos_of_ne_zero hne)
    omega
  act_mem ha _ := h.stores.act_mem ha _
  one_act hv := rep_one_act hv
  mul_act ha hb ht hv := by
    have htracked : ((2 : ℤ) ^ 25 - 1) = trackedBelow := by decide
    exact h.mul_act hp ha hb (htracked ▸ ht) hv

/-- What the table says of an operation in a degree is what the operators do. -/
def Agrees (X : Representation p) (M : FiniteModule) (a : Operation) (d : ℤ) : Prop :=
  ∀ i < M.dimension d, M.stored p a d i = X.act a d (Pi.single i 1)

theorem single_mem_space {n i : ℕ} (hi : i < n) : (Pi.single i 1 : ℕ → p.Field) ∈ p.space n :=
  fun j hj => Pi.single_eq_of_ne (by omega) _

/-- Where they agree on basis elements, they agree. -/
theorem Agrees.act_eq (h : Agrees X M a d) {v : ℕ → p.Field} (hv : v ∈ p.space (M.dimension d)) :
    (M.rep p).act a d v = X.act a d v := by
  have hsum := combine_units hv
  rw [← hsum, map_combine, map_combine]
  exact combine_congr (fun i hi => (rep_act_single p M a hi).trans (h i hi)) fun _ _ => rfl

/-- There is nothing to agree on where there is no place for it. -/
theorem agrees_of_dimension_eq_zero (hX : X.IsFiniteModule low high) (hdim : M.dimension = X.dim) (ha : a.IsBasis p)
    (hzero : M.dimension (d + a.degree) = 0) : Agrees X M a d := by
  intro i hi
  have hmem := hX.act_mem ha (hdim ▸ single_mem_space hi)
  rw [← hdim, hzero] at hmem
  rw [stored, if_pos hzero]
  exact (funext fun j => hmem j (Nat.zero_le j)).symm

/-- The unit acts as the identity. -/
theorem agrees_unit (hX : X.IsFiniteModule low high) (hdim : M.dimension = X.dim) (ha : a.IsBasis p)
    (hzero : a.degree = 0) : Agrees X M a d := by
  intro i hi
  have hunit := single_mem_space (p := p) hi
  rw [ha.eq_one hzero, ← rep_act_single p M _ hi, rep_one_act hunit, hX.one_act (hdim ▸ hunit)]

/-- The table holds the operators, except from degrees to degrees that are still to be visited. -/
structure Matches (X : Representation p) (M : FiniteModule) (l : List (ℤ × ℤ)) : Prop where
  dim_eq : M.dimension = X.dim
  stores : M.Stores p
  generators : ∀ a d, a.IsBasis p → IsGenerator p a → Agrees X M a d
  visited : ∀ a d, a.IsBasis p → (d, d + a.degree) ∉ l → Agrees X M a d

/-- A sum of products acts as it should if the table holds what it reads. -/
theorem Matches.termAct_eq (hX : X.IsFiniteModule low high) {l : List (ℤ × ℤ)} (h : Matches X M l) {terms : List Term}
    (hterms : ∀ t ∈ terms, t.left.IsBasis p ∧ t.right.IsBasis p) (hright : ∀ t ∈ terms, Agrees X M t.right d)
    (hleft : ∀ t ∈ terms, Agrees X M t.left (d + t.right.degree)) {v : ℕ → p.Field} (hv : v ∈ p.space (M.dimension d)) :
    termAct (M.rep p) terms d v = termAct X terms d v := by
  induction terms with
  | nil => rfl
  | cons t terms ih =>
    have hinner := (hright t (by simp)).act_eq hv
    have hmem := hX.act_mem (hterms t (by simp)).2 (h.dim_eq ▸ hv)
    rw [termAct_cons, termAct_cons, LinearMap.add_apply, LinearMap.add_apply, LinearMap.smul_apply, LinearMap.smul_apply,
      LinearMap.comp_apply, LinearMap.comp_apply, hinner, (hleft t (by simp)).act_eq (h.dim_eq ▸ hmem),
      ih (fun t' ht' => hterms t' (by simp [ht'])) (fun t' ht' => hright t' (by simp [ht'])) fun t' ht' => hleft t' (by simp [ht'])]

/-- Degrees between those that are visited have been visited before. -/
theorem notMem_of_before {x : ℤ × ℤ} {l : List (ℤ × ℤ)} (hl : ∀ y ∈ l, Before x y) {input output : ℤ} (hin : x.1 ≤ input)
    (hout : output ≤ x.2) (hne : (input, output) ≠ x) : (input, output) ∉ x :: l := by
  intro hmem
  rcases List.mem_cons.mp hmem with h | h
  · exact hne h
  · rcases hl _ h with hlt | ⟨_, hlt⟩ <;> simp only at hlt <;> omega

/-- A step changes only what it is for. -/
theorem Agrees.of_changes {S : Operation → ℤ → Prop} (h : Agrees X M a d) (hchanges : ChangesOnly S M M') (hS : ¬S a d) :
    Agrees X M' a d := by
  intro i hi
  rw [hchanges.dimension_eq] at hi
  rw [hchanges.stored_eq hS, h i hi]

/-- The step from one degree to another goes through, and fills in what the operators do. -/
theorem run_closeStep (hp : p.val < 1073741824) (hA : A.prime = p) (hX : X.IsFiniteModule low high) {x : ℤ × ℤ}
    {l : List (ℤ × ℤ)} (hl : ∀ y ∈ l, Before x y) (hlt : x.1 < x.2) (ht : x.2 - x.1 < trackedBelow) (hx : x.2 - x.1 < A.computed)
    (h : Matches X M (x :: l)) :
    ∃ M' A', (M.closeStep x).run A = (.ok M', A') ∧ ChangesOnly (Between x) M M' ∧ Matches X M' l := by
  subst hA
  obtain ⟨M', B, hrun, ⟨hchanges, hstores⟩, hfilled⟩ := run_extendActions hp h.stores hlt ht
  have hfollows := (onlyExtends_extendActions M x.1 x.2).follows hrun
  have hprime : B.prime = A.prime := hfollows.prime_eq.symm
  have hcomputed : A.computed ≤ B.computed := hfollows.computed_le
  have hbetween : ChangesOnly (Between x) M M' := hchanges.mono fun a d hfill => ⟨hfill.1, hfill.2.1⟩
  have hdims : M'.dimension = X.dim := hchanges.dimension_eq.trans h.dim_eq
  -- What a sum of products reads from degrees in between is in the table.
  have hread : ∀ {terms : List Term}, (∀ t ∈ terms, t.LiesIn A.prime (x.2 - x.1)) → ∀ t ∈ terms, 0 < t.left.degree →
      Agrees X M t.right x.1 := by
    intro terms hterms t hmem hpos
    obtain ⟨_, hright, hdegree⟩ := hterms t hmem
    refine h.visited _ _ hright (notMem_of_before hl le_rfl (by omega) fun heq => ?_)
    have := congrArg Prod.snd heq
    simp only at this
    omega
  have hdecompositions : ∀ k, k < dim A.prime (x.2 - x.1) → ¬IsGenerator A.prime ⟨x.2 - x.1, k⟩ →
      Agrees X M' ⟨x.2 - x.1, k⟩ x.1 := by
    intro k hk hgen i hi
    have hbasis : Operation.IsBasis A.prime ⟨x.2 - x.1, k⟩ := ⟨by simp only; omega, hk⟩
    have hd : 0 < x.2 - x.1 := by omega
    have hdecomposes := decomposes_decomposition hp hbasis hd ht
    rw [hchanges.dimension_eq] at hi
    have hunit := single_mem_space (p := A.prime) hi
    have htarget : x.1 + (x.2 - x.1) = x.2 := by omega
    rcases Nat.eq_zero_or_pos (M.dimension x.2) with hzero | hout
    · exact agrees_of_dimension_eq_zero hX hdims hbasis (by rw [hchanges.dimension_eq, htarget, hzero]) i (by rwa [hchanges.dimension_eq])
    · rw [hfilled k i hk hgen hi hout, h.termAct_eq hX (fun t ht => ⟨(hdecomposes.liesIn t ht).left, (hdecomposes.liesIn t ht).right⟩)
        (fun t ht => hread hdecomposes.liesIn t ht (hdecomposes.smaller hgen t ht).1) (fun t ht => ?_) hunit,
        hX.termAct_decomposition hp hbasis hd ‹_› (h.dim_eq ▸ hunit)]
      obtain ⟨hleft, _, hdegree⟩ := hdecomposes.liesIn t ht
      have := (hdecomposes.smaller hgen t ht).2
      refine h.visited _ _ hleft (notMem_of_before hl (by omega) (by simp only at hdegree; omega) fun heq => ?_)
      have := congrArg Prod.fst heq
      simp only at this
      omega
  have hmatches : Matches X M' l := by
    refine ⟨hdims, hstores, fun a d ha hgen => ?_, fun a d ha hnot => ?_⟩
    · exact (h.generators a d ha hgen).of_changes hchanges fun hfill => hfill.2.2 hgen
    · by_cases hx : (d, d + a.degree) = x
      · obtain rfl : d = x.1 := congrArg Prod.fst hx
        have hdegree : a.degree = x.2 - x.1 := by
          have := congrArg Prod.snd hx
          simp only at this
          omega
        by_cases hgen : IsGenerator A.prime a
        · exact (h.generators a _ ha hgen).of_changes hchanges fun hfill => hfill.2.2 hgen
        · obtain ⟨e, k⟩ := a
          obtain rfl : e = x.2 - x.1 := hdegree
          exact hdecompositions k ha.index_lt hgen
      · refine (h.visited a d ha fun hmem => ?_).of_changes hchanges fun hfill => hx ?_
        · rcases List.mem_cons.mp hmem with heq | hmem
          · exact hx heq
          · exact hnot hmem
        · obtain ⟨rfl, hdegree, _⟩ := hfill
          exact Prod.ext rfl (by simp only; omega)
  have hrelations : RelationsHold A.prime M' x.1 x.2 := by
    intro rel hrel i hi
    have hliesIn := hrel.liesIn hp
    have hunit := single_mem_space (p := A.prime) hi
    rw [hmatches.termAct_eq hX (fun t ht => ⟨(hliesIn t ht).left, (hliesIn t ht).right⟩) (fun t hmem => ?_) (fun t hmem => ?_) hunit,
      hX.termAct_relation hp hrel ht (hdims ▸ hunit)]
    · refine (hread hliesIn t hmem (hrel.left_pos t hmem)).of_changes hchanges fun hfill => ?_
      have := hfill.2.1
      have := hrel.left_pos t hmem
      have := (hliesIn t hmem).degree_eq
      omega
    · have := (hliesIn t hmem).degree_eq
      have := (hliesIn t hmem).right.nonneg
      refine hmatches.visited _ _ (hliesIn t hmem).left fun hmem' => ?_
      rcases hl _ hmem' with hbefore | ⟨_, hbefore⟩ <;> simp only at hbefore <;> omega
  obtain ⟨C, hcheck⟩ := (run_checkRelations_iff (A := B) (by rwa [hprime]) (hprime ▸ hstores) hlt ht (by omega)).mpr (hprime ▸ hrelations)
  exact ⟨M', C, run_bind_eq_ok.mpr ⟨M', B, hrun, run_bind_eq_ok.mpr ⟨(), C, hcheck, rfl⟩⟩, hbetween, hmatches⟩

/-- Closing goes through, and the table holds the operators. -/
theorem run_closeSteps (hp : p.val < 1073741824) (hA : A.prime = p) (hX : X.IsFiniteModule low high) {l : List (ℤ × ℤ)}
    (hl : l.Pairwise Before) (hdegrees : ∀ x ∈ l, x.1 < x.2 ∧ x.2 - x.1 < trackedBelow ∧ x.2 - x.1 < A.computed)
    (h : Matches X M l) :
    ∃ M' A', (l.foldlM closeStep M).run A = (.ok M', A') ∧ Follows A A' ∧ M'.dims = M.dims ∧ M'.names = M.names ∧ Matches X M' [] := by
  induction l generalizing M A with
  | nil => exact ⟨M, A, rfl, Follows.refl A, rfl, rfl, h⟩
  | cons x l ih =>
    obtain ⟨hbefore, hl⟩ := List.pairwise_cons.mp hl
    obtain ⟨hlt, ht, hx⟩ := hdegrees x (by simp)
    obtain ⟨M₁, B, hstep, hchanges, hmatches⟩ := run_closeStep hp hA hX hbefore hlt ht hx h
    have hfollows := (onlyExtends_closeStep M x).follows hstep
    have hle : A.computed ≤ B.computed := hfollows.computed_le
    have hdegrees' : ∀ y ∈ l, y.1 < y.2 ∧ y.2 - y.1 < trackedBelow ∧ y.2 - y.1 < B.computed := fun y hy => by
      have := hdegrees y (by simp [hy])
      omega
    obtain ⟨M', A', hrun, hfollows', hdims, hnames, hmatches'⟩ := ih (hfollows.prime_eq.symm.trans hA) hl hdegrees' hmatches
    refine ⟨M', A', ?_, hfollows.trans hfollows', hdims.trans hchanges.dims_eq, hnames.trans hchanges.names_eq, hmatches'⟩
    rw [List.foldlM_cons]
    exact run_bind_eq_ok.mpr ⟨M₁, B, hstep, hrun⟩

end FiniteModule

namespace Presentation

open FiniteModule Growing

variable {p : Prime} {P : Presentation} {X : Representation p} {low high : ℤ} {M : FiniteModule} {A A' : Algebra} {d : ℤ}

theorem lookup_eq {name : String} {x : ℤ × ℕ} (h : P.lookup? name = some x) : P.lookup name = .ok x := by
  rw [lookup, h]

/-- What is looked up is a basis element. -/
theorem lt_dimension_of_lookup {name : String} {x : ℤ × ℕ} (h : P.lookup? name = some x) : x.2 < P.dimension x.1 := by
  obtain ⟨g, hfind, rfl⟩ := Option.map_eq_some_iff.mp h
  obtain ⟨e, n⟩ := g
  have hname : (n == name) = true := by simpa using List.find?_some hfind
  refine List.findIdx_lt_length_of_exists ⟨(e, n), List.mem_filter.mpr ⟨List.mem_of_find?_eq_some hfind, ?_⟩, hname⟩
  simp

/-- The coordinates that a sum of generators has in a degree. -/
def coordsOfSum (p : Prime) (P : Presentation) (s : ModuleSum) : ℕ → p.Field :=
  (s.map fun t => (t.1 : p.Field) • Pi.single ((P.lookup? t.2).elim 0 Prod.snd) 1).sum

/-- A relation that is true of the operators: its names are declared, those of the output in the right degree. -/
structure States (X : Representation p) (P : Presentation) (a : Action) : Prop where
  isBasis : a.operation.IsBasis p
  exists_input : ∃ d i, P.lookup? a.input = some (d, i) ∧ (∀ t ∈ a.output, ∃ j, P.lookup? t.2 = some (d + a.operation.degree, j)) ∧
    coordsOfSum p P a.output = X.act a.operation d (Pi.single i 1)

theorem resolve_eq {a : Action} {d : ℤ} {i : ℕ} (hin : P.lookup? a.input = some (d, i))
    (hout : ∀ t ∈ a.output, ∃ j, P.lookup? t.2 = some (d + a.operation.degree, j)) :
    ∃ v, P.resolve p a = .ok ((d, i), v) ∧ Proper p (P.dimension (d + a.operation.degree)) v ∧ v.coords p = coordsOfSum p P a.output := by
  have hterm : ∀ t ∈ a.output, ∀ v, Proper p (P.dimension (d + a.operation.degree)) v →
      ∃ w, (do
        let x ← P.lookup t.2
        if x.1 ≠ d + a.operation.degree then refuse (.invalidRelation a.text (.wrongDegree t.2 x.1 (d + a.operation.degree)))
        else (Except.ok (v.addAt p x.2 t.1) : Result Vec)) = .ok w ∧ Proper p (P.dimension (d + a.operation.degree)) w ∧
        w.coords p = v.coords p + (t.1 : p.Field) • Pi.single ((P.lookup? t.2).elim 0 Prod.snd) 1 := by
    intro t ht v hv
    obtain ⟨j, hj⟩ := hout t ht
    have hlt := lt_dimension_of_lookup hj
    refine ⟨v.addAt p j t.1, ?_, hv.addAt j t.1, ?_⟩
    · rw [lookup_eq hj, Result.ok_bind]
      exact if_neg (by simp)
    · rw [coords_addAt (by rw [hv.size_eq]; exact hlt), hj, Option.elim_some, ← Pi.single_smul', smul_eq_mul, mul_one]
  obtain ⟨v, hv, hvp, hvc⟩ := foldlM_add a.output hterm Proper.zero
  refine ⟨v, ?_, hvp, by rw [hvc, coords_zero, zero_add, coordsOfSum]⟩
  rw [resolve, lookup_eq hin, Result.ok_bind]
  exact Result.bind_eq_ok.mpr ⟨v, hv, rfl⟩

/-- A declared action that is true of the operators, of positive degree and to a degree that is not zero. -/
structure Holds (X : Representation p) (P : Presentation) (x : Declared) : Prop where
  isBasis : x.operation.IsBasis p
  pos : 0 < x.operation.degree
  input_lt : x.input.2 < P.dimension x.input.1
  room : 0 < P.dimension (x.input.1 + x.operation.degree)
  fits : P.Fits p x
  coords_eq : x.output.coords p = X.act x.operation x.input.1 (Pi.single x.input.2 1)

/-- A true relation is taken into the list of declared actions. -/
theorem declare_eq (hX : X.IsFiniteModule low high) (hdim : P.dimension = X.dim) {a : Action}
    (ha : States X P a) {declared : List Declared} (hdeclared : ∀ x ∈ declared, Holds X P x) :
    ∃ declared', P.declare p declared a = .ok declared' ∧ (∀ x ∈ declared', Holds X P x) ∧
      (∀ y : Operation × (ℤ × ℕ), (a.operation = y.1 ∧ P.lookup? a.input = some y.2 ∧ 0 < y.1.degree ∧
        0 < P.dimension (y.2.1 + y.1.degree)) → ∃ x ∈ declared', x.operation = y.1 ∧ x.input = y.2) ∧
      ∀ y : Operation × (ℤ × ℕ), (∃ x ∈ declared, x.operation = y.1 ∧ x.input = y.2) →
        ∃ x ∈ declared', x.operation = y.1 ∧ x.input = y.2 := by
  obtain ⟨d, i, hin, hout, hvalue⟩ := ha.exists_input
  obtain ⟨v, hv, hvp, hvc⟩ := resolve_eq (p := p) hin hout
  have hi := lt_dimension_of_lookup hin
  rw [declare, hv, Result.ok_bind]
  simp only
  by_cases hsize : v.size = 0
  · rw [if_pos hsize]
    refine ⟨declared, rfl, hdeclared, ?_, fun y hy => hy⟩
    rintro ⟨b, x⟩ ⟨rfl, hlookup, _, hroom⟩
    obtain rfl := Option.some.inj (hin.symm.trans hlookup)
    rw [hvp.size_eq] at hsize
    simp only at hroom
    omega
  · rw [if_neg hsize]
    by_cases hzero : a.operation.degree = 0
    · have hunit : v = Vec.unit v.size i := by
        have hmem := single_mem_space (p := p) hi
        have hproper : Proper p (P.dimension (d + a.operation.degree)) (Vec.unit v.size i) := hvp.size_eq ▸ proper_unit _ _
        refine hvp.ext hproper ?_
        rw [hvc, hvalue, ha.isBasis.eq_one hzero, hX.one_act (hdim ▸ hmem), coords_unit]
        rw [hvp.size_eq, hzero, add_zero]
        exact hi
      rw [if_pos hzero, if_pos hunit]
      refine ⟨declared, rfl, hdeclared, ?_, fun y hy => hy⟩
      rintro ⟨b, x⟩ ⟨rfl, _, hpos, _⟩
      simp only at hpos
      omega
    · have hpos : 0 < a.operation.degree := lt_of_le_of_ne ha.isBasis.nonneg (Ne.symm hzero)
      have hroom : 0 < P.dimension (d + a.operation.degree) := by
        rw [hvp.size_eq] at hsize
        omega
      have hnew : Holds X P ⟨a.operation, (d, i), v, a.text⟩ := ⟨ha.isBasis, hpos, hi, hroom, hvp, hvc.trans hvalue⟩
      rw [if_neg hzero]
      cases hfind : declared.find? fun x => x.operation = a.operation ∧ x.input = (d, i) with
      | some x =>
        have hx := hdeclared x (List.mem_of_find?_eq_some hfind)
        have hfound := List.find?_some hfind
        rw [decide_eq_true_eq] at hfound
        obtain ⟨hop, hinput⟩ := hfound
        have hfits := hx.fits
        have hcoords := hx.coords_eq
        rw [Fits, hop, hinput] at hfits
        rw [hop, hinput] at hcoords
        simp only
        rw [if_pos (hfits.ext hvp (by rw [hcoords, hvc, hvalue]))]
        refine ⟨declared, rfl, hdeclared, ?_, fun y hy => hy⟩
        rintro ⟨b, y⟩ ⟨rfl, hlookup, _, _⟩
        obtain rfl := Option.some.inj (hin.symm.trans hlookup)
        exact ⟨x, List.mem_of_find?_eq_some hfind, hop, hinput⟩
      | none =>
        refine ⟨_, rfl, List.forall_mem_append.mpr ⟨hdeclared, List.forall_mem_singleton.mpr hnew⟩, ?_, ?_⟩
        · rintro ⟨b, y⟩ ⟨rfl, hlookup, _, _⟩
          obtain rfl := Option.some.inj (hin.symm.trans hlookup)
          exact ⟨_, List.mem_append_right _ (List.mem_singleton_self _), rfl, rfl⟩
        · rintro y ⟨x, hx, h⟩
          exact ⟨x, List.mem_append_left _ hx, h⟩

/-- Which declared actions are of generators is found out. -/
theorem run_sort (hp : p.val < 1073741824) (hA : A.prime = p) {declared : List Declared}
    (hdegrees : ∀ x ∈ declared, x.operation.IsBasis p ∧ 0 < x.operation.degree ∧ x.operation.degree < trackedBelow) :
    ∃ sorted A', (sort declared).run A = (.ok sorted, A') ∧ Follows A A' ∧
      (∀ y ∈ sorted, y.1 ∈ declared ∧ (y.2 = true ↔ IsGenerator p y.1.operation)) ∧ ∀ x ∈ declared, ∃ b, (x, b) ∈ sorted := by
  induction declared generalizing A with
  | nil => exact ⟨[], A, rfl, Follows.refl A, by simp, by simp⟩
  | cons x declared ih =>
    obtain ⟨hbasis, hpos, ht⟩ := hdegrees x (by simp)
    subst hA
    obtain ⟨ks, hks, hmem⟩ := run_generators hp hpos ht
    obtain ⟨sorted, A', hsorted, hfollows, hof, hall⟩ := ih (A.prime_extend x.operation.degree) fun y hy => hdegrees y (by simp [hy])
    refine ⟨(x, ks.contains x.operation.index) :: sorted, A', ?_, (follows_extend A _).trans hfollows, ?_, ?_⟩
    · rw [sort, List.mapM_cons]
      exact run_bind_eq_ok.mpr ⟨_, _, run_bind_eq_ok.mpr ⟨ks, _, hks, rfl⟩, run_bind_eq_ok.mpr ⟨sorted, A', hsorted, rfl⟩⟩
    · refine List.forall_mem_cons.mpr ⟨⟨by simp, ?_⟩, fun y hy => ⟨List.mem_cons_of_mem _ (hof y hy).1, (hof y hy).2⟩⟩
      rw [List.contains_iff_mem, hmem]
    · refine List.forall_mem_cons.mpr ⟨⟨_, List.mem_cons_self⟩, fun y hy => ?_⟩
      obtain ⟨b, hb⟩ := hall y hy
      exact ⟨b, List.mem_cons_of_mem _ hb⟩

/-- Entering true actions keeps what is right and sets right what they are about. -/
theorem agrees_foldl_setAction {l : List (Declared × Bool)} (hl : ∀ x ∈ l, Holds X P x.1) (hdims : M.dimension = P.dimension)
    (hM : M.Stores p) {a : Operation} {i : ℕ}
    (h : M.stored p a d i = X.act a d (Pi.single i 1) ∨ ∃ x ∈ l, x.1.operation = a ∧ x.1.input = (d, i)) :
    (l.foldl (fun M (x, _) => M.setAction x.operation x.input.1 x.input.2 x.output) M).stored p a d i = X.act a d (Pi.single i 1) := by
  induction l generalizing M with
  | nil =>
    rcases h with h | ⟨x, hx, _⟩
    · exact h
    · cases hx
  | cons x l ih =>
    obtain ⟨x, b⟩ := x
    have hx : Holds X P x := hl (x, b) (by simp)
    refine ih (fun y hy => hl y (by simp [hy])) hdims (hM.setAction (hdims ▸ hx.fits)) ?_
    change (M.setAction x.operation x.input.1 x.input.2 x.output).stored p a d i = _ ∨ _
    by_cases hkey : x.operation = a ∧ x.input = (d, i)
    · obtain ⟨rfl, hinput⟩ := hkey
      have hset := stored_setAction hM hx.isBasis hx.pos (hdims ▸ hx.input_lt) (hdims ▸ hx.room) x.output
      rw [hx.coords_eq] at hset
      rw [hinput] at hset ⊢
      exact .inl hset
    · have hact : (M.setAction x.operation x.input.1 x.input.2 x.output).action? a d i = M.action? a d i := by
        rw [action?_setAction, if_neg]
        rintro ⟨hop, hdegree, hindex⟩
        exact hkey ⟨hop.symm, Prod.ext hdegree.symm hindex.symm⟩
      have hkept : (M.setAction x.operation x.input.1 x.input.2 x.output).stored p a d i = M.stored p a d i := by
        rw [stored, stored, dimension_setAction, hact]
      rcases h with h | ⟨y, hy, h⟩
      · exact .inl (hkept.trans h)
      · rcases List.mem_cons.mp hy with rfl | hy
        · exact absurd h hkey
        · exact .inr ⟨y, hy, h⟩

theorem foldl_min_mem (d : ℤ) (ds : List ℤ) : ds.foldl min d ∈ d :: ds := by
  induction ds generalizing d with
  | nil => simp
  | cons e ds ih =>
    rw [List.foldl_cons]
    have hmem := ih (min d e)
    rcases min_choice d e with h | h <;> rw [h] at hmem ⊢ <;> simp only [List.mem_cons] at hmem ⊢ <;> tauto

theorem foldl_max_mem (d : ℤ) (ds : List ℤ) : ds.foldl max d ∈ d :: ds := by
  induction ds generalizing d with
  | nil => simp
  | cons e ds ih =>
    rw [List.foldl_cons]
    have hmem := ih (max d e)
    rcases max_choice d e with h | h <;> rw [h] at hmem ⊢ <;> simp only [List.mem_cons] at hmem ⊢ <;> tauto

theorem dimension_pos {g : ℤ × String} (hg : g ∈ P.generators) : 0 < P.dimension g.1 :=
  List.length_pos_of_mem (List.mem_filter.mpr ⟨hg, decide_eq_true rfl⟩)

/-- The least and the last degree are those of generators, unless there are none. -/
theorem degrees_eq (P : Presentation) : (P.minDegree = 0 ∧ P.maxDegree = -1) ∨ (0 < P.dimension P.minDegree ∧ 0 < P.dimension P.maxDegree) := by
  have hpos : ∀ d ∈ P.generators.map Prod.fst, 0 < P.dimension d := by
    intro d hd
    obtain ⟨g, hg, rfl⟩ := List.mem_map.mp hd
    exact dimension_pos hg
  rw [minDegree, maxDegree]
  cases hl : P.generators.map Prod.fst with
  | nil => exact .inl ⟨rfl, rfl⟩
  | cons d ds =>
    rw [hl] at hpos
    exact .inr ⟨hpos _ (foldl_min_mem d ds), hpos _ (foldl_max_mem d ds)⟩

theorem degree_pos_of_isGenerator {a : Operation} (h : IsGenerator p a) : 0 < a.degree := by
  rcases h with ⟨_, rfl⟩ | ⟨v, rfl⟩
  · simp [letter]
  · have := Nat.mul_pos (step_pos p) (Nat.pow_pos p.pos : 0 < p.val ^ v)
    simp only [letter]
    omega

/-- With the actions of the generators entered, only what is to be closed may differ from the operators. -/
theorem matches_entered (hX : X.IsFiniteModule low high) (hdim : P.dimension = X.dim)
    {l : List (Declared × Bool)} (hl : ∀ x ∈ l, Holds X P x.1)
    (hall : ∀ a d i, a.IsBasis p → IsGenerator p a → i < X.dim d → 0 < X.dim (d + a.degree) → X.act a d (Pi.single i 1) ≠ 0 →
      ∃ x ∈ l, x.1.operation = a ∧ x.1.input = (d, i)) :
    Matches X (l.foldl (fun M (x, _) => M.setAction x.operation x.input.1 x.input.2 x.output) (P.start p)) (P.start p).closingOrder := by
  obtain ⟨hstores, hdims⟩ := stores_foldl_setAction (fun x hx => (hl x hx).fits) (dimension_start p P) (stores_start p P)
  have hdimension : (l.foldl (fun M (x, _) => M.setAction x.operation x.input.1 x.input.2 x.output) (P.start p)).dimension = X.dim := by
    rw [← hdim, ← dimension_start p P]
    unfold FiniteModule.dimension
    rw [hdims]
  refine ⟨hdimension, hstores, fun a d ha hgen => ?_, fun a d ha hnot => ?_⟩
  · rcases Nat.eq_zero_or_pos (X.dim (d + a.degree)) with hzero | hroom
    · exact agrees_of_dimension_eq_zero hX hdimension ha (by rw [hdimension, hzero])
    · intro i hi
      refine agrees_foldl_setAction hl (dimension_start p P) (stores_start p P) ?_
      by_cases hact : X.act a d (Pi.single i 1) = 0
      · have hpos := degree_pos_of_isGenerator hgen
        have hroom' : 0 < (P.start p).dimension (d + a.degree) := by rwa [dimension_start, hdim]
        have hi' : i < (P.start p).dimension d := by rwa [dimension_start, hdim, ← hdimension]
        have hzero : (P.start p).action? a d i = some (Vec.zero ((P.start p).dimension (d + a.degree))) :=
          action?_zeroTable P.name ha hpos hi' hroom'
        rw [hact, stored, if_neg hroom'.ne', if_neg hpos.ne', hzero, Option.getD_some, coords_zero]
        exact .inl rfl
      · exact .inr (hall a d i ha hgen (hdimension ▸ hi) hroom hact)
  · by_cases hzero : a.degree = 0
    · exact agrees_unit hX hdimension ha hzero
    · have hnonneg := ha.nonneg
      rcases Nat.eq_zero_or_pos (X.dim (d + a.degree)) with hroom | hroom
      · exact agrees_of_dimension_eq_zero hX hdimension ha (by rw [hdimension, hroom])
      · intro i hi
        refine absurd (mem_closingOrder.mpr ⟨?_, ?_, ?_⟩) hnot
        · exact (degrees_of_lt_dimension (M := P.start p) (by rwa [dimension_start, hdim, ← hdimension])).1
        · simp only
          omega
        · exact (degrees_of_lt_dimension (M := P.start p) (by rwa [dimension_start, hdim])).2

/-- What is forced agrees with what is declared. -/
theorem checkForced_eq {x : Declared} (hx : Holds X P x) (hdim : P.dimension = X.dim) (hM : Matches X M []) (A : Algebra) :
    checkForced A M x = .ok () := by
  have hinput : x.input.2 < M.dimension x.input.1 := by
    rw [hM.dim_eq, ← hdim]
    exact hx.input_lt
  have hroom : 0 < M.dimension (x.input.1 + x.operation.degree) := by
    rw [hM.dim_eq, ← hdim]
    exact hx.room
  obtain ⟨v, hv, hvp⟩ := hM.stores hx.isBasis hx.pos hinput hroom
  have hfits : Proper p (M.dimension (x.input.1 + x.operation.degree)) x.output := by
    rw [hM.dim_eq, ← hdim]
    exact hx.fits
  have hcoords := hM.visited _ _ hx.isBasis List.not_mem_nil x.input.2 hinput
  rw [stored, if_neg hroom.ne', if_neg hx.pos.ne', hv, Option.getD_some, ← hx.coords_eq] at hcoords
  rw [checkForced, hv]
  exact if_pos (hvp.ext hfits hcoords)

/-- Degrees that fit into words, and are close to each other. -/
theorem isSigned_of_width (P : Presentation) (hsigned : ∀ d, P.dimension d ≠ 0 → isSigned (d + 1))
    (hwidth : P.maxDegree - P.minDegree < trackedBelow) :
    (isSigned (P.maxDegree + 1) && isSigned (P.maxDegree + 1 - P.minDegree)) = true := by
  have htracked : (trackedBelow : ℤ) < maxSigned := by decide
  have hle := P.minDegree_le
  refine Bool.and_eq_true_iff.mpr ⟨?_, ?_⟩
  · rcases P.degrees_eq with ⟨_, hmax⟩ | ⟨_, hmax⟩
    · rw [hmax]
      decide
    · exact hsigned _ hmax.ne'
  · rw [isSigned, Bool.and_eq_true_iff]
    exact ⟨decide_eq_true (by omega), decide_eq_true (by omega)⟩

theorem exists_build (hp : p.val < 1073741824) (hA : A.prime = p) (hcap : ∀ cap ∈ A.cap, P.maxDegree - P.minDegree ≤ cap) (hX : X.IsFiniteModule low high)
    (hrange : high - low < trackedBelow) (hsigned : ∀ d, X.dim d ≠ 0 → isSigned (d + 1)) (hdim : P.dimension = X.dim)
    (htrue : ∀ r ∈ P.actions, States X P r)
    (hall : ∀ a d i, a.IsBasis p → IsGenerator p a → i < X.dim d → X.act a d (Pi.single i 1) ≠ 0 →
      ∃ r ∈ P.actions, r.operation = a ∧ P.lookup? r.input = some (d, i)) :
    ∃ M A', P.build.run A = (.ok M, A') ∧ Matches X M [] := by
  have htracked : (trackedBelow : ℤ) < maxSigned := by decide
  have hdegrees : ∀ d, 0 < P.dimension d → low ≤ d ∧ d ≤ high := fun d hd => hX.degrees_of_lt (hdim ▸ hd)
  have hwidth : P.maxDegree - P.minDegree < trackedBelow := by
    have hpos : 0 < trackedBelow := by decide
    rcases P.degrees_eq with ⟨hmin, hmax⟩ | ⟨hmin, hmax⟩
    · omega
    · have := hdegrees _ hmin
      have := hdegrees _ hmax
      omega
  have hwords := P.isSigned_of_width (fun d hd => hsigned d (hdim ▸ hd)) hwidth
  obtain ⟨declared, hdeclared, hholds, hentered, _⟩ := Result.exists_foldlM (s := ([] : List Declared)) (l := P.actions)
    (I := fun l => ∀ x ∈ l, Holds X P x) (Q := fun (y : Operation × (ℤ × ℕ)) l => ∃ x ∈ l, x.operation = y.1 ∧ x.input = y.2)
    (R := fun r y => r.operation = y.1 ∧ P.lookup? r.input = some y.2 ∧ 0 < y.1.degree ∧ 0 < P.dimension (y.2.1 + y.1.degree))
    (fun r hr l hl => declare_eq hX hdim (htrue r hr) hl) (by simp)
  have hensure : (ensure (P.maxDegree - P.minDegree)).run A = (.ok (), A.extend (P.maxDegree - P.minDegree)) := by
    exact run_ensure_of_le (hA ▸ hp) hcap (by omega)
  have hprime₁ : (A.extend (P.maxDegree - P.minDegree)).prime = p := (A.prime_extend _).trans hA
  generalize A.extend (P.maxDegree - P.minDegree) = A₁ at hensure hprime₁
  have hcompute : (compute (P.maxDegree + 1 - P.minDegree)).run A₁ = (.ok (), A₁.extend (P.maxDegree + 1 - P.minDegree)) :=
    run_compute_of_le (hprime₁ ▸ hp) (by omega)
  have hprime₂ : (A₁.extend (P.maxDegree + 1 - P.minDegree)).prime = p := (A₁.prime_extend _).trans hprime₁
  have hcomputed : P.maxDegree + 1 - P.minDegree < (A₁.extend (P.maxDegree + 1 - P.minDegree)).computed := by
    rw [A₁.computed_extend]
    split <;> omega
  generalize A₁.extend (P.maxDegree + 1 - P.minDegree) = A₂ at hcompute hprime₂ hcomputed
  have hunderlying := run_underlying hcompute hcomputed
  rw [hprime₂] at hunderlying
  have hsmall : ∀ x ∈ declared, x.operation.IsBasis p ∧ 0 < x.operation.degree ∧ x.operation.degree < trackedBelow := by
    intro x hx
    have hx := hholds x hx
    have := hdegrees _ (Nat.zero_lt_of_lt hx.input_lt)
    have := hdegrees _ hx.room
    exact ⟨hx.isBasis, hx.pos, by omega⟩
  obtain ⟨sorted, A₃, hsorted, hfollows, hof, hsort⟩ := run_sort hp hprime₂ hsmall
  have hmatches := matches_entered hX hdim (l := sorted.filter (·.2)) (fun x hx => hholds _ (hof x (List.mem_of_mem_filter hx)).1)
    fun a d i ha hgen hi hroom hne => by
      obtain ⟨r, hr, hop, hlookup⟩ := hall a d i ha hgen hi hne
      obtain ⟨x, hx, hkey⟩ := hentered r hr (a, (d, i)) ⟨hop, hlookup, degree_pos_of_isGenerator hgen, hdim ▸ hroom⟩
      obtain ⟨b, hb⟩ := hsort x hx
      refine ⟨(x, b), List.mem_filter.mpr ⟨hb, (hof _ hb).2.mpr ?_⟩, hkey⟩
      simp only
      rwa [hkey.1]
  obtain ⟨_, hdims⟩ := stores_foldl_setAction (l := sorted.filter (·.2)) (fun x hx => (hholds _ (hof x (List.mem_of_mem_filter hx)).1).fits)
    (dimension_start p P) (stores_start p P)
  have hprime₃ : A₃.prime = p := hfollows.prime_eq.symm.trans hprime₂
  have hle : A₂.computed ≤ A₃.computed := hfollows.computed_le
  have hmin : (P.start p).minDegree = P.minDegree := rfl
  have hmax := maxDegree_start p P
  obtain ⟨M, A₄, hclose, _, _, _, hM⟩ := run_closeSteps hp hprime₃ hX (pairwise_closingOrder _) (fun x hx => by
    obtain ⟨hlow, hlt, hhigh⟩ := mem_closingOrder.mp hx
    omega) hmatches
  rw [← closingOrder_congr hdims, ← close_eq] at hclose
  have hforced : (((sorted.filter (!·.2)).map (·.1)).mergeSort checkBefore).forM (checkForced A₄ M) = .ok () := by
    refine Result.forM_eq_ok.mpr fun x hx => ?_
    obtain ⟨y, hy, rfl⟩ := List.mem_map.mp (List.mem_mergeSort.mp hx)
    exact checkForced_eq (hholds _ (hof y (List.mem_of_mem_filter hy)).1) hdim hM A₄
  refine ⟨M, A₄, ?_, hM⟩
  rw [build, run_bind, run_get]
  simp only
  rw [hA]
  refine run_bind_eq_ok.mpr ⟨(), A, run_read_eq_ok.mpr ⟨by rw [hwords]; rfl, rfl⟩, ?_⟩
  refine run_bind_eq_ok.mpr ⟨declared, A, run_read_eq_ok.mpr ⟨hdeclared, rfl⟩, ?_⟩
  refine run_bind_eq_ok.mpr ⟨(), A₁, hensure, run_bind_eq_ok.mpr ⟨P.start p, A₂, hunderlying, ?_⟩⟩
  refine run_bind_eq_ok.mpr ⟨sorted, A₃, hsorted, run_bind_eq_ok.mpr ⟨M, A₄, hclose, ?_⟩⟩
  exact run_bind_eq_ok.mpr ⟨(), A₄, run_read_eq_ok.mpr ⟨hforced, rfl⟩, rfl⟩

end Presentation
end Steenrod
