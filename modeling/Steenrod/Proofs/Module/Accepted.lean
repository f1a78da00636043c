import Steenrod.Proofs.Milnor.Presented
import Steenrod.Proofs.Module.Closing
import Steenrod.Module.Presentation
/-!
Presentations that are accepted. Main statements: in a finite module that is closed between all of its degrees, acting twice is
acting by the product, because its actions satisfy what presents the algebra; and whatever the builder accepts is closed.
-/
namespace Steenrod

open Vec Milnor

namespace Representation

variable {p : Prime} {X : Representation p}

/-- An operation on families of vectors, one for each degree. -/
noncomputable def onFamilies (X : Representation p) (a : Operation) : Module.End p.Field (ℤ → ℕ → p.Field) :=
  if a.degree = 0 then 1 else LinearMap.pi fun e => X.act a (e - a.degree) ∘ₗ LinearMap.proj (e - a.degree)

theorem onFamilies_of_pos {a : Operation} (ha : 0 < a.degree) (v : ℤ → ℕ → p.Field) (e : ℤ) :
    X.onFamilies a v e = X.act a (e - a.degree) (v (e - a.degree)) := by
  rw [onFamilies, if_neg ha.ne']
  rfl

theorem onFamilies_of_zero {a : Operation} (ha : a.degree = 0) : X.onFamilies a = 1 := if_pos ha

end Representation

namespace FiniteModule

variable {p : Prime} {M : FiniteModule} {a b : Operation} {d : ℤ} {w : ℕ → p.Field}

theorem eq_of_single {V : Type} [AddCommGroup V] [Module p.Field V] {F G : (ℕ → p.Field) →ₗ[p.Field] V} {n : ℕ}
    (hF : ∀ w, F (cut p n w) = F w) (hG : ∀ w, G (cut p n w) = G w) (h : ∀ i < n, F (Pi.single i 1) = G (Pi.single i 1)) : F = G := by
  refine LinearMap.ext fun w => ?_
  rw [← hF, ← hG, ← combine_units (cut_mem n w), map_combine, map_combine]
  exact combine_congr h fun _ _ => rfl

theorem rep_act_cut (a : Operation) (d : ℤ) (w : ℕ → p.Field) : (M.rep p).act a d (cut p (M.dimension d) w) = (M.rep p).act a d w :=
  combine_cut _ _ _

theorem rep_act_unit (a : Operation) (d : ℤ) (w : ℕ → p.Field) : (M.rep p).act a d ((M.rep p).act ⟨0, 0⟩ d w) = (M.rep p).act a d w := by
  rw [← rep_act_cut ⟨0, 0⟩, rep_one_act (cut_mem _ _), rep_act_cut]

theorem termAct_cut (terms : List Term) (d : ℤ) (w : ℕ → p.Field) :
    termAct (M.rep p) terms d (cut p (M.dimension d) w) = termAct (M.rep p) terms d w := by
  induction terms with
  | nil => rfl
  | cons t terms ih =>
    rw [termAct_cons, LinearMap.add_apply, LinearMap.add_apply, LinearMap.smul_apply, LinearMap.smul_apply, LinearMap.comp_apply,
      LinearMap.comp_apply, rep_act_cut, ih]

theorem termAct_eq_zero {terms : List Term} {D : ℤ} (hterms : ∀ t ∈ terms, t.LiesIn p D) (hzero : M.dimension (d + D) = 0) :
    termAct (M.rep p) terms d = 0 := by
  induction terms with
  | nil => rfl
  | cons t terms ih =>
    have hdegree := (hterms t (by simp)).degree_eq
    rw [termAct_cons, rep_act_eq_zero (by rw [add_assoc, add_comm t.right.degree, hdegree, hzero]), LinearMap.zero_comp, smul_zero, zero_add,
      ih fun t' ht' => hterms t' (by simp [ht'])]

/-- Sums of products of operations on families act degree by degree. -/
theorem termSum_onFamilies {terms : List Term} {D : ℤ} (hterms : ∀ t ∈ terms, t.LiesIn p D)
    (hleft : ∀ t ∈ terms, 0 < t.left.degree) (v : ℤ → ℕ → p.Field) (e : ℤ) :
    termSum (p := p) (M.rep p).onFamilies terms v e = termAct (M.rep p) terms (e - D) (v (e - D)) := by
  induction terms with
  | nil => rfl
  | cons t terms ih =>
    obtain ⟨_, hright, hdegree⟩ := hterms t (by simp)
    have hproduct : ((M.rep p).onFamilies t.left * (M.rep p).onFamilies t.right) v e =
        (M.rep p).act t.left (e - D + t.right.degree) ((M.rep p).act t.right (e - D) (v (e - D))) := by
      have hmiddle : e - t.left.degree = e - D + t.right.degree := by omega
      rw [Module.End.mul_apply, Representation.onFamilies_of_pos (hleft t (by simp)), hmiddle]
      rcases hright.nonneg.eq_or_lt with hzero | hpos
      · rw [Representation.onFamilies_of_zero hzero.symm, hright.eq_one hzero.symm, Module.End.one_apply]
        simp only [add_zero]
        rw [rep_act_unit]
      · rw [Representation.onFamilies_of_pos hpos, add_sub_cancel_right]
    rw [termSum_cons, termAct_cons, LinearMap.add_apply, Pi.add_apply, ih (fun t' ht' => hterms t' (by simp [ht']))
      fun t' ht' => hleft t' (by simp [ht']), LinearMap.smul_apply, Pi.smul_apply, hproduct]
    rfl

/-- The table is complete, and the module is closed between any two of its degrees. -/
structure Closed (p : Prime) (M : FiniteModule) : Prop where
  stores : M.Stores p
  closedAt : ∀ x ∈ M.closingOrder, x.2 - x.1 < trackedBelow → ClosedAt p M x

theorem Closed.at (h : M.Closed p) {input output : ℤ} (hlt : input < output) (ht : output - input < trackedBelow)
    (hin : 0 < M.dimension input) (hout : 0 < M.dimension output) : ClosedAt p M (input, output) :=
  h.closedAt _ (mem_closingOrder.mpr ⟨(degrees_of_lt_dimension hin).1, hlt, (degrees_of_lt_dimension hout).2⟩) ht

/-- Every operation that is not a generator acts as its decomposition. -/
theorem Closed.termAct_decomposition (h : M.Closed p) (hp : p.val < 1073741824) (ha : a.IsBasis p) (hpos : 0 < a.degree)
    (ht : a.degree < trackedBelow) (hgen : ¬IsGenerator p a) (d : ℤ) : termAct (M.rep p) (decomposition p a) d = (M.rep p).act a d := by
  have hliesIn := (decomposes_decomposition hp ha hpos ht).liesIn
  rcases Nat.eq_zero_or_pos (M.dimension (d + a.degree)) with hzero | hout
  · rw [termAct_eq_zero hliesIn hzero, rep_act_eq_zero hzero]
  · refine eq_of_single (termAct_cut _ _) (rep_act_cut a d) fun i hi => ?_
    have hdegree : d + a.degree - d = a.degree := by omega
    have hclosedAt : ClosedAt p M (d, d + a.degree) := h.at (by omega) (by omega) (Nat.zero_lt_of_lt hi) hout
    have hclosed := hclosedAt.filled a.index i
    simp only [FilledAt, hdegree] at hclosed
    rw [rep_act_single _ _ _ hi]
    exact (hclosed ha.index_lt hgen hi hout).symm

/-- The relations between the generators hold. -/
theorem Closed.termAct_relation (h : M.Closed p) (hp : p.val < 1073741824) {D : ℤ} {rel : List Term} (hrel : IsRelation p D rel)
    (ht : D < trackedBelow) (d : ℤ) : termAct (M.rep p) rel d = 0 := by
  have hpos := hrel.pos
  rcases Nat.eq_zero_or_pos (M.dimension (d + D)) with hzero | hout
  · exact termAct_eq_zero (hrel.liesIn hp) hzero
  · refine eq_of_single (n := M.dimension d) (termAct_cut _ _) (fun _ => rfl) fun i hi => ?_
    have hdegree : d + D - d = D := by omega
    have hclosedAt : ClosedAt p M (d, d + D) := h.at (by omega) (by omega) (Nat.zero_lt_of_lt hi) hout
    have hclosed := hclosedAt.relations rel
    simp only [hdegree] at hclosed
    exact hclosed hrel i hi

/-- The operations on families of vectors satisfy what presents the algebra. -/
theorem Closed.checked (h : M.Closed p) (hp : p.val < 1073741824) : Checked p trackedBelow (M.rep p).onFamilies where
  one := Representation.onFamilies_of_zero rfl
  decomposed a ha hpos ht hgen := by
    have hdecomposes := decomposes_decomposition hp ha hpos ht
    refine LinearMap.ext fun v => funext fun e => ?_
    rw [termSum_onFamilies hdecomposes.liesIn fun t hmem => (hdecomposes.smaller hgen t hmem).1,
      h.termAct_decomposition hp ha hpos ht hgen, Representation.onFamilies_of_pos hpos]
  relation D rel hrel ht := by
    refine LinearMap.ext fun v => funext fun e => ?_
    rw [termSum_onFamilies (hrel.liesIn hp) hrel.left_pos]
    rw [h.termAct_relation hp hrel ht]
    rfl

theorem onFamilies_apply (ha : a.IsBasis p) {v : ℤ → ℕ → p.Field} {e : ℤ}
    (hv : v (e - a.degree) ∈ p.space (M.dimension (e - a.degree))) :
    (M.rep p).onFamilies a v e = (M.rep p).act a (e - a.degree) (v (e - a.degree)) := by
  rcases ha.nonneg.eq_or_lt with hzero | hpos
  · rw [Representation.onFamilies_of_zero hzero.symm, ha.eq_one hzero.symm, Module.End.one_apply]
    simp only [sub_zero]
    rw [ha.eq_one hzero.symm] at hv
    simp only [sub_zero] at hv
    rw [rep_one_act hv]
  · exact Representation.onFamilies_of_pos hpos v e

/-- In a closed module acting twice is acting by the product. -/
theorem Closed.mul_act (h : M.Closed p) (hp : p.val < 1073741824) (ha : a.IsBasis p) (hb : b.IsBasis p)
    (ht : a.degree + b.degree < trackedBelow) (hw : w ∈ p.space (M.dimension d)) :
    (M.rep p).act a (d + b.degree) ((M.rep p).act b d w) = combine (dim p (a.degree + b.degree))
      (fun l => (M.rep p).act ⟨a.degree + b.degree, l⟩ d w) (mul p a b) := by
  have ha₀ := ha.nonneg
  have hb₀ := hb.nonneg
  let v : ℤ → ℕ → p.Field := fun _ => w
  have hmul := congrFun (LinearMap.congr_fun ((h.checked hp).mul_eq hp le_rfl ha hb (by exact_mod_cast ht)) v) (d + (a.degree + b.degree))
  have hmiddle : d + (a.degree + b.degree) - a.degree = d + b.degree := by omega
  have hinner : (M.rep p).onFamilies b v (d + b.degree) = (M.rep p).act b d w := by
    rw [onFamilies_apply hb (by rw [add_sub_cancel_right]; exact hw), add_sub_cancel_right]
  have hmem : (M.rep p).act b d w ∈ p.space (M.dimension (d + b.degree)) := h.stores.act_mem hb w
  have hleft : ((M.rep p).onFamilies a * (M.rep p).onFamilies b) v (d + (a.degree + b.degree)) =
      (M.rep p).act a (d + b.degree) ((M.rep p).act b d w) := by
    rw [Module.End.mul_apply, onFamilies_apply ha (by rw [hmiddle, hinner]; exact hmem), hmiddle, hinner]
  rw [← hleft, hmul, combine_apply, LinearMap.sum_apply, Finset.sum_apply, combine_apply]
  refine Finset.sum_congr rfl fun l hl => ?_
  have hbasis : Operation.IsBasis p ⟨a.degree + b.degree, l⟩ := ⟨by simp only; omega, Finset.mem_range.mp hl⟩
  rw [LinearMap.smul_apply, Pi.smul_apply, onFamilies_apply hbasis (by simp only [add_sub_cancel_right]; exact hw)]
  simp only [add_sub_cancel_right, v]

end FiniteModule

namespace Presentation

open FiniteModule Growing

variable {p : Prime} {P : Presentation} {M : FiniteModule} {A A' : Algebra} {d : ℤ}

theorem foldl_min_le (d : ℤ) (ds : List ℤ) : ds.foldl min d ≤ d ∧ ∀ e ∈ ds, ds.foldl min d ≤ e := by
  induction ds generalizing d with
  | nil => simp
  | cons e ds ih =>
    obtain ⟨hle, hall⟩ := ih (min d e)
    rw [List.foldl_cons]
    exact ⟨by omega, List.forall_mem_cons.mpr ⟨by omega, hall⟩⟩

theorem le_foldl_max (d : ℤ) (ds : List ℤ) : d ≤ ds.foldl max d ∧ ∀ e ∈ ds, e ≤ ds.foldl max d := by
  induction ds generalizing d with
  | nil => simp
  | cons e ds ih =>
    obtain ⟨hle, hall⟩ := ih (max d e)
    rw [List.foldl_cons]
    exact ⟨by omega, List.forall_mem_cons.mpr ⟨by omega, hall⟩⟩

theorem degree_mem {g : ℤ × String} (hg : g ∈ P.generators) : P.minDegree ≤ g.1 ∧ g.1 ≤ P.maxDegree := by
  have hmem := List.mem_map_of_mem (f := Prod.fst) hg
  rw [minDegree, maxDegree]
  cases hl : P.generators.map Prod.fst with
  | nil =>
    rw [hl] at hmem
    cases hmem
  | cons d ds =>
    rw [hl] at hmem
    obtain ⟨hmin, hmins⟩ := foldl_min_le d ds
    obtain ⟨hmax, hmaxs⟩ := le_foldl_max d ds
    simp only
    rcases List.mem_cons.mp hmem with h | h
    · exact ⟨by omega, by omega⟩
    · exact ⟨hmins _ h, hmaxs _ h⟩

theorem minDegree_le (P : Presentation) : P.minDegree ≤ P.maxDegree + 1 := by
  rw [minDegree, maxDegree]
  cases P.generators.map Prod.fst with
  | nil => decide
  | cons d ds =>
    have := (foldl_min_le d ds).1
    have := (le_foldl_max d ds).1
    simp only
    omega

theorem dimension_eq_zero (h : d < P.minDegree ∨ P.maxDegree < d) : P.dimension d = 0 := by
  rw [dimension, List.length_eq_zero_iff, List.filter_eq_nil_iff]
  intro g hg
  have := degree_mem hg
  rw [decide_eq_true_eq]
  omega

/-- The dimensions of the module that is presented. -/
def dims (P : Presentation) : Graded ℕ :=
  Graded.ofList P.minDegree ((GradedModule.degreesBetween P.minDegree P.maxDegree).map P.dimension)

/-- The module before any action is entered. -/
def start (p : Prime) (P : Presentation) : FiniteModule :=
  { zeroTable p P.name P.dims with
    names := Graded.ofList P.minDegree ((GradedModule.degreesBetween P.minDegree P.maxDegree).map fun d =>
      (P.generators.filter (·.1 = d)).map (·.2)) }

theorem nextDegree_dims (P : Presentation) : P.dims.nextDegree = P.maxDegree + 1 := by
  have hle := P.minDegree_le
  have hsize : P.dims.entries.size = (P.maxDegree + 1 - P.minDegree).toNat := by
    simp [dims, Graded.ofList]
  have hmin : P.dims.minDegree = P.minDegree := rfl
  unfold Graded.nextDegree
  omega

theorem maxDegree_start (p : Prime) (P : Presentation) : (P.start p).maxDegree = P.maxDegree := by
  change P.dims.nextDegree - 1 = _
  rw [nextDegree_dims, add_sub_cancel_right]

theorem dimension_start (p : Prime) (P : Presentation) : (P.start p).dimension = P.dimension := by
  funext d
  change (P.dims.get? d).getD 0 = P.dimension d
  rw [dims, Graded.get?_ofList]
  by_cases hd : d < P.minDegree
  · rw [if_pos hd, dimension_eq_zero (.inl hd), Option.getD_none]
  · rw [if_neg hd, List.getElem?_map, GradedModule.getElem?_degreesBetween]
    have hplace : P.minDegree + ((d - P.minDegree).toNat : ℤ) = d := by omega
    rw [hplace]
    by_cases hmax : d ≤ P.maxDegree
    · rw [if_pos hmax]
      rfl
    · rw [if_neg hmax, dimension_eq_zero (.inr (by omega))]
      rfl

theorem stores_start (p : Prime) (P : Presentation) : (P.start p).Stores p := stores_zeroTable p P.name P.dims

theorem run_underlying (h : (compute (P.maxDegree + 1 - P.minDegree)).run A = (.ok (), A'))
    (hlt : P.maxDegree + 1 - P.minDegree < A'.computed) : P.underlying.run A = (.ok (P.start A'.prime), A') := by
  have hnext : P.dims.nextDegree - P.dims.minDegree = P.maxDegree + 1 - P.minDegree := by
    rw [nextDegree_dims]
    rfl
  rw [underlying, run_bind]
  rw [← hnext] at h hlt
  have hzero := run_zeroAction P.name h hlt
  rw [dims] at hzero
  simp only
  rw [hzero]
  rfl

theorem of_run_underlying (h : P.underlying.run A = (.ok M, A')) :
    M = P.start A.prime ∧ Follows A A' ∧ P.maxDegree + 1 - P.minDegree < A'.computed := by
  have hnext : P.dims.nextDegree - P.dims.minDegree = P.maxDegree + 1 - P.minDegree := by
    rw [nextDegree_dims]
    rfl
  obtain ⟨M₀, B, hzero, hnames⟩ := run_bind_eq_ok.mp h
  obtain ⟨rfl, hfollows, hlt⟩ := of_run_zeroAction hzero
  obtain ⟨hM, rfl⟩ := Prod.mk.inj hnames
  exact ⟨(Except.ok.inj hM).symm, hfollows, hnext ▸ hlt⟩

/-- What a presentation declares is a vector in the degree of the output. -/
def Fits (p : Prime) (P : Presentation) (x : Declared) : Prop :=
  Proper p (P.dimension (x.input.1 + x.operation.degree)) x.output

theorem proper_of_resolve {a : Action} {x : (ℤ × ℕ) × Vec} (h : P.resolve p a = .ok x) :
    Proper p (P.dimension (x.1.1 + a.operation.degree)) x.2 := by
  obtain ⟨input, _, h⟩ := Result.bind_eq_ok.mp h
  obtain ⟨output, houtput, h⟩ := Result.bind_eq_ok.mp h
  obtain rfl := Except.ok.inj h
  refine Result.foldlM_invariant (I := Proper p (P.dimension (input.1 + a.operation.degree))) (fun t _ v w hv h => ?_) Proper.zero houtput
  obtain ⟨y, _, h⟩ := Result.bind_eq_ok.mp h
  simp only at h
  split at h
  · cases h
  · obtain rfl := Except.ok.inj h
    exact hv.addAt _ _

/-- What is declared is to be entered: it fits, and its operation goes to another degree, which is not zero. -/
structure Enters (p : Prime) (P : Presentation) (x : Declared) : Prop where
  fits : P.Fits p x
  degree_ne : x.operation.degree ≠ 0
  room : 0 < P.dimension (x.input.1 + x.operation.degree)

theorem enters_of_declare {declared declared' : List Declared} {a : Action} (henters : ∀ x ∈ declared, P.Enters p x)
    (h : P.declare p declared a = .ok declared') : ∀ x ∈ declared', P.Enters p x := by
  obtain ⟨⟨input, output⟩, hresolve, h⟩ := Result.bind_eq_ok.mp h
  have hproper := proper_of_resolve hresolve
  simp only at h hproper
  split at h
  · obtain rfl := Except.ok.inj h
    exact henters
  · next hsize =>
    split at h
    · split at h
      · obtain rfl := Except.ok.inj h
        exact henters
      · cases h
    · next hdegree =>
      split at h
      · split at h
        · obtain rfl := Except.ok.inj h
          exact henters
        · cases h
      · obtain rfl := Except.ok.inj h
        refine List.forall_mem_append.mpr ⟨henters, List.forall_mem_singleton.mpr ⟨hproper, hdegree, ?_⟩⟩
        rw [hproper.size_eq] at hsize
        exact Nat.pos_of_ne_zero hsize

/-- Entering actions leaves the table complete. -/
theorem stores_foldl_setAction {l : List (Declared × Bool)} (hl : ∀ x ∈ l, P.Fits p x.1) (hdims : M.dimension = P.dimension)
    (hM : M.Stores p) :
    (l.foldl (fun M (x, _) => M.setAction x.operation x.input.1 x.input.2 x.output) M).Stores p ∧
      (l.foldl (fun M (x, _) => M.setAction x.operation x.input.1 x.input.2 x.output) M).dims = M.dims := by
  induction l generalizing M with
  | nil => exact ⟨hM, rfl⟩
  | cons x l ih =>
    have hx : P.Fits p x.1 := hl x (by simp)
    exact ih (fun y hy => hl y (by simp [hy])) hdims (hM.setAction (hdims ▸ hx))

/-- Which of the declared actions are of generators. -/
def sort (declared : List Declared) : Growing (List (Declared × Bool)) :=
  declared.mapM fun (x : Declared) => do
    let generators ← Growing.generators x.operation.degree
    pure (x, generators.contains x.operation.index)

theorem onlyExtends_sort (declared : List Declared) : OnlyExtends (sort declared) :=
  onlyExtends_mapM (fun (x : Declared) => (onlyExtends_generators x.operation.degree).bind fun ks =>
    onlyExtends_pure (x, ks.contains x.operation.index)) declared

theorem mem_of_run_sort {A B : Algebra} {declared : List Declared} {sorted : List (Declared × Bool)}
    (h : (sort declared).run A = (.ok sorted, B)) : ∀ x ∈ sorted, x.1 ∈ declared := by
  induction declared generalizing A sorted with
  | nil =>
    obtain rfl := Except.ok.inj (Prod.mk.inj h).1
    simp
  | cons x declared ih =>
    rw [sort, List.mapM_cons] at h
    obtain ⟨y, C, hy, h₁⟩ := run_bind_eq_ok.mp h
    obtain ⟨ys, D, hys, h₂⟩ := run_bind_eq_ok.mp h₁
    obtain ⟨ks, _, _, hpair⟩ := run_bind_eq_ok.mp hy
    obtain ⟨hsorted, rfl⟩ := Prod.mk.inj h₂
    obtain rfl := Except.ok.inj hsorted
    obtain rfl := Except.ok.inj (Prod.mk.inj hpair).1
    exact List.forall_mem_cons.mpr ⟨List.mem_cons_self, fun z hz => List.mem_cons_of_mem _ (ih hys z hz)⟩

/-- The module with the actions of the generators entered. -/
def entered (p : Prime) (P : Presentation) (sorted : List (Declared × Bool)) : FiniteModule :=
  (sorted.filter (·.2)).foldl (fun M (x, _) => M.setAction x.operation x.input.1 x.input.2 x.output) (P.start p)

/-- The steps of a build that went through. -/
structure Steps (P : Presentation) (A : Algebra) (declared : List Declared) (sorted : List (Declared × Bool)) (M : FiniteModule) :
    Prop where
  words : (isSigned (P.maxDegree + 1) && isSigned (P.maxDegree + 1 - P.minDegree)) = true
  declares : P.actions.foldlM (P.declare A.prime) [] = .ok declared
  ensures : ∃ A', (ensure (P.maxDegree - P.minDegree)).run A = (.ok (), A')
  enters : ∀ x ∈ sorted, P.Enters A.prime x.1
  closes : ∃ B A', B.prime = A.prime ∧ P.maxDegree + 1 - P.minDegree < B.computed ∧ (P.entered A.prime sorted).close.run B = (.ok M, A')

theorem steps_of_run_build (h : P.build.run A = (.ok M, A')) : ∃ declared sorted, P.Steps A declared sorted M := by
  rw [build, run_bind, run_get] at h
  simp only at h
  obtain ⟨_, A₁, hrequire, h₁⟩ := run_bind_eq_ok.mp h
  obtain ⟨hwords, rfl⟩ := run_read_eq_ok.mp hrequire
  obtain ⟨declared, A₂, hread, h₂⟩ := run_bind_eq_ok.mp h₁
  obtain ⟨hdeclared, rfl⟩ := run_read_eq_ok.mp hread
  obtain ⟨_, A₃, hensure, h₃⟩ := run_bind_eq_ok.mp h₂
  obtain ⟨M₀, A₄, hunderlying, h₄⟩ := run_bind_eq_ok.mp h₃
  obtain ⟨sorted, A₅, hsorted, h₅⟩ := run_bind_eq_ok.mp h₄
  obtain ⟨M₁, A₆, hclose, h₆⟩ := run_bind_eq_ok.mp h₅
  obtain ⟨_, A₇, _, h₇⟩ := run_bind_eq_ok.mp h₆
  obtain rfl := Except.ok.inj (Prod.mk.inj h₇).1
  have henters : ∀ x ∈ declared, P.Enters A₂.prime x :=
    Result.foldlM_invariant (I := fun l => ∀ x ∈ l, P.Enters A₂.prime x) (fun a _ l l' hl h => enters_of_declare hl h) (by simp) hdeclared
  have hfollows₃ := (onlyExtends_ensure (P.maxDegree - P.minDegree)).follows hensure
  obtain ⟨rfl, hfollows₄, hcomputed⟩ := of_run_underlying hunderlying
  have hfollows₅ := (onlyExtends_sort declared).follows hsorted
  have hprime₃ : A₃.prime = A₂.prime := hfollows₃.prime_eq.symm
  have hprime : A₅.prime = A₂.prime := hfollows₅.prime_eq.symm.trans (hfollows₄.prime_eq.symm.trans hprime₃)
  have hle : A₄.computed ≤ A₅.computed := hfollows₅.computed_le
  rw [hprime₃] at hclose
  exact ⟨declared, sorted, require_eq_ok.mp hwords, hdeclared, ⟨A₃, hensure⟩, fun x hx => henters _ (mem_of_run_sort hsorted x hx),
    A₅, A₆, hprime, by omega, hclose⟩

theorem Steps.entered_dims {declared : List Declared} {sorted : List (Declared × Bool)} (h : P.Steps A declared sorted M) :
    (P.entered A.prime sorted).Stores A.prime ∧ (P.entered A.prime sorted).dims = P.dims :=
  stores_foldl_setAction (l := sorted.filter (·.2)) (fun x hx => (h.enters x (List.mem_of_mem_filter hx)).fits)
    (dimension_start A.prime P) (stores_start A.prime P)

/-- Whatever is accepted is closed. -/
theorem closed_of_run_build (hp : A.prime.val < 1073741824) (h : P.build.run A = (.ok M, A')) : M.Closed A.prime := by
  obtain ⟨declared, sorted, hsteps⟩ := steps_of_run_build h
  obtain ⟨hentered, hentereddims⟩ := hsteps.entered_dims
  obtain ⟨B, C, hprime, hcomputed, hclose⟩ := hsteps.closes
  rw [close_eq] at hclose
  obtain ⟨hdims, hstores, hclosed, _⟩ := of_run_closeSteps hp (pairwise_closingOrder _) hprime hentered (fun x hx => by
    obtain ⟨hlow, hlt, hhigh⟩ := mem_closingOrder.mp hx
    rw [FiniteModule.minDegree, hentereddims] at hlow
    rw [FiniteModule.maxDegree, hentereddims] at hhigh
    have hmin : P.dims.minDegree = P.minDegree := rfl
    have hmax : P.dims.maxDegree = P.maxDegree := maxDegree_start A.prime P
    omega) hclose
  refine ⟨hstores, fun x hx => hclosed x ?_⟩
  rw [mem_closingOrder] at hx ⊢
  rwa [FiniteModule.minDegree, FiniteModule.maxDegree, hdims] at hx

end Presentation

namespace FiniteModule

variable {P : Presentation} {M : FiniteModule} {A A' C : Algebra}

/-- Every module that the builder accepts is a module over the algebra: acting twice is acting by the product, as far as the algebra is
computed. -/
theorem act_twice_of_build (hp : A.prime.val < 2 ^ 30) (hbuild : P.build.run A = (.ok M, A')) (hC : C.prime = A.prime) {a b : Operation}
    (ha : a.IsBasis C.prime) (hb : b.IsBasis C.prime) (hlt : a.degree + b.degree < C.computed)
    (ht : a.degree + b.degree < 2 ^ 25 - 1) {d : ℤ} {x : Vec} (hx : Proper C.prime (M.dimension d) x) :
    ∃ n y z w, (M.toGraded C).act C.prime 1 b d x = .ok y ∧ (M.toGraded C).act C.prime 1 a (d + b.degree) y = .ok w ∧
      C.dimension (a.degree + b.degree) = .ok n ∧ C.multiply 1 a b = .ok z ∧
      (M.toGraded C).actByElement n 1 (a.degree + b.degree) z d x = .ok w := by
  have htracked : ((2 : ℤ) ^ 25 - 1) = trackedBelow := by decide
  rw [htracked] at ht
  have hclosed := Presentation.closed_of_run_build hp hbuild
  rw [← hC] at hclosed hp
  obtain ⟨z, hz⟩ := Algebra.exists_multiply_tracked hp ha hb hlt ht 1
  exact exists_act_twice (hclosed.stores.storedBelow _) hz hx (hclosed.mul_act hp ha hb ht hx.coords_mem)

/-- Three generators, with `Sq1` from the first to the second and `Sq2` from there to the third. -/
def questionMark : Presentation :=
  ⟨"Q", [(0, "x"), (1, "y"), (3, "z")], [⟨⟨1, 0⟩, "x", [(1, "y")], "Sq1 x = y"⟩, ⟨⟨2, 0⟩, "y", [(1, "z")], "Sq2 y = z"⟩]⟩

theorem exists_build_questionMark :
    ∃ M A', questionMark.build.run (Algebra.new Prime.two none) = (.ok M, A') ∧ M.dimension 0 = 1 := by
  have hbuild : (match (questionMark.build.run (Algebra.new Prime.two none)).1 with
      | .ok M => M.dimension 0
      | .error _ => 0) = 1 := by decide +kernel
  generalize questionMark.build.run (Algebra.new Prime.two none) = r at hbuild
  obtain ⟨M | M, A'⟩ := r
  · simp at hbuild
  · exact ⟨M, A', rfl, hbuild⟩

/-- `Sq2` after `Sq1` on the first generator. -/
theorem act_twice_of_questionMark :
    ∃ M A', questionMark.build.run (Algebra.new Prime.two none) = (.ok M, A') ∧
      ∃ n y z w, (M.toGraded ((Algebra.new Prime.two none).extend 3)).act Prime.two 1 ⟨1, 0⟩ 0 (Vec.unit 1 0) = .ok y ∧
        (M.toGraded ((Algebra.new Prime.two none).extend 3)).act Prime.two 1 ⟨2, 0⟩ 1 y = .ok w ∧
        ((Algebra.new Prime.two none).extend 3).dimension 3 = .ok n ∧
        ((Algebra.new Prime.two none).extend 3).multiply 1 ⟨2, 0⟩ ⟨1, 0⟩ = .ok z ∧
        (M.toGraded ((Algebra.new Prime.two none).extend 3)).actByElement n 1 3 z 0 (Vec.unit 1 0) = .ok w := by
  obtain ⟨M, A', hbuild, hdim⟩ := exists_build_questionMark
  have hbasis : ∀ d ∈ [1, 2], (⟨d, 0⟩ : Operation).IsBasis Prime.two := by
    intro d hd
    rcases List.mem_pair.mp hd with rfl | rfl
    · exact ⟨by decide, by decide +kernel⟩
    · exact ⟨by decide, by decide +kernel⟩
  have hcomputed : (2 : ℤ) + 1 < ((Algebra.new Prime.two none).extend 3).computed := by decide +kernel
  have hunit : Proper Prime.two (M.dimension 0) (Vec.unit 1 0) := by
    rw [hdim]
    exact proper_unit 1 0
  exact ⟨M, A', hbuild, act_twice_of_build (C := (Algebra.new Prime.two none).extend 3) (by decide) hbuild rfl (hbasis 2 (by simp))
    (hbasis 1 (by simp)) hcomputed (by decide) hunit⟩

end FiniteModule
end Steenrod
