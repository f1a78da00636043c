import Steenrod.Proofs.Module.Portions
import Steenrod.Proofs.Module.TensorModule
/-!
Products and sums of what is seen as finite modules. Main statements: through views that show finite modules far enough, a product or a
sum is what it is of the finite modules themselves, its table is extended by the same rows, and what is seen is the same module.
-/
namespace Steenrod

open Vec Milnor

/-- What shows a finite module and ends where it does has its dimensions. -/
theorem GradedModule.Mirrors.measures {N : GradedModule} {M : FiniteModule} {A : Algebra} {top : ℤ} (h : N.Mirrors M A top)
    (hend : N.EndsWith M) : N.Measures M top where
  minDegree_eq := h.minDegree_eq
  endsWith := hend
  dimension_eq d _ hd := h.dimension_eq d hd

namespace Tensor

open TensorTable

variable {L R M : FiniteModule} {L' R' : GradedModule} {A : Algebra} {T : TensorTable} {a b : Operation} {s t l : ℤ} {i c : ℕ}
variable {q : Prime} {v result : Vec}
variable (hL : L'.Mirrors L A (t - R.minDegree)) (hR : R'.Mirrors R A (t - L.minDegree)) (hLend : L'.EndsWith L) (hRend : R'.EndsWith R)
variable (hT : Records L R T) (ht : t < T.offsets.nextDegree)

include hL hR hLend hRend hT ht in
theorem dimension_of_mirrors (hs : s ≤ t) : dimension L' R' T s = .ok (TensorTable.total L R s) :=
  dimension_of_measures (hL.measures hLend) (hR.measures hRend) hT ht hs

include hL hR hLend hRend hT ht in
theorem nameOf_of_mirrors (hs : s ≤ t) (hi : i < TensorTable.total L R s) :
    nameOf L' R' T s i = nameOf (L.toGraded A) (R.toGraded A) T s i := by
  obtain ⟨k, _, j, hj, n, hn, rfl⟩ := exists_row hi
  have hleft := FiniteModule.degrees_of_lt_dimension hj
  have hright := FiniteModule.degrees_of_lt_dimension (M := R) hn
  rw [nameOf_of_measures (hL.measures hLend) (hR.measures hRend) hT ht hs hj hn,
    nameOf_of_measures (L.measures A _) (R.measures A _) hT ht hs hj hn, hL.nameOf_eq _ (by omega) _ hj, hR.nameOf_eq _ (by omega) _ hn]
  rfl

section Action

variable (hp : A.prime.val < 1073741824)

include hL hR in
theorem actOnBlock_of_mirrors (ha : a.IsBasis A.prime) (hb : b.IsBasis A.prime) (hA : a.degree + b.degree < A.computed)
    (htracked : a.degree + b.degree < trackedBelow) (hlow : L.minDegree ≤ l) (hhigh : l ≤ s - R.minDegree)
    (hs : s + a.degree + b.degree ≤ t) :
    actOnBlock L' R' T q c a b s v l result = actOnBlock (L.toGraded A) (R.toGraded A) T q c a b s v l result := by
  have ha₀ := ha.nonneg
  have hb₀ := hb.nonneg
  have hdim : ∀ e, (L.toGraded A).dimension e = .ok (L.dimension e) := fun _ => rfl
  have hdim' : ∀ e, (R.toGraded A).dimension e = .ok (R.dimension e) := fun _ => rfl
  have hprime : (L.toGraded A).prime = A.prime := rfl
  unfold actOnBlock
  simp only
  rw [hL.prime_eq, hprime, hL.dimension_eq l (by omega), hR.dimension_eq (s - l) (by omega), hL.dimension_eq (l + a.degree) (by omega),
    hR.dimension_eq (s - l + b.degree) (by omega)]
  simp only [hdim, hdim', Result.ok_bind]
  split
  · rfl
  · congr 1; funext block; congr 1; funext target
    refine Algebra.foldlM_congr (fun i hi w => ?_) result
    rw [hL.actOnBasis_eq _ a l i ha (by omega) (by omega) (by omega) (List.mem_range.mp hi)]
    change (L.actOnBasis A A.prime _ a l i >>= _) = (L.actOnBasis A A.prime _ a l i >>= _)
    congr 1; funext left
    split
    · rfl
    · refine Algebra.foldlM_congr (fun j hj w => ?_) w
      congr 1; funext x
      split
      · rfl
      · rw [hR.actOnBasis_eq _ b (s - l) j hb (by omega) (by omega) (by omega) (List.mem_range.mp hj)]
        rfl

include hp hL hR hLend hRend hT ht

theorem actThroughCoproduct_of_mirrors {y : MilnorElement} (hy : element? A.prime a = some y) (hfactor : IsFactor y)
    (hA : a.degree < A.computed) (htracked : a.degree < trackedBelow) (hs : s + a.degree ≤ t) :
    actThroughCoproduct A L' R' T q c a s v = actThroughCoproduct A (L.toGraded A) (R.toGraded A) T q c a s v := by
  unfold actThroughCoproduct
  rw [dimension_of_mirrors hL hR hLend hRend hT ht hs, hT.dimension_eq A (by omega), A.coproduct_eq hp hy htracked hA hfactor]
  simp only [Result.ok_bind]
  refine Algebra.foldlM_congr (fun x hx w => ?_) _
  obtain ⟨hbasis, hbasis', hsum⟩ := isBasis_of_mem_summands hp hy htracked hfactor hx
  rw [leftDegrees_of_measures (hL.measures hLend) (hR.measures hRend) A]
  refine Algebra.foldlM_congr (fun l hl w => ?_) w
  obtain ⟨hlow, hhigh⟩ := of_mem_leftDegrees hl
  exact actOnBlock_of_mirrors hL hR hbasis hbasis' (by omega) (by omega) hlow hhigh (by omega)

theorem actByFactors_of_mirrors {factors : List Operation}
    (hfactors : ∀ f ∈ factors, ∃ y, element? A.prime f = some y ∧ IsFactor y) (hA : (factors.map (·.degree)).sum < A.computed)
    (htracked : (factors.map (·.degree)).sum < trackedBelow) (hs : s + (factors.map (·.degree)).sum ≤ t) :
    actByFactors A L' R' T q c factors s v = actByFactors A (L.toGraded A) (R.toGraded A) T q c factors s v := by
  induction factors generalizing s v with
  | nil => rfl
  | cons f rest ih =>
    obtain ⟨y, hy, hfactor⟩ := hfactors f (by simp)
    have hf := (mem_basis_of_element? hy).1.nonneg
    have hrest : 0 ≤ (rest.map (·.degree)).sum := List.sum_nonneg fun e he => by
      obtain ⟨g, hg, rfl⟩ := List.mem_map.mp he
      obtain ⟨z, hz, _⟩ := hfactors g (by simp [hg])
      exact (mem_basis_of_element? hz).1.nonneg
    rw [List.map_cons, List.sum_cons] at hA htracked hs
    have hprime : (L.toGraded A).prime = A.prime := rfl
    cases rest with
    | nil => exact actThroughCoproduct_of_mirrors hL hR hLend hRend hT ht hp hy hfactor (by omega) (by omega) (by omega)
    | cons g rest =>
      change (actThroughCoproduct A L' R' T L'.prime 1 f s v >>= fun v => actByFactors A L' R' T q c (g :: rest) (s + f.degree) v) =
        (actThroughCoproduct A (L.toGraded A) (R.toGraded A) T A.prime 1 f s v >>= fun v =>
          actByFactors A (L.toGraded A) (R.toGraded A) T q c (g :: rest) (s + f.degree) v)
      rw [hL.prime_eq, actThroughCoproduct_of_mirrors hL hR hLend hRend hT ht hp hy hfactor (by omega) (by omega) (by omega)]
      congr 1
      funext w
      exact ih (fun h hh => hfactors h (by simp [hh])) (by omega) (by omega) (by omega)

theorem act_of_mirrors (ha : a.IsBasis A.prime) (hA : a.degree < A.computed) (htracked : a.degree < trackedBelow) (hs : s + a.degree ≤ t) :
    act A L' R' T q c a s v = act A (L.toGraded A) (R.toGraded A) T q c a s v := by
  obtain ⟨x, hx, _⟩ := element?_eq_some ha
  have hsum := sum_degree_factorsOf hp hx htracked
  unfold act
  rw [dimension_of_mirrors hL hR hLend hRend hT ht hs, hT.dimension_eq A (by omega), A.factors_eq hp hx htracked hA]
  simp only [Result.ok_bind]
  rw [actByFactors_of_mirrors hL hR hLend hRend hT ht hp (fun f hf => ?_) (by rwa [hsum]) (by rwa [hsum]) (by rwa [hsum])]
  obtain ⟨y, hy, hfactor, _⟩ := isFactor_of_mem_factorsOf hp hx htracked hf
  exact ⟨y, hy, hfactor⟩

/-- A product is the same through views of its factors. -/
theorem mirrors_of_mirrors (h : (toGraded A (L.toGraded A) (R.toGraded A) T).Mirrors M A t) : (toGraded A L' R' T).Mirrors M A t where
  name_eq := by
    have hname : ∀ L R : GradedModule, (toGraded A L R T).name = s!"{L.name} (x) {R.name}" := fun _ _ => rfl
    rw [← h.name_eq, hname, hname, hL.name_eq, hR.name_eq]
    rfl
  prime_eq := hL.prime_eq
  minDegree_eq := by
    rw [← h.minDegree_eq]
    change L'.minDegree + R'.minDegree = L.minDegree + R.minDegree
    rw [hL.minDegree_eq, hR.minDegree_eq]
  dimension_eq d hd := by
    rw [← h.dimension_eq d hd]
    exact (dimension_of_mirrors hL hR hLend hRend hT ht hd).trans (hT.dimension_eq A (by omega)).symm
  nameOf_eq d hd i hi := by
    have hdim : TensorTable.total L R d = M.dimension d :=
      Except.ok.inj ((hT.dimension_eq A (by omega)).symm.trans (h.dimension_eq d hd))
    rw [← h.nameOf_eq d hd i hi]
    exact nameOf_of_mirrors hL hR hLend hRend hT ht hd (by rwa [hdim])
  actOnBasis_eq c a d i ha hA htracked hd hi := by
    have ha₀ := ha.nonneg
    rw [← h.actOnBasis_eq c a d i ha hA htracked hd hi]
    change actOnBasis A L' R' T A.prime c a d i = actOnBasis A (L.toGraded A) (R.toGraded A) T A.prime c a d i
    unfold actOnBasis
    rw [dimension_of_mirrors hL hR hLend hRend hT ht (by omega), hT.dimension_eq A (by omega)]
    simp only [Result.ok_bind]
    rw [act_of_mirrors hL hR hLend hRend hT ht hp ha hA htracked hd]

end Action

/-- A product ends where its view says. -/
theorem endsIn {m : ℤ} (h : (toGraded A L' R' T).Mirrors M A t) (hmax : (toGraded A L' R' T).maxDegree = some m) (ht : m ≤ t) :
    (toGraded A L' R' T).EndsIn M A m := by
  have hzero : ∀ d, m < d → dimension L' R' T d = .ok 0 := fun d hd => by
    have hmax : maxDegree? L' R' = some m := hmax
    rw [dimension]
    split
    · rfl
    · rw [hmax, if_pos (by simpa using hd)]
  refine ⟨hzero, fun c a d i ha _ hd hgap hi => ?_⟩
  have hdim : dimension L' R' T d = .ok (M.dimension d) := h.dimension_eq d (by omega)
  change actOnBasis A L' R' T A.prime c a d i = _
  rw [actOnBasis, hdim, Result.ok_bind, decide_eq_true hi, require_true, Result.ok_bind, act, hzero _ hgap, Result.ok_bind,
    if_neg (by omega), if_pos rfl]

end Tensor

/-- Views that show the modules of a list, one after the other. -/
def GradedModule.AllMirror (views : List GradedModule) (Ms : List FiniteModule) (A : Algebra) (top : ℤ) : Prop :=
  views.length = Ms.length ∧ ∀ (j : ℕ) (N : GradedModule) (M : FiniteModule), views[j]? = some N → Ms[j]? = some M → N.Mirrors M A top

namespace SumTable

variable {views : List GradedModule} {Ms : List FiniteModule} {A : Algebra} {T : SumTable} {s t : ℤ}

theorem row_of_mirrors (h : GradedModule.AllMirror views Ms A t) (hs : s ≤ t) : row views s = row (Ms.map (·.toGraded A)) s := by
  have hfold : ∀ (views : List GradedModule) (Ms : List FiniteModule) (x : Array ℕ × ℕ), GradedModule.AllMirror views Ms A t →
      views.foldlM (fun x M => do
        let n ← summandDimension M s
        (.ok (x.1.push x.2, x.2 + n) : Result (Array ℕ × ℕ))) x =
      (Ms.map (·.toGraded A)).foldlM (fun x M => do
        let n ← summandDimension M s
        (.ok (x.1.push x.2, x.2 + n) : Result (Array ℕ × ℕ))) x := by
    intro views
    induction views with
    | nil =>
      rintro Ms x ⟨hlen, _⟩
      obtain rfl := List.length_eq_zero_iff.mp hlen.symm
      rfl
    | cons N views ih =>
      rintro (_ | ⟨M, Ms⟩) x ⟨hlen, hall⟩
      · cases hlen
      · have hN := hall 0 N M rfl rfl
        have hdim : summandDimension N s = summandDimension (M.toGraded A) s := by
          unfold summandDimension
          rw [hN.minDegree_eq, hN.dimension_eq s hs]
          rfl
        rw [List.map_cons, List.foldlM_cons, List.foldlM_cons, hdim]
        congr 1
        funext y
        exact ih Ms y ⟨Nat.succ.inj hlen, fun j N' M' hN' hM' => hall (j + 1) N' M' hN' hM'⟩
  unfold row
  exact congrArg (· >>= _) (hfold views Ms (#[], 0) h)

/-- The table is extended by the same rows. -/
theorem extend_of_mirrors (h : GradedModule.AllMirror views Ms A t) (hs : s ≤ t) :
    T.extend views s = T.extend (Ms.map (·.toGraded A)) s := by
  unfold extend
  rw [Result.mapM_congr fun d hd => ?_]
  exact row_of_mirrors h ((GradedModule.mem_degreesBetween.mp hd).2.trans hs)

end SumTable

namespace DirectSum

open SumTable

variable {views : List GradedModule} {Ms : List FiniteModule} {M : FiniteModule} {A : Algebra} {T : SumTable} {low t d : ℤ} {i : ℕ}

theorem names_of_mirrors (h : GradedModule.AllMirror views Ms A t) : views.map (·.name) = Ms.map (·.name) := by
  refine List.ext_getElem? fun j => ?_
  rw [List.getElem?_map, List.getElem?_map]
  cases hN : views[j]? with
  | none =>
    have hlen := List.getElem?_eq_none_iff.mp hN
    rw [List.getElem?_eq_none (h.1 ▸ hlen)]
    rfl
  | some N =>
    obtain ⟨hj, _⟩ := List.getElem?_eq_some_iff.mp hN
    have hM := List.getElem?_eq_getElem (h.1 ▸ hj)
    rw [hM, Option.map_some, Option.map_some, (h.2 j N _ hN hM).name_eq]

/-- A basis element of a sum is one of a summand. -/
theorem exists_located (hviews : GradedModule.AllMirror views Ms A t) (hT : Records low Ms.length (widths Ms) T)
    (hd : d < T.offsets.nextDegree) (hi : i < T.dimension d) :
    ∃ j k N N', T.locate d i = .ok (j, k) ∧ Ms[j]? = some N ∧ views[j]? = some N' ∧ N'.Mirrors N A t ∧ k < N.dimension d := by
  have hlow : low ≤ d := by
    by_contra hlt
    have hnone : T.offsets.get? d = none := by
      rw [← Option.not_isSome_iff_eq_none, Graded.get?_isSome_iff, hT.minDegree_eq]
      omega
    rw [SumTable.dimension, hnone] at hi
    exact absurd hi (Nat.not_lt_zero i)
  rw [hT.dimension_of_le hlow hd] at hi
  obtain ⟨j, hj, k, hk, rfl⟩ := exists_block hi
  have hN := List.getElem?_eq_getElem hj
  have hN' := List.getElem?_eq_getElem (hviews.1 ▸ hj : j < views.length)
  exact ⟨j, k, _, _, hT.locate_eq hlow hd hj hk, hN, hN', hviews.2 j _ _ hN' hN, by rwa [widths_eq hN] at hk⟩

/-- A sum is the same through views of its summands. -/
theorem mirrors_of_mirrors (hviews : GradedModule.AllMirror views Ms A t) (hT : Records low Ms.length (widths Ms) T)
    (ht : t < T.offsets.nextDegree) (h : (toGraded A.prime (Ms.map (·.toGraded A)) T).Mirrors M A t) :
    (toGraded A.prime views T).Mirrors M A t where
  name_eq := by
    rw [← h.name_eq]
    have hnames : (Ms.map (·.toGraded A)).map (·.name) = Ms.map (·.name) := by
      rw [List.map_map]
      rfl
    have hempty : views.isEmpty = (Ms.map (·.toGraded A)).isEmpty := by
      have hsame := congrArg List.isEmpty (names_of_mirrors hviews)
      simpa only [List.isEmpty_map] using hsame
    change sumName views = sumName (Ms.map (·.toGraded A))
    rw [sumName, sumName, hnames, names_of_mirrors hviews, hempty]
  prime_eq := rfl
  minDegree_eq := h.minDegree_eq
  dimension_eq := h.dimension_eq
  nameOf_eq d hd i hi := by
    obtain ⟨j, k, N, N', hlocate, hN, hN', hmirrors, hk⟩ := exists_located hviews hT (d := d) (by omega) (by
      rwa [← Except.ok.inj (h.dimension_eq d hd)] at hi)
    rw [← h.nameOf_eq d hd i hi]
    change nameOf views T d i = nameOf (Ms.map (·.toGraded A)) T d i
    rw [nameOf, nameOf, hlocate, Result.ok_bind, Result.ok_bind]
    simp only
    rw [List.getElem?_map, hN, hN', Option.map_some, Result.ofOption_some, Result.ofOption_some, Result.ok_bind, Result.ok_bind]
    exact hmirrors.nameOf_eq d hd k hk
  actOnBasis_eq c a d i ha hA htracked hd hi := by
    have ha₀ := ha.nonneg
    obtain ⟨j, k, N, N', hlocate, hN, hN', hmirrors, hk⟩ := exists_located hviews hT (d := d) (by omega) (by
      rwa [← Except.ok.inj (h.dimension_eq d (by omega))] at hi)
    rw [← h.actOnBasis_eq c a d i ha hA htracked hd hi]
    change actOnBasis views T A.prime c a d i = actOnBasis (Ms.map (·.toGraded A)) T A.prime c a d i
    rw [actOnBasis, actOnBasis, hlocate]
    simp only [Result.ok_bind]
    rw [List.getElem?_map, hN, hN', Option.map_some, Result.ofOption_some, Result.ofOption_some]
    simp only [Result.ok_bind]
    rw [hmirrors.actOnBasis_eq c a d k ha hA htracked hd hk]
    rfl

/-- A sum ends where its summands do. -/
theorem endsIn {m : ℤ} (h : (toGraded A.prime (Ms.map (·.toGraded A)) T).Mirrors M A (T.offsets.nextDegree - 1))
    (hM : ∀ d, m < d → M.dimension d = 0) (views : List GradedModule) :
    (toGraded A.prime views T).EndsIn M A m := by
  have hzero : ∀ d, m < d → T.dimension d = 0 := fun d hd => by
    by_cases hknown : d < T.offsets.nextDegree
    · rw [← hM d hd]
      exact Except.ok.inj (h.dimension_eq d (by omega))
    · have hnone : T.offsets.get? d = none := by
        rw [← Option.not_isSome_iff_eq_none, Graded.get?_isSome_iff]
        omega
      rw [SumTable.dimension, hnone]
      rfl
  refine ⟨fun d hd => congrArg Except.ok (hzero d hd), fun c a d i _ _ _ hgap _ => ?_⟩
  change actOnBasis views T A.prime c a d i = _
  rw [actOnBasis]
  simp only
  rw [if_pos (hzero _ hgap)]

end DirectSum
end Steenrod
