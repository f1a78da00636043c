import Steenrod.Proofs.Module.Naming
import Steenrod.Proofs.Module.TensorAction
/-!
Products of modules that the builder made. Main statement: acting twice on a product is acting by the product of the operations, and
what is cut off of it satisfies the relations between the generators of the algebra.
-/
namespace Steenrod

open Vec Milnor TensorTable

namespace Tensor

section Known

variable {L R M : FiniteModule} {A : Algebra} {T : TensorTable} {a b : Operation} {t d top : ℤ} {i : ℕ} {x : Vec}
variable {names : ℤ → List String}
variable (hp : A.prime.val < 1073741824) (hL : L.Closed A.prime) (hR : R.Closed A.prime) (hT : Records L R T)

include hp hL hR hT

/-- Acting twice on an element of a product is acting by the product. -/
theorem exists_act_twice (ha : a.IsBasis A.prime) (hb : b.IsBasis A.prime) (hA : a.degree + b.degree < A.computed)
    (ht : a.degree + b.degree < trackedBelow) (hnext : t + b.degree + a.degree < T.offsets.nextDegree)
    (hx : Proper A.prime (TensorTable.total L R t) x) :
    ∃ n y z w, act A (L.toGraded A) (R.toGraded A) T A.prime 1 b t x = .ok y ∧
      act A (L.toGraded A) (R.toGraded A) T A.prime 1 a (t + b.degree) y = .ok w ∧
      A.dimension (a.degree + b.degree) = .ok n ∧ A.multiply 1 a b = .ok z ∧
      (toGraded A (L.toGraded A) (R.toGraded A) T).actByElement n 1 (a.degree + b.degree) z t x = .ok w := by
  have ha₀ := ha.nonneg
  have hb₀ := hb.nonneg
  have hdegree : t + b.degree + a.degree = t + (a.degree + b.degree) := by omega
  let O := operators hp hL hR
  obtain ⟨z, hz⟩ := Algebra.exists_multiply_tracked hp ha hb hA ht 1
  obtain ⟨_, _, _, hzp, hzc⟩ := Algebra.multiply_eq_ok hz
  obtain ⟨y, hy, hyp, hyc⟩ := exists_act (c := 1) hp hL hR hT hb (by omega) (by omega) (by omega) hx
  obtain ⟨w, hw, hwp, hwc⟩ := exists_act (c := 1) hp hL hR hT ha (by omega) (by omega) hnext hyp
  obtain ⟨w', hw', hwp', hwc'⟩ := GradedModule.exists_actByElement (p := A.prime) (M := toGraded A (L.toGraded A) (R.toGraded A) T)
    (spread A.prime L R (t + (a.degree + b.degree))) (ψ := fun l => O.operator ⟨a.degree + b.degree, l⟩ (spread A.prime L R t (x.coords A.prime)))
    (x := x) rfl (hT.dimension_eq A (by omega)) hzp (fun l hl c => exists_act hp hL hR hT ⟨by simp only; omega, hl⟩ hA ht
      (by simp only; omega) hx) 1
  rw [hdegree] at hwp hwc
  refine ⟨_, y, z, w, hy, hw, Algebra.dimension_of_lt hA, hz, ?_⟩
  have heq : w = w' := hwp.ext hwp' <| spread_injective hwp.coords_mem hwp'.coords_mem <| by
    have hmul := O.denote_mul hp le_rfl ha hb ht
    rw [Operators.denote, combine_apply] at hmul
    rw [Nat.cast_one, one_smul] at hyc hwc hwc' hzc
    rw [hwc, hyc, hwc', hzc, ← Module.End.mul_apply, ← hmul, LinearMap.sum_apply, combine_apply]
    rfl
  rw [heq]
  exact hw'

omit hp hL hR in
/-- The names of a degree are known. -/
theorem exists_names (hLN : L.Labelled) (hRN : R.Labelled) (ht : t < T.offsets.nextDegree) :
    ∃ l, (toGraded A (L.toGraded A) (R.toGraded A) T).names t = .ok l := by
  have hname : ∀ n < TensorTable.total L R t, ∃ x, nameOf (L.toGraded A) (R.toGraded A) T t n = .ok x := by
    intro n hn
    obtain ⟨k, hk, i, hi, j, hj, rfl⟩ := exists_row hn
    obtain ⟨x, hx⟩ := hLN.mp hi
    obtain ⟨y, hy⟩ := hRN.mp hj
    exact ⟨_, hT.nameOf_eq A ht hi hj hx hy⟩
  choose! name hname using hname
  refine ⟨(List.range (TensorTable.total L R t)).map name, Result.bind_eq_ok.mpr ⟨_, hT.dimension_eq A ht, ?_⟩⟩
  exact Result.mapM_eq_ok fun n hn => hname n (List.mem_range.mp hn)

/-- Cutting off a product that is known far enough. -/
theorem exists_run_truncate (hLN : L.Labelled) (hRN : R.Labelled) (hA : top - (L.minDegree + R.minDegree) < A.computed)
    (htracked : top - (L.minDegree + R.minDegree) < trackedBelow) (hnext : top < T.offsets.nextDegree) :
    ∃ names M A', (FiniteModule.truncate (toGraded A (L.toGraded A) (R.toGraded A) T) top).run A = (.ok M, A') ∧
      FiniteModule.IsCut A.prime (toGraded A (L.toGraded A) (R.toGraded A) T) (TensorTable.total L R) names top M := by
  have hmin : (toGraded A (L.toGraded A) (R.toGraded A) T).minDegree = L.minDegree + R.minDegree := rfl
  have hnames : ∀ d, L.minDegree + R.minDegree ≤ d → d ≤ top → ∃ l, (toGraded A (L.toGraded A) (R.toGraded A) T).names d = .ok l :=
    fun d _ _ => exists_names hT hLN hRN (by omega)
  choose! names hnames using hnames
  have hroom : top + 1 - (toGraded A (L.toGraded A) (R.toGraded A) T).minDegree ≤ maxSigned := by
    unfold trackedBelow at htracked
    unfold maxSigned
    omega
  obtain ⟨M, A', hrun, hcut⟩ := FiniteModule.exists_run_truncate hp hroom (fun d _ hhigh => hT.dimension_eq A (by omega)) hnames
    fun a d i ha hpos hlow hhigh hi => by
      obtain ⟨w, hw, hproper, _⟩ := exists_actOnBasis (c := 1) hp hL hR hT ha (by omega) (by omega) (by omega) hi
      exact ⟨w, hw, hproper⟩
  exact ⟨names, M, A', hrun, hcut⟩

section Cut

variable (hM : FiniteModule.IsCut A.prime (toGraded A (L.toGraded A) (R.toGraded A) T) (TensorTable.total L R) names top M)

include hM

/-- What is stored of a product acts as the operators on tensors do. -/
theorem spread_rep_act (ha : a.IsBasis A.prime) (hA : a.degree < A.computed) (ht : a.degree < trackedBelow)
    (hmin : L.minDegree + R.minDegree ≤ t) (htop : t + a.degree ≤ top) (hnext : top < T.offsets.nextDegree) {v : ℕ → A.prime.Field}
    (hv : v ∈ A.prime.space (M.dimension t)) :
    spread A.prime L R (t + a.degree) ((M.rep A.prime).act a t v) = (operators hp hL hR).operator a (spread A.prime L R t v) := by
  have ha₀ := ha.nonneg
  have hmin' : (toGraded A (L.toGraded A) (R.toGraded A) T).minDegree = L.minDegree + R.minDegree := rfl
  have hsource : M.dimension t = TensorTable.total L R t := by rw [hM.dimension_eq, if_pos ⟨hmin, by omega⟩]
  have htarget : M.dimension (t + a.degree) = TensorTable.total L R (t + a.degree) := by
    rw [hM.dimension_eq, if_pos ⟨by omega, htop⟩]
  rw [← combine_units hv, map_combine, map_combine, map_combine, map_combine]
  refine combine_congr (fun i hi => ?_) fun _ _ => rfl
  obtain ⟨w, hw, hproper, hspread⟩ := exists_actOnBasis (c := 1) hp hL hR hT ha hA ht (by omega) (hsource ▸ hi)
  have himage : FiniteModule.imageOf A.prime (toGraded A (L.toGraded A) (R.toGraded A) T) a t i = w.coords A.prime :=
    FiniteModule.imageOf_eq hw
  rw [Nat.cast_one, one_smul] at hspread
  rw [← hspread, FiniteModule.rep_act_single _ _ _ hi]
  rcases Nat.eq_zero_or_pos (M.dimension (t + a.degree)) with hzero | hroom
  · rw [htarget] at hzero
    rw [hzero] at hproper
    rw [FiniteModule.stored, if_pos (htarget.trans hzero), hproper.eq_zero ((Submodule.eq_bot_iff _).mp space_zero _ hproper.coords_mem),
      coords_zero]
  · rcases ha₀.eq_or_lt with hunit | hpos
    · rw [FiniteModule.stored, if_neg hroom.ne', if_pos hunit.symm, hspread]
      obtain rfl := ha.eq_one hunit.symm
      rw [Operators.operator_one, Module.End.one_apply]
      simp only [add_zero]
    · rw [hM.stored_eq ha hpos hi hroom, himage]

theorem spread_termAct {terms : List Term} {D : ℤ} (hterms : ∀ s ∈ terms, s.LiesIn A.prime D) (hA : D < A.computed)
    (ht : D < trackedBelow) (hmin : L.minDegree + R.minDegree ≤ t) (htop : t + D ≤ top) (hnext : top < T.offsets.nextDegree)
    {v : ℕ → A.prime.Field} (hv : v ∈ A.prime.space (M.dimension t)) :
    spread A.prime L R (t + D) (FiniteModule.termAct (M.rep A.prime) terms t v) =
      termSum (p := A.prime) (operators hp hL hR).operator terms (spread A.prime L R t v) := by
  induction terms with
  | nil => exact map_zero _
  | cons s terms ih =>
    obtain ⟨hleft, hright, hdegree⟩ := hterms s (by simp)
    have hl₀ := hleft.nonneg
    have hr₀ := hright.nonneg
    have hinner := spread_rep_act hp hL hR hT hM hright (by omega) (by omega) hmin (by omega) hnext hv
    have hmem : (M.rep A.prime).act s.right t v ∈ A.prime.space (M.dimension (t + s.right.degree)) := hM.stores.act_mem hright v
    have houter := spread_rep_act hp hL hR hT hM hleft (by omega) (by omega) (by omega) (by omega) hnext hmem
    rw [(by omega : t + s.right.degree + s.left.degree = t + D), hinner] at houter
    rw [FiniteModule.termAct_cons, termSum_cons, LinearMap.add_apply, LinearMap.add_apply, map_add,
      ih fun s' hs' => hterms s' (by simp [hs']), LinearMap.smul_apply, LinearMap.smul_apply, LinearMap.comp_apply, map_smul, houter,
      Module.End.mul_apply]

/-- The relations between the generators of the algebra hold in what is cut off. -/
theorem relationsHold_cut (hnext : top < T.offsets.nextDegree) {output : ℤ} (hA : output - t < A.computed)
    (ht : output - t < trackedBelow) : FiniteModule.RelationsHold A.prime M t output := by
  intro rel hrel i hi
  have hmin : (toGraded A (L.toGraded A) (R.toGraded A) T).minDegree = L.minDegree + R.minDegree := rfl
  have htarget : t + (output - t) = output := by omega
  have hliesIn := hrel.liesIn hp
  rcases Nat.eq_zero_or_pos (M.dimension output) with hzero | hroom
  · rw [← htarget] at hzero
    rw [FiniteModule.termAct_eq_zero hliesIn hzero, LinearMap.zero_apply]
  · obtain ⟨hlow, _⟩ := hM.of_lt_dimension hi
    obtain ⟨_, hhigh, hdim⟩ := hM.of_lt_dimension hroom
    have hzero := spread_termAct hp hL hR hT hM hliesIn hA ht (hmin ▸ hlow) (htarget.symm ▸ hhigh) hnext (FiniteModule.single_mem_space hi)
    rw [((operators hp hL hR).checked hp le_rfl).relation _ rel hrel ht, LinearMap.zero_apply] at hzero
    have hmem := hM.stores.termAct_mem (d := t) hliesIn (Pi.single i 1)
    rw [htarget, hdim] at hmem
    rw [htarget] at hzero
    exact spread_injective hmem (Submodule.zero_mem _) (hzero.trans (map_zero _).symm)

end Cut

end Known

variable {PL PR : Presentation} {L R : FiniteModule} {A AL AL' AR AR' : Algebra} {T : TensorTable} {steps : List (Algebra × ℤ)}

/-- An algebra that is known through degree 6. -/
def throughSix : Algebra := (Algebra.new Prime.two none).extend 6

end Tensor
end Steenrod
