import Steenrod.Proofs.Milnor.Decomposition
/-!
What the decomposition of a basis element yields. Main statement: every basis element of positive degree is decomposed, with fuel for
the elements of its degree or with more; no coefficient that is inverted vanishes; the products of the terms add up to the element; and
generators alone are left as they are.
-/
namespace Steenrod

open Vec

theorem Result.mapM_mono {α β : Type} {f g : α → Result β} {l : List α} {r : List β} (hfg : ∀ x ∈ l, ∀ y, f x = .ok y → g x = .ok y)
    (h : l.mapM f = .ok r) : l.mapM g = .ok r := by
  induction l generalizing r with
  | nil => exact h
  | cons x l ih =>
    rw [List.mapM_cons] at h ⊢
    obtain ⟨y, hy, h⟩ := bind_eq_ok.mp h
    obtain ⟨r', hr', h⟩ := bind_eq_ok.mp h
    exact bind_eq_ok.mpr ⟨y, hfg x (by simp) y hy,
      bind_eq_ok.mpr ⟨r', ih (fun z hz => hfg z (by simp [hz])) hr', h⟩⟩

namespace Milnor

variable {p : Prime}

theorem powerIn_pow (v : ℕ) : powerIn p (p.val ^ v) = p.val ^ v := by
  induction v with
  | zero =>
    have hmod : 1 % p.val = 1 := Nat.mod_eq_of_lt p.two_le
    rw [pow_zero, powerIn, if_neg one_ne_zero, if_neg (by omega)]
  | succ v ih =>
    rw [powerIn, if_neg (Nat.pow_pos p.pos).ne', pow_succ', if_pos (Nat.mul_mod_right _ _), Nat.mul_div_cancel_left _ p.pos, ih]

theorem factors_pow (v : ℕ) : factors p [p.val ^ v] = none := if_pos (powerIn_pow v).symm

end Milnor

namespace Algebra

open Milnor

variable {A : Algebra}

/-- What is decomposed with some fuel is decomposed in the same way with more. -/
theorem decomposePower_succ {fuel : ℕ} {a : Operation} {terms : List Term} (h : A.decomposePower fuel a = .ok terms) :
    A.decomposePower (fuel + 1) a = .ok terms := by
  induction fuel generalizing a terms with
  | zero => cases h
  | succ fuel ih =>
    rw [decomposePower] at h ⊢
    obtain ⟨x, hx, h⟩ := Result.bind_eq_ok.mp h
    obtain ⟨f, hf, h⟩ := Result.bind_eq_ok.mp h
    refine Result.bind_eq_ok.mpr ⟨x, hx, Result.bind_eq_ok.mpr ⟨f, hf, ?_⟩⟩
    cases f with
    | none => exact h
    | some f =>
      obtain ⟨v, hv, h⟩ := Result.bind_eq_ok.mp h
      obtain ⟨_, hc, h⟩ := Result.bind_eq_ok.mp h
      obtain ⟨others, hothers, h⟩ := Result.bind_eq_ok.mp h
      refine Result.bind_eq_ok.mpr ⟨v, hv, Result.bind_eq_ok.mpr ⟨_, hc, Result.bind_eq_ok.mpr ⟨others, ?_, h⟩⟩⟩
      refine Result.mapM_mono (fun ie _ terms hterms => ?_) hothers
      obtain ⟨us, hus, hterms⟩ := Result.bind_eq_ok.mp hterms
      exact Result.bind_eq_ok.mpr ⟨us, ih hus, hterms⟩

theorem decomposePower_of_le {fuel fuel' : ℕ} (hle : fuel ≤ fuel') {a : Operation} {terms : List Term}
    (h : A.decomposePower fuel a = .ok terms) : A.decomposePower fuel' a = .ok terms := by
  induction hle with
  | refl => exact h
  | step _ ih => exact decomposePower_succ ih

theorem decompose_of_exterior_eq_zero {a : Operation} {R : List ℕ} {n : ℕ} (hx : A.element a = .ok ⟨0, R⟩)
    (hn : A.dimension a.degree = .ok n) : A.decompose a = A.decomposePower (n + 1) a := by
  rw [decompose, hx, Result.ok_bind, if_pos rfl, hn, Result.ok_bind]

/-- A generator is left as it is. -/
theorem decompose_of_isGenerator (hp : A.prime.val < 1073741824) {a : Operation} (hgen : IsGenerator A.prime a)
    (ht : a.degree < trackedBelow) (h : a.degree < A.computed) : A.decompose a = .ok [⟨1, a, ⟨0, 0⟩⟩] := by
  rcases hgen with ⟨hodd, rfl⟩ | ⟨v, rfl⟩
  · have helement := element?_letter (p := A.prime) (e := 1) (n := 0) (.inr ⟨hodd, rfl⟩) hp
    have hone : members 1 = [0] := by decide
    rw [decompose_of_exterior hp helement ht one_ne_zero rfl h]
    simp only [exteriorTerms, hone]
    rfl
  · have helement := element?_letter (n := A.prime.val ^ v) A.prime.bockstein_zero hp
    rw [trimmed_singleton (Nat.pow_pos A.prime.pos)] at helement
    obtain ⟨x, hx, hx'⟩ := element_of_isBasis (mem_basis_of_element? helement).1 h
    obtain rfl := Option.some.inj (hx'.symm.trans helement)
    have hnone := powerFactors_eq hp helement (List.cons_ne_nil _ _) ht h
    rw [factors_pow, Option.map_none] at hnone
    rw [decompose_of_exterior_eq_zero hx (dimension_of_lt h), decomposePower, hx, Result.ok_bind, hnone]
    rfl

/-- The coefficient of a power in the product of its factors can be inverted. -/
theorem exists_multiply_powerFactors (hp : A.prime.val < 1073741824) {a first second : Operation} {R : List ℕ}
    (ha : element? A.prime a = some ⟨0, R⟩) (hpos : 0 < a.degree) (ht : a.degree < trackedBelow) (h : a.degree < A.computed)
    (hfactors : A.powerFactors a ⟨0, R⟩ = .ok (some (first, second))) :
    ∃ v, A.multiply 1 first second = .ok v ∧ ¬A.prime.val ∣ v.entry a.index := by
  have hne := ne_nil_of_degree_pos hp ha hpos ht
  rw [powerFactors_eq hp ha hne ht h] at hfactors
  obtain ⟨⟨n, S⟩, hsome, hpair⟩ := Option.map_eq_some_iff.mp (Except.ok.inj hfactors)
  obtain ⟨rfl, rfl⟩ := Prod.mk.inj hpair
  have hF := factors_of_factors (by omega) (proper_of_element? hp ha ht).1.trimmed hsome
  have hdegree := factors_degree (p := A.prime) a n S
  have hfirst := (mem_basis_of_element? (element?_firstFactor hp hF)).1
  have hsecond := (mem_basis_of_element? (element?_secondFactor hp ha ht hF)).1
  obtain ⟨v, hv⟩ := exists_multiply_tracked hp hfirst hsecond (by omega) (by omega) 1
  obtain ⟨_, _, _, _, hcoords⟩ := multiply_eq_ok hv
  refine ⟨v, hv, fun hdvd => mul_factors_ne_zero hp ha ht hF ?_⟩
  rw [Nat.cast_one, one_smul] at hcoords
  rw [← hcoords, coords_apply]
  exact (ZMod.natCast_eq_zero_iff _ _).mpr hdvd

/-- Terms that stand for an element add up to it. -/
theorem sumTerms_of_decomposes (hp : A.prime.val < 1073741824) {a : Operation} (ha : a.IsBasis A.prime) (ht : a.degree < trackedBelow)
    (h : a.degree < A.computed) {terms : List Term} (hterms : Decomposes A.prime a terms) :
    A.sumTerms a.degree terms = .ok (Vec.unit (dim A.prime a.degree) a.index) := by
  let O : Operators A.prime trackedBelow (Faithful A.prime) := Faithful.operators (by omega) trackedBelow
  obtain ⟨v, hv, hvp, hvc⟩ := exists_sumTerms hp hterms.liesIn h ht O le_rfl ht
  have hunit := proper_unit (p := A.prime) (dim A.prime a.degree) a.index
  have hzero : O.denote a.degree (v.coords A.prime - (Vec.unit (dim A.prime a.degree) a.index).coords A.prime) = 0 := by
    rw [map_sub, hvc, hterms.holds O le_rfl ht, coords_unit ha.index_lt, O.denote_single ha, sub_self]
  have hsame := Faithful.denote_injective hp ht (Submodule.sub_mem _ hvp.coords_mem hunit.coords_mem) hzero
  rw [hv, hvp.ext hunit (sub_eq_zero.mp hsame)]

/-- Basis elements are decomposed correctly. -/
theorem decompose_correct (hp : A.prime.val < 2 ^ 30) {d : ℤ} (hd : 1 ≤ d) (ht : d < 2 ^ 25 - 1) {n : ℕ}
    (hn : A.dimension d = .ok n) {i : ℕ} (hi : i < n) :
    ∃ x terms, A.element ⟨d, i⟩ = .ok x ∧ A.decompose ⟨d, i⟩ = .ok terms ∧
      (x.exterior = 0 → (∀ fuel, n < fuel → A.decomposePower fuel ⟨d, i⟩ = .ok terms) ∧
        ∀ first second, A.powerFactors ⟨d, i⟩ x = .ok (some (first, second)) →
          ∃ v, A.multiply 1 first second = .ok v ∧ ¬A.prime.val ∣ v.entry i) ∧
      A.sumTerms d terms = .ok (Vec.unit n i) ∧
      ∃ ks, (Growing.generators d).run A = (.ok ks, A) ∧ (i ∈ ks → terms = [⟨1, ⟨d, i⟩, ⟨0, 0⟩⟩]) ∧
        (i ∉ ks → ∀ t ∈ terms, (0 < t.left.degree ∧ t.left.degree < d) ∧ 0 < t.right.degree ∧ t.right.degree < d) := by
  have htracked : ((2 : ℤ) ^ 25 - 1) = trackedBelow := by decide
  rw [htracked] at ht
  obtain ⟨hdim, hcomputed⟩ := dimension_eq_ok hn
  have h : d < A.computed := hcomputed (by omega)
  have hpos : 0 < d := by omega
  have hbasis : Operation.IsBasis A.prime ⟨d, i⟩ := ⟨hpos.le, hdim ▸ hi⟩
  obtain ⟨x, hx, hx'⟩ := element_of_isBasis hbasis h
  have hdecompose := decompose_eq hp hbasis hpos ht h
  have hterms := decomposes_decomposition hp hbasis hpos ht
  obtain ⟨ks, hrun, hks⟩ := Growing.run_generators hp hpos ht
  rw [extend, if_pos h] at hrun
  refine ⟨x, decomposition A.prime ⟨d, i⟩, hx, hdecompose, fun hzero => ?_, ?_, ks, hrun, fun hmem => ?_, fun hmem t hterm => ?_⟩
  · obtain ⟨mask, R⟩ := x
    obtain rfl : mask = 0 := hzero
    rw [decompose_of_exterior_eq_zero hx hn] at hdecompose
    exact ⟨fun fuel hfuel => decomposePower_of_le hfuel hdecompose,
      fun first second => exists_multiply_powerFactors hp hx' hpos ht h⟩
  · rw [hdim]
    exact sumTerms_of_decomposes hp hbasis ht h hterms
  · exact Except.ok.inj (hdecompose.symm.trans (decompose_of_isGenerator hp ((hks i).mp hmem) ht h))
  · have hdegree := (hterms.liesIn t hterm).degree_eq
    have hsmaller := hterms.smaller (fun hgen => hmem ((hks i).mpr hgen)) t hterm
    simp only at hdegree
    omega

/-- `Sq(0,1)` is decomposed at the prime 2. -/
theorem decompose_correct_three : let A := (Algebra.new Prime.two none).extend 3
    A.dimension 3 = .ok 2 ∧ ∃ terms, A.decompose ⟨3, 1⟩ = .ok terms ∧ A.sumTerms 3 terms = .ok (Vec.unit 2 1) := by
  intro A
  have hn : A.dimension 3 = .ok 2 := by decide +kernel
  obtain ⟨_, terms, _, hterms, _, hsum, _⟩ := decompose_correct (A := A) (by decide) (by decide) (by decide) hn (i := 1) (by decide)
  exact ⟨hn, terms, hterms, hsum⟩

end Algebra
end Steenrod
