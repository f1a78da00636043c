import Steenrod.Proofs.Milnor.Coproduct
/-!
Looking up basis elements never fails below the tracked bound. Main statements: the monomials that a product runs through are in
canonical form, keep their exterior factors apart and stay within the bits of a word; whatever a product, a coproduct, a
decomposition or a relation looks up is found in the basis, in the degree in which it is looked up.
-/
namespace Steenrod
namespace Milnor

variable {p : Prime}

/-- The terms of `x Q_k …` for exterior factors one after the other. -/
def Monomial.timesList (p : Prime) (x : Monomial) (ks : List ℕ) : List Monomial :=
  ks.foldl (fun xs k => xs.flatMap (Monomial.timesExterior p · k)) [x]

/-- A monomial of degree `d` in canonical form, with `n` different exterior factors. -/
structure Monomial.Reached (p : Prime) (d n : ℕ) (x : Monomial) : Prop where
  liesIn : x.LiesIn p d
  trimmed : Trimmed x.exponents
  length_members : (members x.exterior).length = n

/-- The bits that multiplying `Q(E) P(R)` by exterior factors shifts to, and the next ones, are bits of a word. -/
def ShiftsFit (p : Prime) (x y : MilnorElement) : Prop :=
  ∀ before k after, members y.exterior = before ++ k :: after →
    ∀ m ∈ Monomial.timesList p ⟨1, x.exterior, x.exponents⟩ before, ∀ i ≤ m.exponents.length, k + i + 1 < 32

section Reached

variable {d n k : ℕ} {x y : Monomial}

theorem length_members_insert {mask j : ℕ} (hj : j < 32) (hbit : mask.testBit j = false) :
    (members (mask ||| 1 <<< j)).length = (members mask).length + 1 := by
  have hsum := sum_members_insert (fun _ => 1) hj hbit
  simpa using hsum

/-- One more exterior factor keeps the canonical form and the factors apart. -/
theorem Monomial.Reached.timesExterior (hodd : p.isOdd) (hx : x.Reached p d n) (hd : d + tauDegree p k < 2 ^ 32)
    (h : y ∈ x.timesExterior p k) : y.Reached p (d + tauDegree p k) (n + 1) := by
  have hlies := liesIn_of_mem_timesExterior hodd hx.liesIn hd h
  obtain ⟨j, R, hy, _⟩ := exists_wedge_of_mem hodd h
  have hlt := hlies.exterior_lt
  unfold Monomial.wedge at hy
  split at hy
  · simp at hy
  · next hbit =>
    obtain rfl := Option.some.inj hy
    have hj : j < 32 := lt_two_pow_iff.mp hlt j (by simp)
    exact ⟨hlies, trimmed_trim R, by rw [length_members_insert hj (by simpa using hbit), hx.length_members]⟩

/-- So do exterior factors one after the other. -/
theorem Monomial.Reached.timesList (hodd : p.isOdd) (hx : x.Reached p d n) (ks : List ℕ)
    (h : d + (ks.map (tauDegree p)).sum < 2 ^ 32) :
    ∀ y ∈ x.timesList p ks, y.Reached p (d + (ks.map (tauDegree p)).sum) (n + ks.length) := by
  have hrun : ∀ xs : List Monomial, (∀ x ∈ xs, x.Reached p d n) →
      ∀ y ∈ ks.foldl (fun xs k => xs.flatMap (Monomial.timesExterior p · k)) xs,
        y.Reached p (d + (ks.map (tauDegree p)).sum) (n + ks.length) := by
    clear hx
    induction ks generalizing d n with
    | nil => exact fun xs hxs => hxs
    | cons k ks ih =>
      intro xs hxs
      rw [List.map_cons, List.sum_cons] at h ⊢
      rw [List.foldl_cons, ← Nat.add_assoc, List.length_cons, Nat.add_comm ks.length, ← Nat.add_assoc]
      refine ih (by omega) _ fun y hy => ?_
      obtain ⟨x, hx, hy⟩ := List.mem_flatMap.mp hy
      exact (hxs x hx).timesExterior hodd (by omega) hy
  exact hrun [x] (by simpa using hx)

/-- The exterior factors of a tracked degree are those of the lower half of a word. -/
theorem lt_of_tauDegree (hodd : p.isOdd) (h : tauDegree p k < trackedBelow) : k < 16 := by
  by_contra hk
  have hbase : 3 ^ k ≤ p.val ^ k := Nat.pow_le_pow_left (three_le hodd) k
  have hpow : 3 ^ 16 ≤ 3 ^ k := Nat.pow_le_pow_right (by decide) (Nat.le_of_not_lt hk)
  unfold tauDegree trackedBelow at h
  omega

/-- A sequence of tracked degree has entries in the lower half of a word. -/
theorem length_lt (hodd : p.isOdd) {R : List ℕ} (hR : Trimmed R) (h : step p * weight p (index R) < trackedBelow) :
    R.length < 16 := by
  refine Nat.lt_succ_of_le (length_le_of_index hR fun i hi => ?_)
  by_contra hne
  have hplace : p.val ^ i ≤ placeWeight p i :=
    Finset.single_le_sum (f := fun j => p.val ^ j) (fun _ _ => Nat.zero_le _) (Finset.mem_range.mpr (Nat.lt_succ_self i))
  have hbase : 3 ^ i ≤ p.val ^ i := Nat.pow_le_pow_left (three_le hodd) i
  have hpow : 3 ^ 15 ≤ 3 ^ i := Nat.pow_le_pow_right (by decide) hi
  have hweight := (Nat.le_mul_of_pos_left (placeWeight p i) (Nat.pos_of_ne_zero hne)).trans (mul_placeWeight_le (index R) i)
  have hmul := Nat.mul_le_mul (four_le_step hodd) hweight
  unfold trackedBelow at h
  omega

end Reached

section Product

variable {x y : MilnorElement} (hx : x.Proper p) (hy : y.Proper p)

include hx hy

/-- No bit beyond a word is shifted to. -/
theorem shiftsFit (h : x.degree p + y.degree p < trackedBelow) : ShiftsFit p x y := by
  intro before k after hmembers m hm i hi
  have hodd : p.isOdd := isOdd_of_mem hy (k := k) (by simp [hmembers])
  have htracked : trackedBelow < 2 ^ 32 := by decide
  have hstart : Monomial.Reached p (x.degree p) _ ⟨1, x.exterior, x.exponents⟩ := ⟨⟨rfl, hx.exterior_lt⟩, hx.trimmed, rfl⟩
  have hdegree : y.degree p = ((members y.exterior).map (tauDegree p)).sum + step p * weight p (index y.exponents) := rfl
  rw [hmembers, List.map_append, List.map_cons, List.sum_append, List.sum_cons] at hdegree
  have hreached := hstart.timesList hodd before (by omega) m hm
  have hmdegree : ((members m.exterior).map (tauDegree p)).sum + step p * weight p (index m.exponents) = _ := hreached.liesIn.degree_eq
  have hk : k < 16 := lt_of_tauDegree hodd (by omega)
  have hlength : m.exponents.length < 16 := length_lt hodd hreached.trimmed (by omega)
  omega

/-- A term of a product has the exterior factors of both sides. -/
theorem length_members_of_mem_product (h : x.degree p + y.degree p < 2 ^ 32) {t : ℕ × MilnorElement} (ht : t ∈ product p x y) :
    (members t.2.exterior).length = (members x.exterior).length + (members y.exterior).length := by
  obtain ⟨m, hm, ht⟩ := List.mem_flatMap.mp ht
  obtain ⟨⟨c, T⟩, _, rfl⟩ := List.mem_map.mp ht
  have hdegree : y.degree p = ((members y.exterior).map (tauDegree p)).sum + step p * weight p (index y.exponents) := rfl
  cases hodd : p.isOdd with
  | true =>
    have hstart : Monomial.Reached p (x.degree p) _ ⟨1, x.exterior, x.exponents⟩ := ⟨⟨rfl, hx.exterior_lt⟩, hx.trimmed, rfl⟩
    exact (hstart.timesList hodd (members y.exterior) (by omega) m hm).length_members
  | false =>
    have hnone : members 0 = [] := by decide
    rw [hy.exterior_eq_zero hodd, timesExteriors_zero] at hm
    rw [List.mem_singleton.mp hm, hy.exterior_eq_zero hodd, hnone]
    rfl

end Product

end Milnor

namespace Algebra

open Milnor

/-- The operation stands for an element in canonical form, and looking that up in the degree of the operation finds it. -/
structure Finds (A : Algebra) (a : Operation) (x : MilnorElement) : Prop where
  element_eq : A.element a = .ok x
  indexIn_eq : A.indexIn a.degree x = .ok a.index
  proper : x.Proper A.prime
  degree_eq : (x.degree A.prime : ℤ) = a.degree

/-- Two operations are found, and their degrees add up to `d`. -/
structure FindsPair (A : Algebra) (d : ℤ) (a b : Operation) : Prop where
  left : ∃ x, A.Finds a x
  right : ∃ y, A.Finds b y
  degree_eq : a.degree + b.degree = d

variable {A : Algebra} {a b : Operation}

section Lookups

variable (hp : A.prime.val < 1073741824) {x y : MilnorElement}

include hp

theorem finds_of_element? (hx : element? A.prime a = some x) (ht : a.degree < trackedBelow) (h : a.degree < A.computed) :
    A.Finds a x := by
  obtain ⟨hproper, hdegree⟩ := proper_of_element? hp hx ht
  obtain ⟨x', hx', helement⟩ := element_of_isBasis (mem_basis_of_element? hx).1 h
  obtain rfl := Option.some.inj (hx.symm.trans helement)
  exact ⟨hx', indexIn_of_index? (index?_of_element? hp hx ht) h, hproper, hdegree⟩

theorem exists_finds (ha : a.IsBasis A.prime) (ht : a.degree < trackedBelow) (h : a.degree < A.computed) : ∃ x, A.Finds a x := by
  obtain ⟨x, hx, _⟩ := element?_eq_some ha
  exact ⟨x, finds_of_element? hp hx ht h⟩

theorem findsPair {d : ℤ} (ht : d < trackedBelow) (h : d < A.computed) (ha : a.IsBasis A.prime) (hb : b.IsBasis A.prime)
    (hdegree : a.degree + b.degree = d) : A.FindsPair d a b := by
  have ha₀ := ha.nonneg
  have hb₀ := hb.nonneg
  exact ⟨exists_finds hp ha (by omega) (by omega), exists_finds hp hb (by omega) (by omega), hdegree⟩

theorem findsPair_of_liesIn {d : ℤ} (ht : d < trackedBelow) (h : d < A.computed) {t : Term} (hlies : t.LiesIn A.prime d) :
    A.FindsPair d t.left t.right :=
  findsPair hp ht h hlies.left hlies.right hlies.degree_eq

/-- The terms of a product are found in its degree. -/
theorem exists_finds_of_mem_product (hx : A.Finds a x) (hy : A.Finds b y) (ht : a.degree + b.degree < trackedBelow)
    (h : a.degree + b.degree < A.computed) {t : ℕ × MilnorElement} (hmem : t ∈ product A.prime x y) :
    ∃ i, A.Finds ⟨a.degree + b.degree, i⟩ t.2 := by
  have htracked : trackedBelow < 2 ^ 32 := by decide
  have hxd := hx.degree_eq
  have hyd := hy.degree_eq
  obtain ⟨hproper, hdegree⟩ := proper_of_mem_product hx.proper hy.proper (by omega) hmem
  obtain ⟨i, hi⟩ := exists_element?_eq hp hproper (by omega)
  have hcast : ((t.2.degree A.prime : ℕ) : ℤ) = a.degree + b.degree := by omega
  rw [hcast] at hi
  exact ⟨i, finds_of_element? hp hi ht h⟩

/-- The summands of a coproduct are found, in degrees that add up. -/
theorem coproduct_finds (hx : A.Finds a x) (ht : a.degree < trackedBelow) (h : a.degree < A.computed) (hfactor : IsFactor x) :
    ∃ summands, A.coproduct a = .ok summands ∧ ∀ s ∈ summands, A.FindsPair a.degree s.1 s.2 := by
  have hx := (element_eq_ok hx.element_eq).1
  refine ⟨_, coproduct_eq hp hx ht h hfactor, fun s hs => ?_⟩
  obtain ⟨hleft, hright, hdegree⟩ := isBasis_of_mem_summands hp hx ht hfactor hs
  exact findsPair hp ht h hleft hright hdegree

/-- The factors of a basis element are found, in degrees that add up, and each has a coproduct. -/
theorem factors_finds (hx : A.Finds a x) (ht : a.degree < trackedBelow) (h : a.degree < A.computed) :
    ∃ factors, A.factors a = .ok factors ∧ (factors.map (·.degree)).sum = a.degree ∧
      ∀ f ∈ factors, ∃ z, A.Finds f z ∧ IsFactor z := by
  have hx := (element_eq_ok hx.element_eq).1
  refine ⟨_, factors_eq hp hx ht h, sum_degree_factorsOf hp hx ht, fun f hf => ?_⟩
  obtain ⟨z, hz, hfactor, hle⟩ := isFactor_of_mem_factorsOf hp hx ht hf
  exact ⟨z, finds_of_element? hp hz (by omega) (by omega), hfactor⟩

/-- The operations in a decomposition are found, in degrees that add up. -/
theorem decompose_finds (ha : a.IsBasis A.prime) (hpos : 0 < a.degree) (ht : a.degree < trackedBelow) (h : a.degree < A.computed) :
    ∃ terms, A.decompose a = .ok terms ∧ ∀ t ∈ terms, A.FindsPair a.degree t.left t.right := by
  obtain ⟨terms, hterms, hread⟩ := exists_decompose hp ha hpos ht
  exact ⟨terms, hread A rfl h, fun t hmem => findsPair_of_liesIn hp ht h (hterms.liesIn t hmem)⟩

/-- The operations in the relations of a computed degree are found, and nothing more is computed for them. -/
theorem relations_find {d : ℤ} (hd : 0 ≤ d) (ht : d < trackedBelow) (h : d < A.computed) :
    ∃ relations, (Growing.relations d).run A = (.ok relations, A) ∧
      ∀ r ∈ relations, ∀ t ∈ r, A.FindsPair d t.left t.right := by
  obtain ⟨rels, A', hrun, _, hrels⟩ := Growing.run_relations hp hd ht
  have hsame : ((Growing.relations d).run A).2 = A := by
    rw [Growing.relations, Growing.run_bind, Growing.run_get]
    simp only
    split
    · rfl
    · rw [Growing.run_bind, Growing.run_compute_of_lt h]
      simp only [Growing.run_read]
  rw [hrun] at hsame
  obtain rfl : A' = A := hsame
  refine ⟨rels, hrun, fun r hr t hmem => findsPair_of_liesIn hp ht h ?_⟩
  rcases hrels with ⟨hodd, rfl, rfl⟩ | ⟨_, hrels⟩
  · obtain rfl := List.mem_singleton.mp hr
    obtain rfl := List.mem_singleton.mp hmem
    have hletter := isBasis_letter (p := A'.prime) (e := 1) (n := 0) (.inr ⟨hodd, rfl⟩) hp
    exact ⟨hletter, hletter, by simp [letter]⟩
  · obtain ⟨x, e, y, rfl, _, he, hdegree, _⟩ := (hrels r).mp hr
    have hlies := liesIn_of_mem_ademTerms hp he hmem
    rwa [hdegree, Int.toNat_of_nonneg hd] at hlies

end Lookups

/-- Whatever is looked up for two basis elements is found in the basis, in canonical form and in its degree: the terms of their
product, the summands of a coproduct, the factors and the decomposition of an element, and the operations in relations. -/
theorem lookups_found (hp : A.prime.val < 2 ^ 30) (ha : a.IsBasis A.prime) (hb : b.IsBasis A.prime)
    (h : a.degree + b.degree < A.computed) (ht : a.degree + b.degree < 2 ^ 25 - 1) :
    ∃ x y, A.Finds a x ∧ A.Finds b y ∧ ShiftsFit A.prime x y ∧
      (∀ t ∈ product A.prime x y, (∃ i, A.Finds ⟨a.degree + b.degree, i⟩ t.2) ∧
        (members t.2.exterior).length = (members x.exterior).length + (members y.exterior).length) ∧
      (∀ c, ∃ v, A.multiply c a b = .ok v) ∧
      (IsFactor x → ∃ summands, A.coproduct a = .ok summands ∧ ∀ s ∈ summands, A.FindsPair a.degree s.1 s.2) ∧
      (∃ factors, A.factors a = .ok factors ∧ (factors.map (·.degree)).sum = a.degree ∧
        ∀ f ∈ factors, ∃ z, A.Finds f z ∧ IsFactor z) ∧
      (0 < a.degree → ∃ terms, A.decompose a = .ok terms ∧ ∀ t ∈ terms, A.FindsPair a.degree t.left t.right) ∧
      ∃ relations, (Growing.relations (a.degree + b.degree)).run A = (.ok relations, A) ∧
        ∀ r ∈ relations, ∀ t ∈ r, A.FindsPair (a.degree + b.degree) t.left t.right := by
  have htracked : (2 ^ 25 - 1 : ℤ) = trackedBelow := by decide
  have hwords : trackedBelow < 2 ^ 32 := by decide
  rw [htracked] at ht
  have ha₀ := ha.nonneg
  have hb₀ := hb.nonneg
  obtain ⟨x, hx⟩ := exists_finds hp ha (by omega) (by omega)
  obtain ⟨y, hy⟩ := exists_finds hp hb (by omega) (by omega)
  have hxd := hx.degree_eq
  have hyd := hy.degree_eq
  refine ⟨x, y, hx, hy, shiftsFit hx.proper hy.proper (by omega), fun t hmem => ⟨?_, ?_⟩, fun c => ?_, fun hfactor => ?_, ?_,
    fun hpos => ?_, ?_⟩
  · exact exists_finds_of_mem_product hp hx hy ht h hmem
  · exact length_members_of_mem_product hx.proper hy.proper (by omega) hmem
  · exact exists_multiply_tracked hp ha hb h ht c
  · exact coproduct_finds hp hx (by omega) (by omega) hfactor
  · exact factors_finds hp hx (by omega) (by omega)
  · exact decompose_finds hp ha hpos (by omega) (by omega)
  · exact relations_find hp (by omega) ht h

/-- `Q_0 Q_1` and `P(1)` at the prime 3. -/
theorem lookups_found_exteriors :
    let A := (Algebra.new Prime.three none).extend 15
    ∃ x y, A.Finds ⟨6, 0⟩ x ∧ A.Finds ⟨4, 0⟩ y ∧ ShiftsFit A.prime x y ∧
      (∀ t ∈ product A.prime x y, (∃ i, A.Finds ⟨10, i⟩ t.2) ∧
        (members t.2.exterior).length = (members x.exterior).length + (members y.exterior).length) ∧
      (∀ c, ∃ v, A.multiply c ⟨6, 0⟩ ⟨4, 0⟩ = .ok v) ∧
      (IsFactor x → ∃ summands, A.coproduct ⟨6, 0⟩ = .ok summands ∧ ∀ s ∈ summands, A.FindsPair 6 s.1 s.2) ∧
      (∃ factors, A.factors ⟨6, 0⟩ = .ok factors ∧ (factors.map (·.degree)).sum = 6 ∧
        ∀ f ∈ factors, ∃ z, A.Finds f z ∧ IsFactor z) ∧
      ((0 : ℤ) < 6 → ∃ terms, A.decompose ⟨6, 0⟩ = .ok terms ∧ ∀ t ∈ terms, A.FindsPair 6 t.left t.right) ∧
      ∃ relations, (Growing.relations 10).run A = (.ok relations, A) ∧
        ∀ r ∈ relations, ∀ t ∈ r, A.FindsPair 10 t.left t.right := by
  have hsix : dim Prime.three 6 = 1 := by decide +kernel
  have hfour : dim Prime.three 4 = 1 := by decide +kernel
  have hprime : ((Algebra.new Prime.three none).extend 15).prime = Prime.three := prime_extend _ _
  have hcomputed : ((Algebra.new Prime.three none).extend 15).computed = 16 := by
    rw [computed_extend]
    rfl
  exact lookups_found (A := (Algebra.new Prime.three none).extend 15) (by rw [hprime]; decide) (a := ⟨6, 0⟩) (b := ⟨4, 0⟩)
    ⟨by decide, by rw [hprime, hsix]; decide⟩ ⟨by decide, by rw [hprime, hfour]; decide⟩ (by rw [hcomputed]; decide) (by decide)

end Algebra
end Steenrod
