import Steenrod.Proofs.Milnor.Solving
/-!
The decomposition of basis elements into products of elements of smaller degree. Main statements: every basis element of positive
degree is decomposed, into terms that do not depend on how much is computed; the terms add up to the element for all operators that
multiply as the elements do; both factors have positive degree unless the element is a generator; and the generators that are listed
are `b` and the powers `P(p^v)`.
-/
namespace Steenrod
namespace Milnor

variable {p : Prime}

theorem members_single {k : ℕ} (hk : k < 32) : members (1 <<< k) = [k] := by
  have hbits : ∀ j ∈ List.range 32, (1 <<< k).testBit j = decide (j = k) := fun j _ => by
    rw [Nat.one_shiftLeft, Nat.testBit_two_pow, decide_eq_decide]
    exact eq_comm
  rw [members, List.filter_congr hbits, List.filter_eq, List.count_eq_one_of_mem List.nodup_range (List.mem_range.mpr hk)]
  rfl

theorem members_xor {mask k : ℕ} {rest : List ℕ} (h : members mask = k :: rest) : members (mask ^^^ 1 <<< k) = rest := by
  have hnodup : (members mask).Nodup := List.nodup_range.filter _
  have hk : mask.testBit k = true := (mem_members.mp (h ▸ List.mem_cons_self)).2
  have hbits : ∀ j ∈ List.range 32, (mask ^^^ 1 <<< k).testBit j = (mask.testBit j && decide (j ≠ k)) := fun j _ => by
    rw [Nat.testBit_xor, Nat.one_shiftLeft, Nat.testBit_two_pow]
    by_cases hj : k = j
    · simp [← hj, hk]
    · simp [hj, Ne.symm hj]
  rw [h, List.nodup_cons] at hnodup
  have hfilter : members (mask ^^^ 1 <<< k) = (members mask).filter fun j => decide (j ≠ k) := by
    rw [members, List.filter_congr hbits, members, List.filter_filter]
    exact List.filter_congr fun j _ => Bool.and_comm _ _
  rw [hfilter, h, List.filter_cons_of_neg (by simp), List.filter_eq_self.mpr fun j hj => ?_]
  exact decide_eq_true fun heq => hnodup.1 (heq ▸ hj)

theorem exists_members_eq_cons {mask : ℕ} (hlt : mask < 2 ^ 32) (hne : mask ≠ 0) : ∃ k rest, members mask = k :: rest := by
  refine List.exists_cons_of_ne_nil fun hnil => hne ?_
  have hnone : members 0 = [] := by decide
  exact members_injective hlt (by norm_num) (hnil.trans hnone.symm)

/-- `Q_k`, as a basis element of the algebra. -/
def exteriorAt (p : Prime) (k : ℕ) : Operation := operationAt p (tauDegree p k) ⟨1 <<< k, []⟩

theorem degree_exterior {k : ℕ} (hk : k < 32) : MilnorElement.degree p ⟨1 <<< k, []⟩ = tauDegree p k := by
  have hzero : weight p (index []) = 0 := rfl
  rw [MilnorElement.degree, degreeOf, members_single hk, hzero]
  simp

theorem degree_exteriorAt (k : ℕ) : (exteriorAt p k).degree = tauDegree p k := rfl

theorem exteriorAt_pos (k : ℕ) : 0 < (exteriorAt p k).degree := by
  have hle := two_pow_le_tauDegree p k
  have hpos : 0 < 2 ^ k := Nat.pow_pos (by decide)
  rw [degree_exteriorAt]
  omega

section Exterior

variable {k : ℕ} (ht : tauDegree p k < trackedBelow)

include ht

variable (hodd : p.isOdd)

include hodd

theorem proper_exterior : MilnorElement.Proper p ⟨1 <<< k, []⟩ where
  trimmed := rfl
  exterior_lt := by
    have := lt_of_tauDegree_lt_tracked ht
    rw [Nat.one_shiftLeft]
    exact Nat.pow_lt_pow_right (by decide) (by omega)
  exterior_eq_zero heven := absurd hodd (by simp [heven])

theorem element?_exteriorAt (hp : p.val < 1073741824) : element? p (exteriorAt p k) = some ⟨1 <<< k, []⟩ :=
  element?_operationAt hp (proper_exterior ht hodd) (by rw [degree_exterior (by have := lt_of_tauDegree_lt_tracked ht; omega)])
    (by exact_mod_cast ht)

theorem Operators.operator_exteriorAt {bound : ℕ} {K : Type} [Ring K] [Module p.Field K] (O : Operators p bound K)
    (hp : p.val < 1073741824) : O.operator (exteriorAt p k) = O.exterior k := by
  have hlt := lt_of_tauDegree_lt_tracked ht
  have hzero : index [] = 0 := rfl
  rw [O.operator_of_element? (element?_exteriorAt ht hodd hp), Operators.element, members_single (by omega), hzero, O.power_zero]
  simp

/-- `Q_{k+1} = P(p^k) Q_k - Q_k P(p^k)`. -/
theorem decomposes_exterior (hp : p.val < 1073741824) {a : Operation} (ha : element? p a = some ⟨1 <<< (k + 1), []⟩)
    (hat : a.degree < trackedBelow) : Decomposes p a
      [⟨1, letter p 0 (p.val ^ k), exteriorAt p k⟩, ⟨p.negate 1, exteriorAt p k, letter p 0 (p.val ^ k)⟩] := by
  have hplace : placeWeight p 0 = 1 := by simp [placeWeight]
  have hlt := lt_of_tauDegree_lt_tracked ht
  have hdegree : ((step p * p.val ^ k + 0 : ℕ) : ℤ) + tauDegree p k = a.degree := by
    have hadd := tauDegree_add hodd k 0
    rw [hplace, Nat.mul_one, Nat.add_zero] at hadd
    rw [← (proper_of_element? hp ha hat).2, degree_exterior (by omega)]
    omega
  have hpower := isBasis_letter (n := p.val ^ k) p.bockstein_zero hp
  have hexterior := (mem_basis_of_element? (element?_exteriorAt ht hodd hp)).1
  have hpos := firstFactor_pos (p := p) (Nat.pow_pos p.pos : 0 < p.val ^ k)
  have hpos' := exteriorAt_pos (p := p) k
  refine ⟨fun t h => ?_, fun _ t h => ?_, fun O hbound h => ?_⟩
  · rcases List.mem_pair.mp h with rfl | rfl
    · exact ⟨hpower, hexterior, hdegree⟩
    · exact ⟨hexterior, hpower, (add_comm _ _).trans hdegree⟩
  · rcases List.mem_pair.mp h with rfl | rfl
    · exact ⟨hpos, hpos'⟩
    · exact ⟨hpos', hpos⟩
  · have hzero : index [] = 0 := rfl
    have hmul := O.power_mul_exterior hodd (index [p.val ^ k]) k (by rw [weight_index_single]; omega)
    rw [index_single, Finsupp.support_single _ (Nat.pow_pos p.pos).ne', Finset.sum_singleton, Finsupp.single_eq_same,
      if_pos le_rfl, Nat.add_zero, tsub_self, O.power_zero, mul_one] at hmul
    rw [termSum_cons, termSum_cons, termSum_nil, O.operator_letter p.bockstein_zero hp, O.operator_exteriorAt ht hodd hp,
      O.operator_of_element? ha, Operators.element, members_single (by omega), hzero, O.power_zero, Prime.cast_negate, Nat.cast_one,
      Operators.bocksteinPower, Operators.single, index_single, pow_zero, one_mul, hmul]
    simp

end Exterior

/-- What is left of an element after `Q_k`. -/
def withoutExterior (k : ℕ) (x : MilnorElement) : MilnorElement := ⟨x.exterior ^^^ 1 <<< k, x.exponents⟩

/-- The operation of what is left of an element after `Q_k`. -/
def restAt (p : Prime) (a : Operation) (k : ℕ) (x : MilnorElement) : Operation :=
  operationAt p (a.degree - tauDegree p k) (withoutExterior k x)

section Split

variable (hp : p.val < 1073741824) {a : Operation} {x : MilnorElement} (ha : element? p a = some x) (ht : a.degree < trackedBelow)
  {k : ℕ} {rest : List ℕ} (hmembers : members x.exterior = k :: rest)

include hp ha ht hmembers

theorem isOdd_of_members : p.isOdd :=
  isOdd_of_mem (proper_of_element? hp ha ht).1 (k := k) (by rw [hmembers]; exact List.mem_cons_self)

theorem proper_withoutExterior : (withoutExterior k x).Proper p := by
  have hproper := (proper_of_element? hp ha ht).1
  have hk := mem_members.mp (show k ∈ members x.exterior from hmembers ▸ List.mem_cons_self)
  refine ⟨hproper.trimmed, Nat.xor_lt_two_pow hproper.exterior_lt ?_, fun heven => ?_⟩
  · rw [Nat.one_shiftLeft]
    exact Nat.pow_lt_pow_right (by decide) hk.1
  · exact absurd (isOdd_of_members hp ha ht hmembers) (by simp [heven])

theorem degree_withoutExterior : ((withoutExterior k x).degree p : ℤ) = a.degree - tauDegree p k := by
  have hdegree := (proper_of_element? hp ha ht).2
  rw [MilnorElement.degree, degreeOf, hmembers, List.map_cons, List.sum_cons] at hdegree
  rw [MilnorElement.degree, degreeOf, withoutExterior, members_xor hmembers]
  simp only
  omega

theorem tauDegree_le : tauDegree p k < trackedBelow := by
  have hdegree := degree_withoutExterior hp ha ht hmembers
  omega

theorem element?_restAt : element? p (restAt p a k x) = some (withoutExterior k x) :=
  element?_operationAt hp (proper_withoutExterior hp ha ht hmembers) (degree_withoutExterior hp ha ht hmembers) (by omega)

theorem restAt_pos (hne : x ≠ ⟨1 <<< k, []⟩) : 0 < (restAt p a k x).degree := by
  have hdegree := degree_withoutExterior hp ha ht hmembers
  have hpos : (withoutExterior k x).degree p ≠ 0 := fun hzero => hne (by
    have hone := eq_one_of_degree (proper_withoutExterior hp ha ht hmembers) hzero
    obtain ⟨mask, R⟩ := x
    obtain ⟨hmask, rfl⟩ := MilnorElement.mk.inj hone
    exact congrArg (MilnorElement.mk · []) (Nat.xor_eq_zero_iff.mp hmask))
  change 0 < a.degree - tauDegree p k
  omega

/-- `Q(E) P(R) = Q_k Q(E - k) P(R)` for the least `k` in `E`. -/
theorem decomposes_split (hne : x ≠ ⟨1 <<< k, []⟩) : Decomposes p a [⟨1, exteriorAt p k, restAt p a k x⟩] := by
  have hodd := isOdd_of_members hp ha ht hmembers
  have hexterior := element?_exteriorAt (tauDegree_le hp ha ht hmembers) hodd hp
  have hrest := element?_restAt hp ha ht hmembers
  refine ⟨fun t h => ?_, fun _ t h => ?_, fun O hbound h => ?_⟩
  · obtain rfl := List.mem_singleton.mp h
    exact ⟨(mem_basis_of_element? hexterior).1, (mem_basis_of_element? hrest).1, add_sub_cancel _ _⟩
  · obtain rfl := List.mem_singleton.mp h
    exact ⟨exteriorAt_pos k, restAt_pos hp ha ht hmembers hne⟩
  · rw [termSum_cons, termSum_nil, O.operator_exteriorAt (tauDegree_le hp ha ht hmembers) hodd hp, O.operator_of_element? hrest,
      O.operator_of_element? ha, Operators.element, Operators.element, withoutExterior, members_xor hmembers, hmembers,
      O.exteriors_cons, Nat.cast_one, one_smul, add_zero, mul_assoc]

end Split

end Milnor

namespace Algebra

open Milnor

variable {A : Algebra}

theorem exteriorOperation_eq (hp : A.prime.val < 1073741824) (hodd : A.prime.isOdd) {k : ℕ}
    (ht : tauDegree A.prime k < trackedBelow) (h : tauDegree A.prime k < A.computed) :
    A.exteriorOperation k = .ok (exteriorAt A.prime k) := by
  have hlt := lt_of_tauDegree_lt_tracked ht
  have hindex := indexIn_operationAt hp (proper_exterior ht hodd) (d := tauDegree A.prime k) (by rw [degree_exterior (by omega)])
    (by exact_mod_cast ht) (by exact_mod_cast h)
  rw [exteriorOperation, tauDegrees_of_lt hp ht, Result.ofOption, Result.ok_bind, hindex]
  rfl

end Algebra

namespace Milnor

variable {p : Prime}

/-- The terms into which an element with exterior factors is decomposed. -/
def exteriorTerms (p : Prime) (a : Operation) (x : MilnorElement) : List Term :=
  match members x.exterior with
  | [] => []
  | k :: _ =>
    if x.exterior = 1 <<< k ∧ x.exponents.isEmpty then
      if k = 0 then [⟨1, a, ⟨0, 0⟩⟩]
      else [⟨1, letter p 0 (p.val ^ (k - 1)), exteriorAt p (k - 1)⟩, ⟨p.negate 1, exteriorAt p (k - 1), letter p 0 (p.val ^ (k - 1))⟩]
    else [⟨1, exteriorAt p k, restAt p a k x⟩]

theorem decomposes_exteriorTerms (hp : p.val < 1073741824) {a : Operation} {x : MilnorElement} (ha : element? p a = some x)
    (ht : a.degree < trackedBelow) (hne : x.exterior ≠ 0) : Decomposes p a (exteriorTerms p a x) := by
  obtain ⟨k, rest, hmembers⟩ := exists_members_eq_cons (proper_of_element? hp ha ht).1.exterior_lt hne
  have hodd := isOdd_of_members hp ha ht hmembers
  rw [exteriorTerms, hmembers]
  simp only
  by_cases hx : x.exterior = 1 <<< k ∧ x.exponents.isEmpty
  · rw [if_pos hx]
    obtain ⟨mask, R⟩ := x
    obtain rfl : R = [] := List.isEmpty_iff.mp hx.2
    obtain rfl : mask = 1 <<< k := hx.1
    cases k with
    | zero => exact decomposes_one (mem_basis_of_element? ha).1 (.inl ⟨hodd, eq_letter_of_element? hp (.inr ⟨hodd, rfl⟩) ha ht⟩)
    | succ k =>
      have hlt := (tauDegree_strictMono (p := p) k.lt_succ_self).trans (tauDegree_le hp ha ht hmembers)
      rw [if_neg k.succ_ne_zero, Nat.add_sub_cancel]
      exact decomposes_exterior hlt hodd hp ha ht
  · rw [if_neg hx]
    refine decomposes_split hp ha ht hmembers ?_
    rintro rfl
    exact hx ⟨rfl, rfl⟩

end Milnor

namespace Algebra

open Milnor

variable {A : Algebra}

theorem decomposeExterior_eq (hp : A.prime.val < 1073741824) {a : Operation} {x : MilnorElement}
    (ha : element? A.prime a = some x) (ht : a.degree < trackedBelow) (h : a.degree < A.computed) (hne : x.exterior ≠ 0) :
    A.decomposeExterior a x = .ok (exteriorTerms A.prime a x) := by
  obtain ⟨k, rest, hmembers⟩ := exists_members_eq_cons (proper_of_element? hp ha ht).1.exterior_lt hne
  have hodd := isOdd_of_members hp ha ht hmembers
  have htau := tauDegree_le hp ha ht hmembers
  have hdegree := degree_withoutExterior hp ha ht hmembers
  rw [decomposeExterior, exteriorTerms, firstMember?, hmembers]
  simp only [List.head?_cons, Result.ofOption, Result.ok_bind]
  by_cases hx : x.exterior = 1 <<< k ∧ x.exponents.isEmpty
  · rw [if_pos hx, if_pos hx]
    cases k with
    | zero => rfl
    | succ k =>
      have hlt := tauDegree_strictMono (p := A.prime) k.lt_succ_self
      have hplace : placeWeight A.prime 0 = 1 := by simp [placeWeight]
      have hadd := tauDegree_add hodd k 0
      rw [hplace, Nat.mul_one, Nat.add_zero] at hadd
      rw [if_neg k.succ_ne_zero, if_neg k.succ_ne_zero, Nat.add_sub_cancel, Nat.pow_eq,
        bocksteinPower_eq hp A.prime.bockstein_zero (by omega), Result.ok_bind,
        exteriorOperation_eq hp hodd (by omega) (by omega)]
      rfl
  · have hindex := indexIn_operationAt hp (proper_withoutExterior hp ha ht hmembers) hdegree (by omega) (by omega)
    rw [if_neg hx, if_neg hx, exteriorOperation_eq hp hodd htau (by omega), Result.ok_bind, degree_exteriorAt]
    rw [withoutExterior] at hindex
    rw [hindex]
    rfl

end Algebra

namespace Milnor

variable {p : Prime}

/-- The terms into which a basis element of positive degree is decomposed. -/
def decomposition (p : Prime) (a : Operation) : List Term :=
  match ((Algebra.new p none).extend a.degree).decompose a with
  | .ok terms => terms
  | .error _ => []

theorem decompose_of_exterior (hp : p.val < 1073741824) {a : Operation} {x : MilnorElement} (ha : element? p a = some x)
    (ht : a.degree < trackedBelow) (hne : x.exterior ≠ 0) {A : Algebra} (hA : A.prime = p) (h : a.degree < A.computed) :
    A.decompose a = .ok (exteriorTerms p a x) := by
  subst hA
  obtain ⟨y, hy, hy'⟩ := Algebra.element_of_isBasis (mem_basis_of_element? ha).1 h
  obtain rfl := Option.some.inj (hy'.symm.trans ha)
  rw [Algebra.decompose, hy, Result.ok_bind, if_neg hne, Algebra.decomposeExterior_eq hp ha ht h hne]

theorem exists_decompose (hp : p.val < 1073741824) {a : Operation} (ha : a.IsBasis p) (hpos : 0 < a.degree)
    (ht : a.degree < trackedBelow) : ∃ terms, Decomposes p a terms ∧
      ∀ A : Algebra, A.prime = p → a.degree < A.computed → A.decompose a = .ok terms := by
  obtain ⟨x, hx, _⟩ := element?_eq_some ha
  have hread : ∀ A : Algebra, A.prime = p → a.degree < A.computed → A.element a = .ok x := by
    rintro A rfl h
    obtain ⟨y, hy, hy'⟩ := Algebra.element_of_isBasis ha h
    rw [hy, Option.some.inj (hy'.symm.trans hx)]
  by_cases hzero : x.exterior = 0
  · obtain ⟨mask, R⟩ := x
    obtain rfl : mask = 0 := hzero
    obtain ⟨terms, hterms, hrun⟩ := exists_decomposePower hp (dim p a.degree + 1) hx hpos ht (Nat.lt_succ_of_le (rank_le a))
    refine ⟨terms, hterms, fun A hA h => ?_⟩
    have hrun := hrun A hA h
    rw [Algebra.decompose, hread A hA h, Result.ok_bind, if_pos rfl, Algebra.dimension_of_lt h, hA]
    exact hrun
  · exact ⟨_, decomposes_exteriorTerms hp hx ht hzero, fun A hA h => decompose_of_exterior hp hx ht hzero hA h⟩

theorem decomposition_spec (hp : p.val < 1073741824) {a : Operation} (ha : a.IsBasis p) (hpos : 0 < a.degree)
    (ht : a.degree < trackedBelow) : Decomposes p a (decomposition p a) ∧
      ∀ A : Algebra, A.prime = p → a.degree < A.computed → A.decompose a = .ok (decomposition p a) := by
  obtain ⟨terms, hterms, hrun⟩ := exists_decompose hp ha hpos ht
  have hcomputed : a.degree < ((Algebra.new p none).extend a.degree).computed := by
    rw [Algebra.computed_extend]
    split <;> omega
  have hsame : decomposition p a = terms := by
    rw [decomposition, hrun _ (Algebra.prime_extend _ _) hcomputed]
  exact hsame ▸ ⟨hterms, hrun⟩

end Milnor

namespace Algebra

open Milnor

variable {A : Algebra}

/-- Every basis element of positive degree is decomposed, in the same way however much is computed. -/
theorem decompose_eq (hp : A.prime.val < 1073741824) {a : Operation} (ha : a.IsBasis A.prime) (hpos : 0 < a.degree)
    (ht : a.degree < trackedBelow) (h : a.degree < A.computed) : A.decompose a = .ok (decomposition A.prime a) :=
  (decomposition_spec hp ha hpos ht).2 A rfl h

end Algebra

namespace Milnor

variable {p : Prime}

theorem decomposes_decomposition (hp : p.val < 1073741824) {a : Operation} (ha : a.IsBasis p) (hpos : 0 < a.degree)
    (ht : a.degree < trackedBelow) : Decomposes p a (decomposition p a) :=
  (decomposition_spec hp ha hpos ht).1

/-- A word `b P(n)` is decomposed into its letters. -/
theorem exteriorAt_zero : exteriorAt p 0 = letter p 1 0 := by
  have hdegree : tauDegree p 0 = step p * 0 + 1 := by simp [tauDegree]
  rw [exteriorAt, hdegree]
  rfl

theorem decomposition_letter (hp : p.val < 1073741824) (hodd : p.isOdd) {n : ℕ} (hn : 0 < n) (ht : step p * n + 1 < trackedBelow) :
    decomposition p (letter p 1 n) = [⟨1, letter p 1 0, letter p 0 n⟩] := by
  have hlt : ((step p * n + 1 : ℕ) : ℤ) < trackedBelow := by exact_mod_cast ht
  have hcomputed : (letter p 1 n).degree < ((Algebra.new p none).extend (letter p 1 n).degree).computed := by
    rw [Algebra.computed_extend]
    split <;> omega
  have helement := element?_letter (n := n) (.inr ⟨hodd, rfl⟩) hp
  have hone : members 1 = [0] := by decide
  have hrest : restAt p (letter p 1 n) 0 ⟨1, trim [n]⟩ = letter p 0 n := by
    have hdegree : (letter p 1 n).degree - tauDegree p 0 = (step p * n + 0 : ℕ) := by simp [letter, tauDegree]
    have hmask : 1 ^^^ 1 <<< 0 = 0 := by decide
    rw [restAt, hdegree, withoutExterior, hmask]
    rfl
  rw [decomposition, decompose_of_exterior hp helement hlt one_ne_zero (Algebra.prime_extend _ _) hcomputed]
  simp only [exteriorTerms]
  rw [hone]
  simp only
  rw [if_neg (fun h => ?_), hrest, exteriorAt_zero]
  rw [trimmed_singleton hn] at h
  exact absurd h.2 (by simp)

theorem isPowerOf_iff {n : ℕ} : isPowerOf p n = true ↔ ∃ v, n = p.val ^ v := by
  induction n using isPowerOf.induct p with
  | case1 =>
    rw [isPowerOf, if_pos rfl]
    simp only [Bool.false_eq_true, false_iff]
    rintro ⟨v, h⟩
    exact absurd h (Nat.pow_pos p.pos).ne
  | case2 n hne hmod ih =>
    obtain ⟨m, rfl⟩ := Nat.dvd_of_mod_eq_zero hmod
    rw [isPowerOf, if_neg hne, if_pos hmod, ih, Nat.mul_div_cancel_left m p.pos]
    constructor
    · rintro ⟨v, rfl⟩
      exact ⟨v + 1, (pow_succ' _ _).symm⟩
    · rintro ⟨_ | v, h⟩
      · have hone := Nat.dvd_one.mp (Dvd.intro m (h.trans (pow_zero _)))
        exact absurd hone p.prime.ne_one
      · rw [pow_succ'] at h
        exact ⟨v, Nat.eq_of_mul_eq_mul_left p.pos h⟩
  | case3 n hne hmod =>
    rw [isPowerOf, if_neg hne, if_neg hmod]
    constructor
    · exact fun h => ⟨0, by simpa using h⟩
    · rintro ⟨_ | v, rfl⟩
      · simp
      · exact absurd (Nat.mod_eq_zero_of_dvd (dvd_pow_self _ v.succ_ne_zero)) hmod

end Milnor

namespace Growing

open Milnor

variable {A : Algebra}

/-- The generators of a degree are listed. -/
theorem run_generators (hp : A.prime.val < 1073741824) {d : ℤ} (hpos : 0 < d) (ht : d < trackedBelow) :
    ∃ ks, (generators d).run A = (.ok ks, A.extend d) ∧ ∀ k, k ∈ ks ↔ IsGenerator A.prime ⟨d, k⟩ := by
  have hprime := A.prime_extend d
  have hcomputed : d < (A.extend d).computed := by
    rw [A.computed_extend]
    split <;> omega
  rw [generators, if_neg (by omega), run_bind, run_compute_tracked hp ht]
  simp only
  rw [run_bind, run_get]
  simp only
  rw [hprime, q_eq hp]
  by_cases hb : A.prime.isOdd ∧ d = 1
  · rw [if_pos hb]
    obtain ⟨hodd, rfl⟩ := hb
    have hfour := four_le_step hodd
    have hone : letter A.prime 1 0 = ⟨1, 0⟩ := letter_zero (.inr ⟨hodd, rfl⟩) hp
    refine ⟨[0], rfl, fun k => List.mem_singleton.trans ⟨?_, ?_⟩⟩
    · rintro rfl
      exact .inl ⟨hodd, hone.symm⟩
    · rintro (⟨_, h⟩ | ⟨v, h⟩)
      · exact (Operation.mk.inj (h.trans hone)).2
      · have hdegree : (1 : ℤ) = (step A.prime * A.prime.val ^ v + 0 : ℕ) := congrArg Operation.degree h
        have := Nat.le_mul_of_pos_right (step A.prime) (Nat.pow_pos A.prime.pos : 0 < A.prime.val ^ v)
        omega
  · rw [if_neg hb]
    obtain ⟨n, rfl⟩ := Int.eq_ofNat_of_zero_le hpos.le
    have hgen : ∀ k, IsGenerator A.prime ⟨n, k⟩ ↔ ∃ v, (⟨n, k⟩ : Operation) = letter A.prime 0 (A.prime.val ^ v) := fun k =>
      or_iff_right fun ⟨hodd, h⟩ => hb ⟨hodd, congrArg Operation.degree h⟩
    have hdegree : ∀ {k v}, (⟨n, k⟩ : Operation) = letter A.prime 0 (A.prime.val ^ v) → n = step A.prime * A.prime.val ^ v := fun h =>
      Int.ofNat_inj.mp (congrArg Operation.degree h)
    rw [← Int.ofNat_tmod, ← Int.ofNat_tdiv, Int.toNat_natCast]
    by_cases hpower : ((n % step A.prime : ℕ) : ℤ) ≠ 0 ∨ !isPowerOf A.prime (n / step A.prime)
    · rw [if_pos hpower]
      refine ⟨[], rfl, fun k => ⟨fun h => absurd h List.not_mem_nil, fun h => ?_⟩⟩
      obtain ⟨v, h⟩ := (hgen k).mp h
      rw [hdegree h, Nat.mul_mod_right, Nat.mul_div_cancel_left _ (step_pos _), isPowerOf_iff.mpr ⟨v, rfl⟩] at hpower
      simp at hpower
    · rw [if_neg hpower, run_bind, run_read]
      obtain ⟨hmod, hpow⟩ : n % step A.prime = 0 ∧ isPowerOf A.prime (n / step A.prime) = true := by
        rw [not_or, not_not, Bool.not_eq_true', Bool.not_eq_false] at hpower
        exact ⟨Int.ofNat_inj.mp hpower.1, hpower.2⟩
      obtain ⟨v, hv⟩ := isPowerOf_iff.mp hpow
      have hn : n = step A.prime * A.prime.val ^ v + 0 := by
        rw [← hv, Nat.add_zero, Nat.mul_div_cancel' (Nat.dvd_of_mod_eq_zero hmod)]
      have hfound : (A.extend n).bocksteinPower 0 (n / step A.prime) = .ok (letter A.prime 0 (A.prime.val ^ v)) := by
        have hfound := Algebra.bocksteinPower_eq (A := A.extend n) (e := 0) (n := A.prime.val ^ v) (by rwa [hprime])
          (Prime.bockstein_zero _) (by rw [hprime, ← hn]; exact_mod_cast hcomputed)
        rw [hprime] at hfound
        rwa [hv]
      rw [hfound]
      refine ⟨[_], rfl, fun k => List.mem_singleton.trans ((hgen k).trans ⟨?_, ?_⟩).symm⟩
      · rintro ⟨w, h⟩
        have hsame : A.prime.val ^ w = A.prime.val ^ v := Nat.eq_of_mul_eq_mul_left (step_pos _) ((hdegree h).symm.trans hn)
        rw [hsame] at h
        exact congrArg Operation.index h
      · rintro rfl
        refine ⟨v, ?_⟩
        rw [letter, ← hn]

end Growing
end Steenrod
