import Steenrod.Proofs.Milnor.Leading
import Steenrod.Proofs.Milnor.Relations
/-!
The decomposition of powers: a product of two powers is solved for its leading term, and the other terms are decomposed in turn.
Main statement: with enough fuel every power is decomposed, into terms that do not depend on how much is computed and that add up to
it for all operators that multiply as the elements do.
-/
namespace Steenrod

open Vec

namespace Milnor

variable {p : Prime}

/-- The generators of the algebra: `b`, and `P(n)` for the powers `n` of the prime. -/
def IsGenerator (p : Prime) (a : Operation) : Prop :=
  (p.isOdd ∧ a = letter p 1 0) ∨ ∃ v, a = letter p 0 (p.val ^ v)

/-- An element of degree `d`, as a basis element of the algebra. -/
def operationAt (p : Prime) (d : ℤ) (x : MilnorElement) : Operation := ⟨d, (index? p d x).getD 0⟩

section OperationAt

variable (hp : p.val < 1073741824) {x : MilnorElement} (hx : x.Proper p) {d : ℤ} (hd : (x.degree p : ℤ) = d)
  (ht : d < trackedBelow)

include hp hx hd ht

theorem index?_operationAt : index? p d x = some (operationAt p d x).index := by
  subst hd
  obtain ⟨i, hi⟩ := exists_element?_eq hp hx (by exact_mod_cast ht)
  have hindex := index?_of_element? hp hi ht
  rw [operationAt, hindex, Option.getD_some]

theorem element?_operationAt : element? p (operationAt p d x) = some x := by
  subst hd
  obtain ⟨i, hi⟩ := exists_element?_eq hp hx (by exact_mod_cast ht)
  have hindex := index?_of_element? hp hi ht
  rw [operationAt, hindex, Option.getD_some]
  exact hi

end OperationAt

theorem operationAt_of_element? (hp : p.val < 1073741824) {a : Operation} {x : MilnorElement} (h : element? p a = some x)
    (ha : a.degree < trackedBelow) : operationAt p a.degree x = a := by
  rw [operationAt, index?_of_element? hp h ha, Option.getD_some]

theorem sum_map_filter {α K : Type} [AddCommMonoid K] (q : α → Bool) (f : α → K) (l : List α) :
    ((l.filter q).map f).sum = (l.map fun x => if q x then f x else 0).sum := by
  induction l with
  | nil => rfl
  | cons a l ih => cases h : q a <;> simp [h, ih]

theorem mul_apply_of_power (hp : p.val < 1073741824) {a b : Operation} {R S : List ℕ} (ha : element? p a = some ⟨0, R⟩)
    (hb : element? p b = some ⟨0, S⟩) (ht : a.degree + b.degree < trackedBelow) {i : ℕ} {z : MilnorElement}
    (hz : element? p ⟨a.degree + b.degree, i⟩ = some z) :
    mul p a b i = if z.exterior = 0 then powerSum p (powerProduct p R S) (index z.exponents) else 0 := by
  have ha₀ := (mem_basis_of_element? ha).1.nonneg
  have hb₀ := (mem_basis_of_element? hb).1.nonneg
  obtain ⟨hzp, _⟩ := proper_of_element? hp hz ht
  obtain ⟨hap, had⟩ := proper_of_element? hp ha (by omega)
  obtain ⟨hbp, hbd⟩ := proper_of_element? hp hb (by omega)
  have htracked : trackedBelow < 2 ^ 32 := by decide
  have hproduct : product p ⟨0, R⟩ ⟨0, S⟩ = (powerProduct p R S).map fun t => (p.product 1 t.1, ⟨0, t.2⟩) := by
    rw [product, timesExteriors_zero]
    simp
  have hcoords : ∀ t ∈ powerProduct p R S, coordsOf p (a.degree + b.degree) ⟨0, t.2⟩ i =
      if z.exterior = 0 ∧ index t.2 = index z.exponents then 1 else 0 := by
    intro t ht'
    have hmem : (p.product 1 t.1, (⟨0, t.2⟩ : MilnorElement)) ∈ product p ⟨0, R⟩ ⟨0, S⟩ := by
      rw [hproduct]
      exact List.mem_map_of_mem ht'
    obtain ⟨htp, htd⟩ : MilnorElement.Proper p ⟨0, t.2⟩ ∧ MilnorElement.degree p ⟨0, t.2⟩ = _ :=
      proper_of_mem_product hap hbp (by omega) hmem
    have hd : ((MilnorElement.degree p ⟨0, t.2⟩ : ℕ) : ℤ) = a.degree + b.degree := by omega
    rw [coordsOf, index?_operationAt hp htp hd ht]
    simp only
    by_cases hsame : z = ⟨0, t.2⟩
    · have hindex := index?_of_element? hp hz ht
      rw [hsame, index?_operationAt hp htp hd ht] at hindex
      rw [Option.some.inj hindex, Pi.single_eq_same, hsame, if_pos ⟨rfl, rfl⟩]
    · rw [Pi.single_eq_of_ne, if_neg]
      · rintro ⟨hzero, hindex⟩
        exact hsame (proper_eq hzp htp hindex.symm (by rw [hzero]))
      · rintro rfl
        exact hsame (Option.some.inj (hz.symm.trans (element?_operationAt hp htp hd ht)))
  have hsum : ∀ l : List (ℕ × List ℕ), (∀ t ∈ l, t ∈ powerProduct p R S) →
      sumCoords p (a.degree + b.degree) (l.map fun t => (p.product 1 t.1, ⟨0, t.2⟩)) i =
        if z.exterior = 0 then powerSum p l (index z.exponents) else 0 := by
    intro l hl
    induction l with
    | nil => simp [sumCoords, powerSum]
    | cons t l ih =>
      have ih := ih fun u hu => hl u (by simp [hu])
      rw [List.map_cons, sumCoords, List.map_cons, List.sum_cons, Pi.add_apply, Pi.smul_apply, hcoords t (hl t (by simp)), powerSum_cons,
        Finsupp.add_apply, Finsupp.single_apply]
      rw [sumCoords] at ih
      rw [ih, Prime.cast_product, Nat.cast_one, one_mul]
      by_cases hzero : z.exterior = 0 <;> by_cases hindex : index t.2 = index z.exponents <;> simp [hzero, hindex]
  rw [mul, ha, hb]
  simp only
  rw [hproduct]
  exact hsum _ fun t ht => ht

theorem trimmed_singleton {n : ℕ} (hn : 0 < n) : Trimmed [n] := by simp [Trimmed, trim, Nat.ne_of_gt hn]

/-- The first factor of `P(R)` and its exponents, with the second factor's. -/
structure Factors (p : Prime) (R : List ℕ) (n : ℕ) (S : List ℕ) : Prop where
  pos : 0 < n
  trimmed : Trimmed S
  ne_nil : S ≠ []
  weight_eq : weight p (index R) = n + weight p (index S)
  before : SolvedBefore p R n S

theorem factors_of_factors (hp : p.val ≤ 2147483648) {R S : List ℕ} {n : ℕ} (hR : Trimmed R) (h : factors p R = some (n, S)) :
    Factors p R n S := by
  match R, hR, h with
  | [m], hR, h =>
    have hm : 0 < m := by simpa [weight_index_single] using hR.weight_pos (p := p) (by simp)
    obtain ⟨hne, h⟩ := Option.ite_none_left_eq_some.mp h
    obtain ⟨rfl, rfl⟩ := Prod.mk.inj (Option.some.inj h)
    have hle := powerIn_le (p := p) hm
    have hlt : powerIn p m < m := lt_of_le_of_ne hle (Ne.symm hne)
    obtain ⟨v, hv⟩ := (powerIn_spec (p := p) hm).1
    refine ⟨hv ▸ Nat.pow_pos p.pos, trimmed_singleton (by omega), by simp, ?_, solvedBefore_single hp hm⟩
    rw [weight_index_single, weight_index_single, Nat.add_sub_cancel' hle]
  | r :: s :: rest, hR, h =>
    obtain ⟨rfl, rfl⟩ := Prod.mk.inj (Option.some.inj h)
    rw [← Nat.one_mul (List.foldr _ _ _), foldr_eq_weigh]
    refine ⟨Nat.pos_of_ne_zero fun hzero => ?_, hR.tail, by simp, weight_index_cons r (s :: rest), solvedBefore_cons hR (by simp) hp⟩
    exact hR.index_ne_zero (by simp) (weigh_eq_zero one_pos hzero)

theorem eq_single_of_factors {R : List ℕ} (hR : Trimmed R) (hne : R ≠ []) (h : factors p R = none) : ∃ v, R = [p.val ^ v] := by
  match R, hR, hne, h with
  | [m], hR, _, h =>
    have hm : 0 < m := by simpa [weight_index_single] using hR.weight_pos (p := p) (by simp)
    by_cases heq : m = powerIn p m
    · obtain ⟨v, hv⟩ := eq_single_of_powerIn hm heq
      exact ⟨v, by rw [hv]⟩
    · simp [factors, heq] at h

/-- The second factor of `P(R)`, where the first one is `P(n)`. -/
def secondFactor (p : Prime) (a : Operation) (n : ℕ) (S : List ℕ) : Operation :=
  operationAt p (a.degree - (step p * n : ℕ)) ⟨0, S⟩

theorem degree_power (R : List ℕ) : MilnorElement.degree p ⟨0, R⟩ = step p * weight p (index R) := by
  have hnone : members 0 = [] := by decide
  rw [MilnorElement.degree, degreeOf, hnone]
  simp

theorem proper_power {R : List ℕ} (hR : Trimmed R) : MilnorElement.Proper p ⟨0, R⟩ := ⟨hR, by norm_num, fun _ => rfl⟩

section Factors

variable (hp : p.val < 1073741824) {a : Operation} {R S : List ℕ} {n : ℕ} (ha : element? p a = some ⟨0, R⟩)
  (ht : a.degree < trackedBelow) (hF : Factors p R n S)

include hp ha ht hF

theorem degree_secondFactor : ((MilnorElement.degree p ⟨0, S⟩ : ℕ) : ℤ) = a.degree - (step p * n : ℕ) := by
  have hdegree := (proper_of_element? hp ha ht).2
  rw [degree_power, hF.weight_eq, Nat.mul_add] at hdegree
  rw [degree_power]
  omega

theorem element?_secondFactor : element? p (secondFactor p a n S) = some ⟨0, S⟩ :=
  element?_operationAt hp (proper_power hF.trimmed) (degree_secondFactor hp ha ht hF) (by omega)

theorem secondFactor_pos : 0 < (secondFactor p a n S).degree := by
  have hdegree := degree_secondFactor hp ha ht hF
  have hpos := Nat.mul_pos (step_pos p) (hF.trimmed.weight_pos (p := p) hF.ne_nil)
  rw [degree_power] at hdegree
  change 0 < a.degree - (step p * n : ℕ)
  omega

theorem firstFactor_lt : step p * n + 0 < a.degree := by
  have hpos : 0 < a.degree - (step p * n : ℕ) := secondFactor_pos hp ha ht hF
  push_cast at hpos
  omega

omit ha ht in
theorem element?_firstFactor : element? p (letter p 0 n) = some ⟨0, [n]⟩ := by
  rw [element?_letter p.bockstein_zero hp, trimmed_singleton hF.pos]

end Factors

/-- Between powers of one number the second factor is one, too. -/
theorem secondFactor_singleton (hp : p.val < 1073741824) {a : Operation} {m n : ℕ} (ha : element? p a = some ⟨0, [m]⟩)
    (ht : a.degree < trackedBelow) (hF : Factors p [m] n [m - n]) : secondFactor p a n [m - n] = letter p 0 (m - n) := by
  have hdegree := degree_secondFactor hp ha ht hF
  have htrim : trim [m - n] = [m - n] := hF.trimmed
  rw [degree_power, weight_index_single] at hdegree
  rw [secondFactor, letter, operationAt, ← hdegree, htrim, Nat.add_zero]

theorem firstFactor_pos {n : ℕ} (hn : 0 < n) : 0 < (letter p 0 n).degree := by
  have := Nat.mul_pos (step_pos p) hn
  simp only [letter]
  omega

theorem factors_degree (a : Operation) (n : ℕ) (S : List ℕ) :
    (letter p 0 n).degree + (secondFactor p a n S).degree = a.degree := by
  rw [secondFactor, operationAt]
  simp only [letter, Nat.add_zero]
  omega

end Milnor

namespace Algebra

open Milnor

variable {A : Algebra}

theorem indexIn_operationAt (hp : A.prime.val < 1073741824) {x : MilnorElement} (hx : x.Proper A.prime) {d : ℤ}
    (hd : (x.degree A.prime : ℤ) = d) (ht : d < trackedBelow) (h : d < A.computed) :
    A.indexIn d x = .ok (operationAt A.prime d x).index :=
  indexIn_of_index? (index?_operationAt hp hx hd ht) h

theorem powerFactors_eq (hp : A.prime.val < 1073741824) {a : Operation} {R : List ℕ} (ha : element? A.prime a = some ⟨0, R⟩)
    (hne : R ≠ []) (ht : a.degree < trackedBelow) (h : a.degree < A.computed) :
    A.powerFactors a ⟨0, R⟩ = .ok ((Milnor.factors A.prime R).map fun f => (letter A.prime 0 f.1, secondFactor A.prime a f.1 f.2)) := by
  have hR := (proper_of_element? hp ha ht).1.trimmed
  have hfirst : ∀ {n S}, Factors A.prime R n S → A.bocksteinPower 0 n = .ok (letter A.prime 0 n) := fun hF => by
    have hlt := firstFactor_lt hp ha ht hF
    exact bocksteinPower_eq hp A.prime.bockstein_zero (by omega)
  have hsecond : ∀ {n S}, Factors A.prime R n S →
      A.indexIn (a.degree - (letter A.prime 0 n).degree) ⟨0, S⟩ = .ok (secondFactor A.prime a n S).index := fun {n S} hF => by
    have hdegree := degree_secondFactor hp ha ht hF
    have hpos := firstFactor_pos (p := A.prime) hF.pos
    exact indexIn_operationAt hp (proper_power hF.trimmed) hdegree (by omega) (by omega)
  match R, hR, hne, ha with
  | [m], hR, _, ha =>
    simp only [powerFactors, Milnor.factors]
    by_cases heq : m = powerIn A.prime m
    · rw [if_pos heq, if_pos heq, Option.map_none]
    · have hF : Factors A.prime [m] (powerIn A.prime m) [m - powerIn A.prime m] :=
        factors_of_factors (by omega) hR (if_neg heq)
      have hsame := secondFactor_singleton hp ha ht hF
      have hlt : (secondFactor A.prime a (powerIn A.prime m) [m - powerIn A.prime m]).degree < a.degree := by
        have := firstFactor_pos (p := A.prime) hF.pos
        have := factors_degree (p := A.prime) a (powerIn A.prime m) [m - powerIn A.prime m]
        omega
      rw [hsame] at hlt
      simp only [letter] at hlt
      rw [if_neg heq, if_neg heq, hfirst hF, Result.ok_bind, bocksteinPower_eq hp A.prime.bockstein_zero (by omega),
        Option.map_some, hsame]
      rfl
  | r :: s :: rest, hR, _, ha =>
    have hF := factors_of_factors (p := A.prime) (by omega) hR rfl
    simp only [powerFactors, Milnor.factors]
    rw [hfirst hF, Result.ok_bind, hsecond hF]
    rfl

end Algebra

namespace Milnor

variable {p : Prime}

theorem ne_nil_of_degree_pos (hp : p.val < 1073741824) {a : Operation} {R : List ℕ} (ha : element? p a = some ⟨0, R⟩)
    (hpos : 0 < a.degree) (ht : a.degree < trackedBelow) : R ≠ [] := by
  rintro rfl
  have hdegree := (proper_of_element? hp ha ht).2
  have hzero : weight p (index []) = 0 := rfl
  rw [degree_power, hzero] at hdegree
  omega

/-- How late a basis element comes in its degree. -/
noncomputable def latenessAt (p : Prime) (a : Operation) : ℕ :=
  match element? p a with
  | some z => lateness p (a.degree.toNat / step p) (index z.exponents)
  | none => 0

/-- The number of basis elements that come before one. -/
noncomputable def rank (p : Prime) (a : Operation) : ℕ :=
  ((Finset.range (dim p a.degree)).filter fun i => latenessAt p ⟨a.degree, i⟩ < latenessAt p a).card

theorem rank_le (a : Operation) : rank p a ≤ dim p a.degree :=
  (Finset.card_filter_le _ _).trans (Finset.card_range _).le

theorem rank_lt {a : Operation} {i : ℕ} (hi : i < dim p a.degree) (h : latenessAt p ⟨a.degree, i⟩ < latenessAt p a) :
    rank p ⟨a.degree, i⟩ < rank p a := by
  refine Finset.card_lt_card (Finset.ssubset_iff_of_subset (fun j hj => ?_) |>.mpr ⟨i, ?_, ?_⟩)
  · obtain ⟨hj, hlt⟩ := Finset.mem_filter.mp hj
    exact Finset.mem_filter.mpr ⟨hj, hlt.trans h⟩
  · exact Finset.mem_filter.mpr ⟨Finset.mem_range.mpr hi, h⟩
  · exact fun hmem => lt_irrefl _ (Finset.mem_filter.mp hmem).2

section Solve

variable (hp : p.val < 1073741824) {a : Operation} {R S : List ℕ} {n : ℕ} (ha : element? p a = some ⟨0, R⟩)
  (ht : a.degree < trackedBelow) (hF : Factors p R n S)

include hp ha ht hF

theorem mul_factors_apply {i : ℕ} {z : MilnorElement} (hz : element? p ⟨a.degree, i⟩ = some z) :
    mul p (letter p 0 n) (secondFactor p a n S) i =
      if z.exterior = 0 then powerSum p (powerProduct p [n] S) (index z.exponents) else 0 := by
  have hdegree := factors_degree (p := p) a n S
  refine mul_apply_of_power hp (element?_firstFactor hp hF) (element?_secondFactor hp ha ht hF) (by omega) ?_
  rwa [hdegree]

/-- The element itself occurs in the product of its factors. -/
theorem mul_factors_ne_zero : mul p (letter p 0 n) (secondFactor p a n S) a.index ≠ 0 := by
  rw [mul_factors_apply hp ha ht hF ha, if_pos rfl]
  exact hF.before.ne_zero

/-- What else occurs in the product comes before, and is no generator. -/
theorem before_of_mul_factors {i : ℕ} (hi : i < dim p a.degree) (hne : i ≠ a.index)
    (h : mul p (letter p 0 n) (secondFactor p a n S) i ≠ 0) :
    (∃ T, element? p ⟨a.degree, i⟩ = some ⟨0, T⟩) ∧ rank p ⟨a.degree, i⟩ < rank p a ∧ ¬IsGenerator p ⟨a.degree, i⟩ := by
  have ha₀ := (mem_basis_of_element? ha).1.nonneg
  obtain ⟨z, hz, _⟩ := element?_eq_some (p := p) (a := ⟨a.degree, i⟩) ⟨ha₀, hi⟩
  rw [mul_factors_apply hp ha ht hF hz] at h
  obtain ⟨hzero, hsum⟩ : z.exterior = 0 ∧ powerSum p (powerProduct p [n] S) (index z.exponents) ≠ 0 := by
    by_cases hzero : z.exterior = 0
    · exact ⟨hzero, by rwa [if_pos hzero] at h⟩
    · exact absurd (if_neg hzero) h
  obtain ⟨mask, T⟩ := z
  obtain rfl : mask = 0 := hzero
  have hT := (proper_of_element? hp hz ht).1.trimmed
  obtain ⟨hap, had⟩ := proper_of_element? hp ha ht
  have hindex : index T ≠ index R := fun heq => hne (by
    obtain rfl := hT.eq hap.trimmed heq
    exact Option.some.inj ((index?_of_element? hp hz ht).symm.trans (index?_of_element? hp ha ht)))
  have hweight : a.degree.toNat / step p = weight p (index R) := by
    rw [degree_power] at had
    rw [← had, Int.toNat_natCast, Nat.mul_div_cancel_left _ (step_pos p)]
  refine ⟨⟨T, hz⟩, rank_lt hi ?_, ?_⟩
  · rw [latenessAt, latenessAt, hz, ha]
    simp only
    rw [hweight]
    exact hF.before.lateness_lt _ hsum hindex
  · rintro (⟨hodd, heq⟩ | ⟨v, heq⟩)
    · rw [heq, element?_letter (.inr ⟨hodd, rfl⟩) hp] at hz
      simp at hz
    · rw [heq, element?_letter p.bockstein_zero hp] at hz
      obtain ⟨_, rfl⟩ := MilnorElement.mk.inj (Option.some.inj hz)
      exact hF.before.ne_single _ hsum hindex v (by rw [index_trim, index_single])

end Solve

/-- The terms stand for a basis element, by elements of smaller degree unless it is a generator. -/
structure Decomposes (p : Prime) (a : Operation) (terms : List Term) : Prop where
  liesIn : ∀ t ∈ terms, t.LiesIn p a.degree
  smaller : ¬IsGenerator p a → ∀ t ∈ terms, 0 < t.left.degree ∧ 0 < t.right.degree
  holds : ∀ {bound : ℕ} {K : Type} [Ring K] [Module p.Field K] [IsScalarTower p.Field K K] [SMulCommClass p.Field K K]
    (O : Operators p bound K), bound ≤ trackedBelow → a.degree < bound → termSum (p := p) O.operator terms = O.operator a

theorem eq_letter_of_element? (hp : p.val < 1073741824) {a : Operation} {e n : ℕ} (he : p.Bockstein e)
    (ha : element? p a = some ⟨e, trim [n]⟩) (ht : a.degree < trackedBelow) : a = letter p e n := by
  have hdegree := (proper_of_element? hp ha ht).2
  rw [degree_letter he] at hdegree
  rw [← operationAt_of_element? hp ha ht, letter, hdegree]
  rfl

/-- The unit as the second factor. -/
theorem decomposes_one {a : Operation} (ha : a.IsBasis p) (hgen : IsGenerator p a) :
    Decomposes p a [⟨1, a, ⟨0, 0⟩⟩] where
  liesIn t ht := by
    obtain rfl := List.mem_singleton.mp ht
    exact ⟨ha, Operation.isBasis_one p, add_zero _⟩
  smaller hne := absurd hgen hne
  holds O hbound h := by
    rw [termSum_cons, termSum_nil, O.operator_one, Nat.cast_one, one_smul, mul_one, add_zero]

theorem combine_split {K V : Type} [CommRing K] [AddCommGroup V] [Module K V] {n i : ℕ} (hi : i < n) (φ : ℕ → V) (f : ℕ → K) :
    combine n φ f = f i • φ i + combine n (fun j => if j = i then 0 else φ j) f := by
  have hmem := Finset.mem_range.mpr hi
  rw [combine_apply, combine_apply, ← Finset.add_sum_erase _ _ hmem, ← Finset.add_sum_erase _ (fun j => f j • _) hmem, if_pos rfl,
    smul_zero, zero_add]
  congr 1
  exact Finset.sum_congr rfl fun j hj => by rw [if_neg (Finset.ne_of_mem_erase hj)]

/-- The terms of another element in a product that is solved for one. -/
def solved (p : Prime) (inv e : ℕ) (terms : List Term) : List Term :=
  terms.map fun t => { t with coefficient := p.negate (p.product inv (p.product e t.coefficient)) }

section TermSum

variable {K : Type} [Ring K] [Module p.Field K] (φ : Operation → K)

theorem termSum_flatten (l : List (List Term)) : termSum (p := p) φ l.flatten = (l.map (termSum (p := p) φ)).sum := by
  induction l with
  | nil => rfl
  | cons terms l ih =>
    rw [List.flatten_cons, List.map_cons, List.sum_cons, ← ih]
    simp [termSum]

theorem termSum_solved (inv e : ℕ) (terms : List Term) :
    termSum (p := p) φ (solved p inv e terms) = -((inv : p.Field) • (e : p.Field) • termSum (p := p) φ terms) := by
  induction terms with
  | nil => simp [solved]
  | cons t terms ih =>
    rw [solved] at ih
    rw [solved, List.map_cons, termSum_cons, termSum_cons, ih, Prime.cast_negate, Prime.cast_product, Prime.cast_product, neg_smul,
      mul_smul, mul_smul, smul_add, smul_add, neg_add]

end TermSum

/-- The product of two factors, solved for one of its terms, with the other terms decomposed. -/
def solution (p : Prime) (a : Operation) (n : ℕ) (S : List ℕ) (v : Vec) (others : ℕ → List Term) : List Term :=
  ⟨p.inverse (v.entry a.index), letter p 0 n, secondFactor p a n S⟩ :: ((v.nonzero.filter (·.1 ≠ a.index)).map fun ie =>
    solved p (p.inverse (v.entry a.index)) ie.2 (others ie.1)).flatten

theorem entry_of_mem_filter {n i : ℕ} {v : Vec} (hv : Proper p n v) {ie : ℕ × ℕ} (h : ie ∈ v.nonzero.filter (·.1 ≠ i)) :
    ie.1 < n ∧ ie.1 ≠ i ∧ v.coords p ie.1 ≠ 0 := by
  obtain ⟨hmem, hne⟩ := List.mem_filter.mp h
  obtain ⟨hentry, he⟩ := mem_nonzero.mp (show (ie.1, ie.2) ∈ v.nonzero from hmem)
  refine ⟨hv.size_eq ▸ lt_size_of_mem_nonzero hmem, of_decide_eq_true hne, ?_⟩
  rw [Ne, coords_eq_zero_iff hv.reduced, hentry]
  exact he

theorem mem_solution {a : Operation} {n : ℕ} {S : List ℕ} {v : Vec} {others : ℕ → List Term} {t : Term}
    (h : t ∈ solution p a n S v others) : t.left = letter p 0 n ∧ t.right = secondFactor p a n S ∨
      ∃ ie ∈ v.nonzero.filter (·.1 ≠ a.index), ∃ u ∈ others ie.1, t.left = u.left ∧ t.right = u.right := by
  rcases List.mem_cons.mp h with rfl | h
  · exact .inl ⟨rfl, rfl⟩
  · obtain ⟨terms, hterms, ht⟩ := List.mem_flatten.mp h
    obtain ⟨ie, hie, rfl⟩ := List.mem_map.mp hterms
    obtain ⟨u, hu, rfl⟩ := List.mem_map.mp ht
    exact .inr ⟨ie, hie, u, hu, rfl, rfl⟩

theorem decomposes_solution (hp : p.val < 1073741824) {a : Operation} {R S : List ℕ} {n : ℕ} (ha : element? p a = some ⟨0, R⟩)
    (ht : a.degree < trackedBelow) (hF : Factors p R n S) {v : Vec} (hv : Proper p (dim p a.degree) v)
    (hcoords : v.coords p = mul p (letter p 0 n) (secondFactor p a n S)) {others : ℕ → List Term}
    (hothers : ∀ i, i < dim p a.degree → i ≠ a.index → mul p (letter p 0 n) (secondFactor p a n S) i ≠ 0 →
      Decomposes p ⟨a.degree, i⟩ (others i) ∧ ¬IsGenerator p ⟨a.degree, i⟩) :
    Decomposes p a (solution p a n S v others) := by
  have hdegree := factors_degree (p := p) a n S
  have hfirst := (mem_basis_of_element? (element?_firstFactor hp hF)).1
  have hsecond := (mem_basis_of_element? (element?_secondFactor hp ha ht hF)).1
  have hrest : ∀ ie ∈ v.nonzero.filter (·.1 ≠ a.index),
      Decomposes p ⟨a.degree, ie.1⟩ (others ie.1) ∧ ¬IsGenerator p ⟨a.degree, ie.1⟩ := fun ie hie => by
    obtain ⟨hi, hne, hfi⟩ := entry_of_mem_filter hv hie
    exact hothers ie.1 hi hne (hcoords ▸ hfi)
  refine ⟨fun t h => ?_, fun _ t h => ?_, fun {bound K} _ _ _ _ O hbound h => ?_⟩
  · obtain ⟨left, right⟩ | ⟨ie, hie, u, hu, left, right⟩ := mem_solution h
    · exact ⟨left ▸ hfirst, right ▸ hsecond, by rw [left, right, hdegree]⟩
    · have hlies := (hrest ie hie).1.liesIn u hu
      exact ⟨left ▸ hlies.left, right ▸ hlies.right, by rw [left, right, hlies.degree_eq]⟩
  · obtain ⟨left, right⟩ | ⟨ie, hie, u, hu, left, right⟩ := mem_solution h
    · exact ⟨left ▸ firstFactor_pos hF.pos, right ▸ secondFactor_pos hp ha ht hF⟩
    · have hsmaller := (hrest ie hie).1.smaller (hrest ie hie).2 u hu
      exact ⟨left ▸ hsmaller.1, right ▸ hsmaller.2⟩
  · -- The product is the sum of its terms, and the other terms cancel.
    let c : p.Field := v.entry a.index
    have hc : c ≠ 0 := by
      change v.coords p a.index ≠ 0
      rw [hcoords]
      exact mul_factors_ne_zero hp ha ht hF
    let φ : ℕ → K := fun i => if i = a.index then 0 else O.operator ⟨a.degree, i⟩
    have hproduct : O.operator (letter p 0 n) * O.operator (secondFactor p a n S) =
        c • O.operator a + combine (dim p a.degree) φ (v.coords p) := by
      rw [← O.denote_mul hp hbound hfirst hsecond (by omega), hdegree, ← hcoords, Operators.denote,
        combine_split (mem_basis_of_element? ha).1.index_lt]
      rfl
    have hcancel : termSum (p := p) O.operator ((v.nonzero.filter (·.1 ≠ a.index)).map fun ie =>
        solved p (p.inverse (v.entry a.index)) ie.2 (others ie.1)).flatten =
          -(c⁻¹ • combine (dim p a.degree) φ (v.coords p)) := by
      have hterm : ∀ ie ∈ v.nonzero.filter (·.1 ≠ a.index), termSum (p := p) O.operator
          (solved p (p.inverse (v.entry a.index)) ie.2 (others ie.1)) = -c⁻¹ • (ie.2 : p.Field) • φ ie.1 := fun ie hie => by
        have hne := (entry_of_mem_filter hv hie).2.1
        rw [termSum_solved, (hrest ie hie).1.holds O hbound h, p.cast_inverse _ hc, neg_smul]
        simp only [φ, c, if_neg hne]
      rw [termSum_flatten, List.map_map, List.map_congr_left (f := termSum (p := p) O.operator ∘ _) hterm, sum_map_filter, ← hv.size_eq,
        ← sum_nonzero, ← neg_smul, List.smul_sum, List.map_map]
      congr 1
      refine List.map_congr_left fun ie _ => ?_
      by_cases hne : ie.1 = a.index <;> simp [φ, hne]
    rw [solution, termSum_cons, hcancel, hproduct, p.cast_inverse _ hc, smul_add, smul_smul, inv_mul_cancel₀ hc, one_smul]
    exact add_neg_cancel_right _ _

/-- Powers are decomposed, if there is fuel for all that come before. -/
theorem exists_decomposePower (hp : p.val < 1073741824) (fuel : ℕ) {a : Operation} {R : List ℕ}
    (ha : element? p a = some ⟨0, R⟩) (hpos : 0 < a.degree) (ht : a.degree < trackedBelow) (hfuel : rank p a < fuel) :
    ∃ terms, Decomposes p a terms ∧
      ∀ A : Algebra, A.prime = p → a.degree < A.computed → A.decomposePower fuel a = .ok terms := by
  induction fuel generalizing a R with
  | zero => exact absurd hfuel (Nat.not_lt_zero _)
  | succ fuel ih =>
    have hR := (proper_of_element? hp ha ht).1.trimmed
    have hne := ne_nil_of_degree_pos hp ha hpos ht
    have hbasis := (mem_basis_of_element? ha).1
    have hread : ∀ A : Algebra, A.prime = p → a.degree < A.computed → A.element a = .ok ⟨0, R⟩ := by
      rintro A rfl h
      obtain ⟨x, hx, hx'⟩ := Algebra.element_of_isBasis hbasis h
      rw [hx, Option.some.inj (hx'.symm.trans ha)]
    cases hfactors : factors p R with
    | none =>
      obtain ⟨v, rfl⟩ := eq_single_of_factors hR hne hfactors
      have hgen : IsGenerator p a := .inr ⟨v, eq_letter_of_element? hp p.bockstein_zero (by rwa [show trim _ = _ from hR]) ht⟩
      refine ⟨_, decomposes_one hbasis hgen, fun A hA h => ?_⟩
      have hx := hread A hA h
      subst hA
      have hnone := Algebra.powerFactors_eq hp ha hne ht h
      rw [hfactors, Option.map_none] at hnone
      rw [Algebra.decomposePower, hx, Result.ok_bind, hnone]
      rfl
    | some f =>
      obtain ⟨n, S⟩ := f
      have hF := factors_of_factors (by omega) hR hfactors
      have hdegree := factors_degree (p := p) a n S
      have hfirst := (mem_basis_of_element? (element?_firstFactor hp hF)).1
      have hsecond := (mem_basis_of_element? (element?_secondFactor hp ha ht hF)).1
      obtain ⟨f, hf⟩ : ∃ f, f = mul p (letter p 0 n) (secondFactor p a n S) := ⟨_, rfl⟩
      have hmem : f ∈ p.space (dim p a.degree) := by
        rw [hf, ← hdegree]
        exact mul_mem p _ _
      obtain ⟨v, hv, hcoords⟩ := exists_proper hmem
      have hothers : ∀ i, ∃ terms, i < dim p a.degree → i ≠ a.index → f i ≠ 0 → Decomposes p ⟨a.degree, i⟩ terms ∧
          ¬IsGenerator p ⟨a.degree, i⟩ ∧ ∀ A : Algebra, A.prime = p → a.degree < A.computed →
            A.decomposePower fuel ⟨a.degree, i⟩ = .ok terms := by
        intro i
        by_cases h : i < dim p a.degree ∧ i ≠ a.index ∧ f i ≠ 0
        · obtain ⟨hi, hne, hfi⟩ := h
          obtain ⟨⟨T, hT⟩, hrank, hgen⟩ := before_of_mul_factors hp ha ht hF hi hne (hf ▸ hfi)
          obtain ⟨terms, hterms, hrun⟩ := ih hT hpos ht (by omega)
          exact ⟨terms, fun _ _ _ => ⟨hterms, hgen, hrun⟩⟩
        · exact ⟨[], fun hi hne hfi => absurd ⟨hi, hne, hfi⟩ h⟩
      choose others hothers using hothers
      refine ⟨_, decomposes_solution hp ha ht hF hv (hcoords.trans hf) fun i hi hne hfi =>
        ⟨(hothers i hi hne (hf ▸ hfi)).1, (hothers i hi hne (hf ▸ hfi)).2.1⟩, fun A hA h => ?_⟩
      have hx := hread A hA h
      have hrun := fun i hi hne hfi => (hothers i hi hne hfi).2.2 A hA h
      subst hA
      have hsome := Algebra.powerFactors_eq hp ha hne ht h
      rw [hfactors, Option.map_some] at hsome
      obtain ⟨u, hu⟩ := Algebra.exists_multiply_tracked hp hfirst hsecond (by omega) (by omega) 1
      obtain ⟨_, _, _, hup, huc⟩ := Algebra.multiply_eq_ok hu
      rw [hdegree] at hup
      rw [Nat.cast_one, one_smul, ← hf, ← hcoords] at huc
      obtain rfl := hup.ext hv huc
      have hmap := Result.mapM_eq_ok (l := u.nonzero.filter (·.1 ≠ a.index)) (f := fun ie => do
          let terms ← A.decomposePower fuel ⟨a.degree, ie.1⟩
          (.ok (solved A.prime (A.prime.inverse (u.entry a.index)) ie.2 terms) : Result (List Term)))
          (g := fun ie => solved A.prime (A.prime.inverse (u.entry a.index)) ie.2 (others ie.1)) fun ie hie => by
        obtain ⟨hi, hne, hfi⟩ := entry_of_mem_filter hv hie
        rw [hrun ie.1 hi hne (hcoords ▸ hfi)]
        rfl
      have hc : u.entry a.index ≠ 0 := fun hzero => mul_factors_ne_zero hp ha ht hF (by
        rw [← hf, ← hcoords, coords_apply, hzero, Nat.cast_zero])
      rw [Algebra.decomposePower, hx, Result.ok_bind, hsome, Result.ok_bind]
      simp only
      rw [hu, Result.ok_bind, decide_eq_true hc, require_true, Result.ok_bind]
      exact Result.bind_eq_ok.mpr ⟨_, hmap, rfl⟩

end Milnor
end Steenrod
