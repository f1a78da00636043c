import Steenrod.Proofs.Milnor.Decomposition
import Steenrod.Proofs.Milnor.Twisted
import Steenrod.Milnor.Coproduct
/-!
The coproduct and the factorisation of basis elements. Main statements: the coproducts of `Q_k` and `P(R)` are answered, and for
operators on a product their summands add up to the operator of the element; every basis element is the product of its factors,
the last one leftmost.
-/
namespace Steenrod
namespace Milnor

open Finset.HasAntidiagonal (antidiagonal mem_antidiagonal)

variable {p : Prime}

section PowerDegree

theorem degreeSum_zipWith {l : List ℕ} {ds : List ℤ} {w : ℕ → ℕ} (h : ∀ i, index l i ≠ 0 → ds[i]? = some (w i : ℤ))
    (hl : ∀ r ∈ l, (r : ℤ) ≤ maxSigned) :
    degreeSum (List.zipWith (fun (r : ℕ) d => signed32 r * d) l ds) = ((index l).sum fun i r => r * w i : ℕ) := by
  induction l generalizing ds w with
  | nil => rfl
  | cons r l ih =>
    have hsum : ((index (r :: l)).sum fun i r => r * w i) = r * w 0 + (index l).sum fun i r => r * w (i + 1) := by
      have hadd := Finsupp.sum_add_index' (f := Finsupp.single 0 r) (g := raise (index l)) (h := fun i r => r * w i)
        (fun i => Nat.zero_mul (w i)) fun i a b => Nat.add_mul a b (w i)
      have hsingle : ((Finsupp.single 0 r).sum fun i r => r * w i) = r * w 0 := Finsupp.sum_single_index (Nat.zero_mul _)
      have hraise : ((raise (index l)).sum fun i r => r * w i) = (index l).sum fun i r => r * w (i + 1) :=
        Finsupp.sum_mapDomain_index (fun i => Nat.zero_mul (w i)) fun i a b => Nat.add_mul a b (w i)
      rw [index_cons, hadd, hsingle, hraise]
    cases ds with
    | nil =>
      have hzero : index (r :: l) = 0 := Finsupp.ext fun i => by
        by_contra hne
        exact absurd (h i hne) (by simp)
      rw [hzero]
      rfl
    | cons d ds =>
      have hrest := ih (w := fun i => w (i + 1)) (fun i hi => h (i + 1) hi) fun r hr => hl r (by simp [hr])
      have hfirst : signed32 r * d = r * w 0 := by
        rw [signed32_of_small (hl r (by simp))]
        by_cases hr : r = 0
        · rw [hr, Nat.cast_zero, zero_mul, zero_mul]
        · rw [Option.some.inj (h 0 hr)]
      rw [hsum, List.zipWith_cons_cons, degreeSum, List.foldr_cons, ← degreeSum, hrest, hfirst]
      push_cast
      rfl

theorem mul_placeWeight_le (R : ℕ →₀ ℕ) (i : ℕ) : R i * placeWeight p i ≤ weight p R := by
  by_cases hi : R i = 0
  · rw [hi, Nat.zero_mul]
    exact Nat.zero_le _
  · exact Finset.single_le_sum (f := fun i => R i * placeWeight p i) (fun _ _ => Nat.zero_le _) (Finsupp.mem_support_iff.mpr hi)

/-- The entries of a sequence are signed words if its degree is one. -/
theorem le_maxSigned_of_mem {R : List ℕ} (h : ((step p * weight p (index R) : ℕ) : ℤ) ≤ maxSigned) :
    ∀ r ∈ R, (r : ℤ) ≤ maxSigned := by
  intro r hr
  obtain ⟨i, hi, rfl⟩ := List.getElem_of_mem hr
  have hindex : index R i = R[i] := by rw [index_apply, List.getElem?_eq_getElem hi, Option.getD_some]
  have hweight : weight p (index R) ≤ step p * weight p (index R) := Nat.le_mul_of_pos_left _ (step_pos p)
  have hle := mul_placeWeight_le (p := p) (index R) i
  have hroom := Nat.le_mul_of_pos_right (index R i) (placeWeight_pos (p := p) i)
  omega

theorem powerDegree_of_places (hp : p.val < 1073741824) {R : List ℕ}
    (hplace : ∀ i, index R i ≠ 0 → p.xiDegrees[i]? = some (placeWeight p i : ℤ))
    (hmax : ((step p * weight p (index R) : ℕ) : ℤ) ≤ maxSigned) : powerDegree p R = (step p * weight p (index R) : ℕ) := by
  rw [powerDegree, degreeSum_zipWith hplace (le_maxSigned_of_mem hmax), q_eq hp, weight]
  push_cast
  rfl

/-- The places of a sequence of tracked degree have dual generators. -/
theorem xiDegrees_of_lt (hp : p.val < 1073741824) {R : List ℕ} (h : step p * weight p (index R) < trackedBelow) (i : ℕ)
    (hi : index R i ≠ 0) : p.xiDegrees[i]? = some (placeWeight p i : ℤ) := by
  have hsmall : placeWeight p i ≤ weight p (index R) :=
    (Nat.le_mul_of_pos_left _ (Nat.pos_of_ne_zero hi)).trans (mul_placeWeight_le _ i)
  have hlt : weight p (index R) < (trackedBelow - 1) / step p + 1 := by
    rw [Nat.lt_succ_iff, Nat.le_div_iff_mul_le (step_pos p), Nat.mul_comm]
    omega
  have hget := (weightsBelow hp).getElem?_eq i (hsmall.trans_lt hlt)
  rw [weights, List.getElem?_map] at hget
  obtain ⟨d, hd, hnat⟩ := Option.map_eq_some_iff.mp hget
  have hpos := placeWeight_pos (p := p) i
  rw [hd]
  exact congrArg some (by omega)

/-- The degree of `P(R)`, where the entries of `R` are tracked. -/
theorem powerDegree_eq (hp : p.val < 1073741824) {R : List ℕ} (h : step p * weight p (index R) < trackedBelow) :
    powerDegree p R = (step p * weight p (index R) : ℕ) := by
  have hwords : (trackedBelow : ℤ) ≤ maxSigned := by decide
  exact powerDegree_of_places hp (xiDegrees_of_lt hp h) (by omega)

end PowerDegree

section Below

theorem mem_below {R left : List ℕ} : left ∈ below R ↔ left.length = R.length ∧ index left ≤ index R := by
  induction R generalizing left with
  | nil =>
    rw [below, List.mem_singleton, List.length_nil, List.length_eq_zero_iff, index_nil]
    exact ⟨fun h => ⟨h, by rw [h, index_nil]⟩, fun h => h.1⟩
  | cons r R ih =>
    simp only [below, List.mem_flatMap, List.mem_map, List.mem_range, Nat.lt_succ_iff]
    constructor
    · rintro ⟨rest, hrest, x, hx, rfl⟩
      obtain ⟨hlength, hle⟩ := ih.mp hrest
      refine ⟨congrArg Nat.succ hlength, fun i => ?_⟩
      cases i with
      | zero => exact hx
      | succ i => exact hle i
    · rintro ⟨hlength, hle⟩
      cases left with
      | nil => cases hlength
      | cons x rest =>
        exact ⟨rest, ih.mpr ⟨Nat.succ.inj hlength, fun i => hle (i + 1)⟩, x, hle 0, rfl⟩

theorem below_nodup (R : List ℕ) : (below R).Nodup := by
  induction R with
  | nil => exact List.nodup_singleton _
  | cons r R ih =>
    rw [below, List.nodup_flatMap]
    refine ⟨fun rest _ => List.nodup_range.map fun x y h => (List.cons.inj h).1, ih.imp fun {rest rest'} hne => ?_⟩
    intro left hleft hleft'
    obtain ⟨x, _, rfl⟩ := List.mem_map.mp hleft
    obtain ⟨y, _, hy⟩ := List.mem_map.mp hleft'
    exact hne (List.cons.inj hy).2.symm

theorem index_zipWith_sub {R left : List ℕ} (h : left.length = R.length) :
    index (List.zipWith (· - ·) R left) = index R - index left := by
  ext i
  rw [Finsupp.tsub_apply, index_apply, index_apply, index_apply, List.getElem?_zipWith]
  by_cases hi : i < R.length
  · rw [List.getElem?_eq_getElem hi, List.getElem?_eq_getElem (by omega)]
    rfl
  · rw [List.getElem?_eq_none (not_lt.mp hi)]
    exact (Nat.zero_sub _).symm

/-- The sequences below `R` and what they leave of it are the pairs that add up to `R`. -/
theorem sum_below {V : Type} [AddCommMonoid V] (R : List ℕ) (g : (ℕ →₀ ℕ) × (ℕ →₀ ℕ) → V) :
    ((below R).map fun left => g (index left, index (List.zipWith (· - ·) R left))).sum =
      ∑ x ∈ antidiagonal (index R), g x := by
  rw [← List.sum_toFinset _ (below_nodup R)]
  refine Finset.sum_bij (fun left _ => (index left, index (List.zipWith (· - ·) R left))) (fun left hleft => ?_)
    (fun left hleft left' hleft' h => ?_) (fun x hx => ?_) fun _ _ => rfl
  · obtain ⟨hlength, hle⟩ := mem_below.mp (List.mem_toFinset.mp hleft)
    rw [mem_antidiagonal, index_zipWith_sub hlength]
    exact add_tsub_cancel_of_le hle
  · have hlength := (mem_below.mp (List.mem_toFinset.mp hleft)).1
    have hlength' := (mem_below.mp (List.mem_toFinset.mp hleft')).1
    exact index_injective (hlength.trans hlength'.symm) (Prod.ext_iff.mp h).1
  · have hsum := mem_antidiagonal.mp hx
    have hle : x.1 ≤ index R := hsum ▸ le_self_add
    obtain ⟨left, hlength, hleft⟩ := exists_index_eq (n := R.length) (T := x.1) fun i hi =>
      Nat.le_zero.mp (index_of_length_le hi ▸ hle i)
    refine ⟨left, List.mem_toFinset.mpr (mem_below.mpr ⟨hlength, hleft ▸ hle⟩), Prod.ext hleft ?_⟩
    simp only
    rw [index_zipWith_sub hlength, hleft, ← hsum, add_tsub_cancel_left]

end Below

section Summands

/-- `P(R)`, as a basis element of the algebra. -/
noncomputable def powerAt (p : Prime) (R : List ℕ) : Operation :=
  operationAt p (step p * weight p (index R) : ℕ) ⟨0, trim R⟩

theorem degree_powerAt (R : List ℕ) : (powerAt p R).degree = (step p * weight p (index R) : ℕ) := rfl

section PowerAt

variable (hp : p.val < 1073741824) {R : List ℕ} (h : step p * weight p (index R) < trackedBelow)

include hp h

theorem element?_powerAt : element? p (powerAt p R) = some ⟨0, trim R⟩ :=
  element?_operationAt hp (proper_power (trimmed_trim R)) (by rw [degree_power, index_trim]) (by exact_mod_cast h)

theorem Operators.operator_powerAt {bound : ℕ} {K : Type} [Ring K] [Module p.Field K] (O : Operators p bound K) :
    O.operator (powerAt p R) = O.power (index R) := by
  rw [O.operator_of_element? (element?_powerAt hp h), Operators.element, show members 0 = [] by decide, index_trim]
  exact one_mul _

end PowerAt

theorem powerAt_nil (hp : p.val < 1073741824) : powerAt p [] = ⟨0, 0⟩ := by
  have hzero : weight p (index []) = 0 := rfl
  have hat := operationAt_of_element? hp (element?_zero p) (by decide)
  rw [powerAt, hzero, Nat.mul_zero]
  exact hat

theorem powerAt_trim (R : List ℕ) : powerAt p (trim R) = powerAt p R := by
  rw [powerAt, powerAt, index_trim, trimmed_trim]

/-- The summands of the coproduct of `Q_k` or `P(R)`. -/
noncomputable def summands (p : Prime) (a : Operation) (x : MilnorElement) : List (Operation × Operation) :=
  if x.exterior = 0 then
    (below x.exponents).map fun left => (powerAt p left, powerAt p (List.zipWith (· - ·) x.exponents left))
  else [(a, ⟨0, 0⟩), (⟨0, 0⟩, a)]

/-- The elements whose coproduct is known on its own. -/
def IsFactor (x : MilnorElement) : Prop := x.exterior = 0 ∨ ∃ k, x = ⟨1 <<< k, []⟩

theorem weight_below {R left : List ℕ} (h : left ∈ below R) :
    weight p (index left) + weight p (index (List.zipWith (· - ·) R left)) = weight p (index R) := by
  obtain ⟨hlength, hle⟩ := mem_below.mp h
  rw [← weight_add, index_zipWith_sub hlength, add_tsub_cancel_of_le hle]

/-- A factor is some `P(R)` or some `Q_k`. -/
theorem IsFactor.cases (hp : p.val < 1073741824) {a : Operation} {x : MilnorElement} (hx : element? p a = some x)
    (ht : a.degree < trackedBelow) (hfactor : IsFactor x) :
    (∃ R, Trimmed R ∧ x = ⟨0, R⟩ ∧ a = powerAt p R ∧ step p * weight p (index R) < trackedBelow) ∨
      ∃ k, p.isOdd ∧ x = ⟨1 <<< k, []⟩ ∧ a = exteriorAt p k ∧ tauDegree p k < trackedBelow := by
  obtain ⟨hproper, hdegree⟩ := proper_of_element? hp hx ht
  have hat := operationAt_of_element? hp hx ht
  rcases hfactor with hzero | ⟨k, rfl⟩
  · obtain ⟨mask, R⟩ := x
    obtain rfl : mask = 0 := hzero
    rw [degree_power] at hdegree
    exact .inl ⟨R, hproper.trimmed, rfl, by rw [← hat, ← hdegree, powerAt, hproper.trimmed], by omega⟩
  · have hk : k < 32 := by
      have hlt := hproper.exterior_lt
      rw [Nat.one_shiftLeft] at hlt
      exact (Nat.pow_lt_pow_iff_right (by decide)).mp hlt
    have hodd : p.isOdd := isOdd_of_mem hproper (k := k) (by simp [members_single hk])
    rw [degree_exterior hk] at hdegree
    exact .inr ⟨k, hodd, rfl, by rw [← hat, ← hdegree, exteriorAt], by omega⟩

/-- The summands of a coproduct are basis elements whose degrees add up. -/
theorem isBasis_of_mem_summands (hp : p.val < 1073741824) {a : Operation} {x : MilnorElement} (hx : element? p a = some x)
    (ht : a.degree < trackedBelow) (hfactor : IsFactor x) {s : Operation × Operation} (hs : s ∈ summands p a x) :
    s.1.IsBasis p ∧ s.2.IsBasis p ∧ s.1.degree + s.2.degree = a.degree := by
  have hone := Operation.isBasis_one p
  have ha := (mem_basis_of_element? hx).1
  rcases hfactor.cases hp hx ht with ⟨R, _, rfl, rfl, hlt⟩ | ⟨k, _, rfl, rfl, hlt⟩
  · rw [summands, if_pos rfl] at hs
    obtain ⟨left, hleft, rfl⟩ := List.mem_map.mp hs
    have hweight := weight_below (p := p) hleft
    have hadd : step p * weight p (index left) + step p * weight p (index (List.zipWith (· - ·) R left)) =
        step p * weight p (index R) := by rw [← Nat.mul_add, hweight]
    have hright : step p * weight p (index (List.zipWith (· - ·) R left)) < trackedBelow := by omega
    refine ⟨(mem_basis_of_element? (element?_powerAt hp (by omega))).1,
      (mem_basis_of_element? (element?_powerAt hp hright)).1, ?_⟩
    rw [degree_powerAt, degree_powerAt, degree_powerAt]
    exact_mod_cast hadd
  · have hne : (1 <<< k : ℕ) ≠ 0 := by
      rw [Nat.one_shiftLeft]
      exact (Nat.pow_pos (by decide)).ne'
    rw [summands, if_neg hne] at hs
    rcases List.mem_pair.mp hs with rfl | rfl
    · exact ⟨ha, hone, add_zero _⟩
    · exact ⟨hone, ha, zero_add _⟩

end Summands

namespace Operators
namespace Side

variable {bound : ℕ} {K : Type} [Ring K] [Module p.Field K] {O P : Operators p bound K} {sign : K} (h : Side O P sign)

/-- `a ⊗ b`, where `b` passes the left factor. -/
noncomputable def tensor (_ : Side O P sign) (a b : Operation) : K := O.operator a * sign ^ b.degree.toNat * P.operator b

include h

theorem sign_pow_step (n : ℕ) : sign ^ (step p * n) = 1 := by
  cases hodd : p.isOdd with
  | true =>
    obtain ⟨m, hm⟩ : ∃ m, step p = 2 * m := ⟨p.val - 1, by rw [step_of_isOdd hodd]; omega⟩
    rw [hm, mul_assoc, pow_mul, pow_two, h.sign_mul_sign, one_pow]
  | false => rw [h.sign_eq_one hodd, one_pow]

theorem sign_pow_tauDegree (k : ℕ) : sign ^ tauDegree p k = sign := by
  have hpos := Nat.pow_pos p.pos (n := k)
  obtain ⟨m, hm⟩ : ∃ m, tauDegree p k = 2 * m + 1 := ⟨p.val ^ k - 1, by unfold tauDegree; omega⟩
  rw [hm, pow_succ, pow_mul, pow_two, h.sign_mul_sign, one_pow, one_mul]

variable [SMulCommClass p.Field K K] [IsScalarTower p.Field K K]

/-- The summands of a coproduct add up to what the element is on a product. -/
theorem sum_summands (hp : p.val < 1073741824) {a : Operation} {x : MilnorElement} (hx : element? p a = some x)
    (ht : a.degree < trackedBelow) (hfactor : IsFactor x) :
    ((summands p a x).map fun s => h.tensor s.1 s.2).sum = (h.operators (by omega)).operator a := by
  rcases hfactor.cases hp hx ht with ⟨R, _, rfl, rfl, hlt⟩ | ⟨k, hodd, rfl, rfl, hlt⟩
  · have hterm : ∀ left ∈ below R, h.tensor (powerAt p left) (powerAt p (List.zipWith (· - ·) R left)) =
        O.power (index left) * P.power (index (List.zipWith (· - ·) R left)) := by
      intro left hleft
      have hadd : step p * weight p (index left) + step p * weight p (index (List.zipWith (· - ·) R left)) =
          step p * weight p (index R) := by rw [← Nat.mul_add, weight_below hleft]
      rw [tensor, O.operator_powerAt hp (by omega), P.operator_powerAt hp (by omega), degree_powerAt, Int.toNat_natCast,
        h.sign_pow_step, mul_one]
    rw [Operators.operator_powerAt hp hlt, summands, if_pos rfl, List.map_map]
    exact (congrArg List.sum (List.map_congr_left hterm)).trans (sum_below R fun x => O.power x.1 * P.power x.2)
  · have hne : (1 <<< k : ℕ) ≠ 0 := by
      rw [Nat.one_shiftLeft]
      exact (Nat.pow_pos (by decide)).ne'
    rw [Operators.operator_exteriorAt hlt hodd _ hp, summands, if_neg hne, List.map_cons, List.map_singleton, List.sum_cons,
      List.sum_singleton, tensor, tensor, O.operator_one, P.operator_one, O.operator_exteriorAt hlt hodd hp,
      P.operator_exteriorAt hlt hodd hp, degree_exteriorAt, Int.toNat_natCast, h.sign_pow_tauDegree, Int.toNat_zero, pow_zero,
      mul_one, mul_one, one_mul]
    rfl

end Side
end Operators

section Factors

/-- The factors of a basis element, the rightmost one first. -/
noncomputable def factorsOf (p : Prime) (a : Operation) (x : MilnorElement) : List Operation :=
  if x.exterior = 0 ∨ ((members x.exterior).length = 1 ∧ x.exponents.isEmpty) then [a]
  else (if x.exponents.isEmpty then [] else [powerAt p x.exponents]) ++ (members x.exterior).reverse.map (exteriorAt p)

variable (hp : p.val < 1073741824) {a : Operation} {x : MilnorElement} (hx : element? p a = some x) (ht : a.degree < trackedBelow)

include hp hx ht

theorem isFactor_of_length (h : (members x.exterior).length = 1 ∧ x.exponents.isEmpty) : IsFactor x := by
  obtain ⟨k, hk⟩ := List.length_eq_one_iff.mp h.1
  have hlt := (mem_members.mp (show k ∈ members x.exterior from hk ▸ List.mem_singleton_self k)).1
  have hmask : x.exterior = 1 <<< k := by
    refine members_injective (proper_of_element? hp hx ht).1.exterior_lt ?_ (hk.trans (members_single hlt).symm)
    rw [Nat.one_shiftLeft]
    exact Nat.pow_lt_pow_right (by decide) hlt
  obtain ⟨mask, R⟩ := x
  obtain rfl : R = [] := List.isEmpty_iff.mp h.2
  exact .inr ⟨k, by rw [show mask = 1 <<< k from hmask]⟩

theorem degree_eq_factors : a.degree = ((members x.exterior).map (tauDegree p)).sum + (step p * weight p (index x.exponents) : ℕ) := by
  rw [← (proper_of_element? hp hx ht).2, MilnorElement.degree, degreeOf]
  push_cast
  rfl

theorem tauDegree_le_degree {k : ℕ} (hk : k ∈ members x.exterior) : (tauDegree p k : ℤ) ≤ a.degree := by
  have hle := List.single_le_sum (fun _ _ => Nat.zero_le _) _ (List.mem_map_of_mem (f := tauDegree p) hk)
  rw [degree_eq_factors hp hx ht]
  omega

/-- Every factor has a coproduct of its own, and no larger degree. -/
theorem isFactor_of_mem_factorsOf {f : Operation} (hf : f ∈ factorsOf p a x) :
    ∃ y, element? p f = some y ∧ IsFactor y ∧ f.degree ≤ a.degree := by
  have hdegree := degree_eq_factors hp hx ht
  unfold factorsOf at hf
  split at hf
  · next hone =>
    obtain rfl := List.mem_singleton.mp hf
    exact ⟨x, hx, hone.elim .inl (isFactor_of_length hp hx ht), le_refl _⟩
  · rcases List.mem_append.mp hf with hpower | hexterior
    · split at hpower
      · cases hpower
      · obtain rfl := List.mem_singleton.mp hpower
        have hle : ((powerAt p x.exponents).degree : ℤ) ≤ a.degree := by
          rw [degree_powerAt]
          omega
        rw [degree_powerAt] at hle
        exact ⟨_, element?_powerAt hp (by omega), .inl rfl, hle⟩
    · obtain ⟨k, hk, rfl⟩ := List.mem_map.mp hexterior
      have hk := List.mem_reverse.mp hk
      have hle := tauDegree_le_degree hp hx ht hk
      exact ⟨_, element?_exteriorAt (by omega) (isOdd_of_mem (proper_of_element? hp hx ht).1 hk) hp, .inr ⟨k, rfl⟩, hle⟩

theorem sum_degree_factorsOf : ((factorsOf p a x).map (·.degree)).sum = a.degree := by
  have hdegree := degree_eq_factors hp hx ht
  unfold factorsOf
  split
  · exact add_zero _
  · have hexteriors : (((members x.exterior).reverse.map (exteriorAt p)).map (·.degree)).sum =
        (((members x.exterior).map (tauDegree p)).sum : ℕ) := by
      rw [List.map_map, ← List.sum_reverse, ← List.map_reverse, List.reverse_reverse, Nat.cast_list_sum, List.map_map]
      rfl
    rw [List.map_append, List.sum_append, hexteriors, hdegree, add_comm]
    congr 1
    split
    · next hnil =>
      rw [List.isEmpty_iff.mp hnil]
      exact (Int.natCast_eq_zero.mpr (Nat.mul_zero _)).symm
    · exact add_zero _

/-- A basis element is the product of its factors, the last one leftmost. -/
theorem Operators.prod_factorsOf {bound : ℕ} {K : Type} [Ring K] [Module p.Field K] (O : Operators p bound K) :
    ((factorsOf p a x).map O.operator).reverse.prod = O.operator a := by
  have hdegree := degree_eq_factors hp hx ht
  unfold factorsOf
  split
  · exact List.prod_singleton
  · have hexteriors : (((members x.exterior).reverse.map (exteriorAt p)).map O.operator).reverse.prod =
        O.exteriors (members x.exterior) := by
      rw [List.map_map, ← List.map_reverse, List.reverse_reverse, Operators.exteriors]
      refine congrArg List.prod (List.map_congr_left fun k hk => ?_)
      have hle := tauDegree_le_degree hp hx ht hk
      exact O.operator_exteriorAt (by omega) (isOdd_of_mem (proper_of_element? hp hx ht).1 hk) hp
    rw [List.map_append, List.reverse_append, List.prod_append, hexteriors, O.operator_of_element? hx, Operators.element]
    congr 1
    split
    · next hnil =>
      rw [List.isEmpty_iff.mp hnil]
      exact O.power_zero.symm
    · have hlt : step p * weight p (index x.exponents) < trackedBelow := by omega
      exact List.prod_singleton.trans (O.operator_powerAt hp hlt)

end Factors

end Milnor

namespace Algebra

open Milnor

variable {A : Algebra} (hp : A.prime.val < 1073741824) {a : Operation} {x : MilnorElement}

include hp

theorem powerOperation_eq {R : List ℕ} {d : ℤ} (hR : Trimmed R) (hd : d = (step A.prime * weight A.prime (index R) : ℕ))
    (ht : d < trackedBelow) (h : d < A.computed) : A.powerOperation R d = .ok (powerAt A.prime R) := by
  have hdegree : (MilnorElement.degree A.prime ⟨0, R⟩ : ℤ) = d := by rw [degree_power, hd]
  rw [powerOperation, indexIn_operationAt hp (proper_power hR) hdegree ht h, Result.ok_bind, powerAt, ← hd, hR]
  rfl

/-- The coproduct of a factor is answered. -/
theorem coproduct_eq (hx : element? A.prime a = some x) (ht : a.degree < trackedBelow) (h : a.degree < A.computed)
    (hfactor : IsFactor x) : A.coproduct a = .ok (summands A.prime a x) := by
  have ha := (mem_basis_of_element? hx).1
  by_cases hzero : a.degree = 0
  · obtain ⟨hproper, hdegree⟩ := proper_of_element? hp hx ht
    obtain rfl := eq_one_of_degree hproper (by omega)
    rw [coproduct, if_pos hzero, summands, if_pos rfl]
    exact congrArg Except.ok (congrArg (fun b => [(b, b)]) (powerAt_nil hp).symm)
  obtain ⟨x', hx', helement⟩ := element_of_isBasis ha h
  obtain rfl := Option.some.inj (hx.symm.trans helement)
  rw [coproduct, if_neg hzero, hx', Result.ok_bind]
  rcases hfactor.cases hp hx ht with ⟨R, hR, rfl, rfl, hlt⟩ | ⟨k, hodd, rfl, rfl, hlt⟩
  · rw [if_neg (by simp), summands, if_pos rfl]
    refine Result.mapM_eq_ok fun left hleft => ?_
    have hadd : step A.prime * weight A.prime (index left) +
        step A.prime * weight A.prime (index (List.zipWith (· - ·) R left)) = step A.prime * weight A.prime (index R) := by
      rw [← Nat.mul_add, weight_below hleft]
    rw [degree_powerAt] at h
    have hd : powerDegree A.prime (trim left) = (step A.prime * weight A.prime (index left) : ℕ) := by
      rw [powerDegree_eq hp (by rw [index_trim]; omega), index_trim]
    have hl := powerOperation_eq hp (trimmed_trim left) (d := powerDegree A.prime (trim left)) (by rw [hd, index_trim])
      (by omega) (by omega)
    have hr := powerOperation_eq hp (trimmed_trim (List.zipWith (· - ·) R left))
      (d := (powerAt A.prime R).degree - powerDegree A.prime (trim left))
      (by rw [hd, index_trim, degree_powerAt]; omega) (by rw [degree_powerAt]; omega) (by rw [degree_powerAt]; omega)
    simp only [hl, hr, Result.ok_bind, powerAt_trim]
  · have hk := lt_of_tauDegree_lt_tracked hlt
    have hne : (1 <<< k : ℕ) ≠ 0 := by
      rw [Nat.one_shiftLeft]
      exact (Nat.pow_pos (by decide)).ne'
    rw [if_pos hne, members_single (by omega), summands, if_neg hne]
    rfl

/-- The factors of a basis element are answered. -/
theorem factors_eq (hx : element? A.prime a = some x) (ht : a.degree < trackedBelow) (h : a.degree < A.computed) :
    A.factors a = .ok (factorsOf A.prime a x) := by
  have ha := (mem_basis_of_element? hx).1
  have hdegree := degree_eq_factors hp hx ht
  obtain ⟨x', hx', helement⟩ := element_of_isBasis ha h
  obtain rfl := Option.some.inj (hx.symm.trans helement)
  rw [factors, hx', Result.ok_bind, factorsOf]
  simp only
  by_cases hone : x.exterior = 0 ∨ ((members x.exterior).length = 1 ∧ x.exponents.isEmpty)
  · rw [if_pos hone, if_pos hone]
  have hexteriors : (members x.exterior).reverse.mapM A.exteriorOperation =
      .ok ((members x.exterior).reverse.map (exteriorAt A.prime)) := by
    refine Result.mapM_eq_ok fun k hk => ?_
    have hk := List.mem_reverse.mp hk
    have hle := tauDegree_le_degree hp hx ht hk
    exact exteriorOperation_eq hp (isOdd_of_mem (proper_of_element? hp hx ht).1 hk) (by omega) (by omega)
  rw [if_neg hone, if_neg hone]
  by_cases hnil : x.exponents.isEmpty
  · simp only [if_pos hnil, Result.ok_bind, hexteriors]
  · have hd : powerDegree A.prime x.exponents = (step A.prime * weight A.prime (index x.exponents) : ℕ) :=
      powerDegree_eq hp (by omega)
    have hpower := powerOperation_eq hp (proper_of_element? hp hx ht).1.trimmed hd (by omega) (by omega)
    simp only [if_neg hnil, hpower, Result.ok_bind, hexteriors]

omit hp in
/-- The summands of a coproduct that is answered are pairs of basis elements, whose degrees add up. -/
theorem of_coproduct_eq_ok {pairs : List (Operation × Operation)} (h : A.coproduct a = .ok pairs) {s : Operation × Operation}
    (hs : s ∈ pairs) : s.1.IsBasis A.prime ∧ s.2.IsBasis A.prime ∧ s.1.degree + s.2.degree = a.degree := by
  have hone := Operation.isBasis_one A.prime
  have hpower : ∀ {R : List ℕ} {d : ℤ} {b : Operation}, A.powerOperation R d = .ok b → b.IsBasis A.prime ∧ b.degree = d := by
    intro R d b hb
    obtain ⟨i, hi, hb⟩ := Result.bind_eq_ok.mp hb
    obtain rfl := Except.ok.inj hb
    have hindex := index?_lt (indexIn_eq_ok hi).1
    refine ⟨⟨?_, hindex⟩, rfl⟩
    by_contra hneg
    rw [dim_of_neg (not_le.mp hneg)] at hindex
    exact absurd hindex (Nat.not_lt_zero i)
  rw [coproduct] at h
  split at h
  · next hzero =>
    obtain rfl := Except.ok.inj h
    obtain rfl := List.mem_singleton.mp hs
    exact ⟨hone, hone, hzero.symm⟩
  · obtain ⟨x, hx, h⟩ := Result.bind_eq_ok.mp h
    obtain ⟨_, ha, _⟩ := element_eq_ok hx
    split at h
    · obtain ⟨_, _, h⟩ := Result.bind_eq_ok.mp h
      obtain rfl := Except.ok.inj h
      rcases List.mem_pair.mp hs with rfl | rfl
      · exact ⟨ha, hone, add_zero _⟩
      · exact ⟨hone, ha, zero_add _⟩
    · obtain ⟨i, hi⟩ := List.mem_iff_getElem?.mp hs
      obtain ⟨left, _, hstep⟩ := (Result.getElem?_of_mapM h).mp hi
      obtain ⟨l, hl, hstep⟩ := Result.bind_eq_ok.mp hstep
      obtain ⟨r, hr, hstep⟩ := Result.bind_eq_ok.mp hstep
      obtain rfl := Except.ok.inj hstep
      obtain ⟨hl, hldegree⟩ := hpower hl
      obtain ⟨hr, hrdegree⟩ := hpower hr
      refine ⟨hl, hr, ?_⟩
      simp only [hldegree, hrdegree]
      omega

end Algebra
end Steenrod
