import Steenrod.Proofs.Milnor.Adem
import Steenrod.Proofs.Milnor.Associativity
import Steenrod.Proofs.Milnor.Growth
/-!
The relations between the generators of the algebra. Main statements: the operations `Q_0^e P(n)` are found in the basis;
the words `P^x b^e P^y` that are listed are those that are not admissible; and the relations that are listed hold.
-/
namespace Steenrod

/-- The exponents that `b` takes in a word. -/
def Prime.Bockstein (p : Prime) (e : ℕ) : Prop := e = 0 ∨ p.isOdd ∧ e = 1

theorem Prime.bockstein_zero (p : Prime) : p.Bockstein 0 := .inl rfl

theorem Prime.Bockstein.le_one {p : Prime} {e : ℕ} (he : p.Bockstein e) : e ≤ 1 := by
  rcases he with rfl | ⟨_, rfl⟩ <;> omega

/-- The exponent of `b` can be split over two letters. -/
theorem Prime.Bockstein.split {p : Prime} {e e1 : ℕ} (he : p.Bockstein e) (hle : e1 ≤ e) :
    p.Bockstein e1 ∧ p.Bockstein (e - e1) := by
  rcases he with rfl | ⟨hodd, rfl⟩
  · obtain rfl : e1 = 0 := by omega
    exact ⟨.inl rfl, .inl rfl⟩
  · rcases Nat.le_one_iff_eq_zero_or_eq_one.mp hle with rfl | rfl
    · exact ⟨.inl rfl, .inr ⟨hodd, rfl⟩⟩
    · exact ⟨.inr ⟨hodd, rfl⟩, .inl rfl⟩

namespace Milnor

variable {p : Prime}

/-- `Q_0^e P(n)`, as a basis element of the algebra. -/
def letter (p : Prime) (e n : ℕ) : Operation :=
  ⟨(step p * n + e : ℕ), (index? p (step p * n + e : ℕ) ⟨e, trim [n]⟩).getD 0⟩

theorem four_le_step (hodd : p.isOdd) : 4 ≤ step p := by
  have := three_le hodd
  rw [step_of_isOdd hodd]
  omega

theorem getElem?_weights_zero (hp : p.val < 1073741824) : (weights p)[0]? = some 1 := by
  have hlt : ((placeWeight p 0 : ℕ) : ℤ) * max (2 * (p.val : ℤ) - 2) 1 < maxSigned := by
    simp only [placeWeight, maxSigned, Nat.zero_add, Finset.sum_range_one, pow_zero, Nat.cast_one, one_mul]
    omega
  rw [weights, List.getElem?_map, (getElem?_xiDegrees hp 0 _).mpr ⟨by decide, rfl, hlt⟩, Option.map_some]
  simp [placeWeight]

/-- The sequence of one entry is found in every weight. -/
theorem trim_mem_exponents {w : List ℕ} (hw : w[0]? = some 1) (n : ℕ) : trim [n] ∈ exponents w n := by
  induction n with
  | zero => simp [exponents, exponentRow, trim]
  | succ n ih =>
    obtain ⟨w, rfl⟩ : ∃ v, w = 1 :: v := by
      cases w with
      | nil => cases hw
      | cons a v => exact ⟨v, by rw [Option.some.inj hw]⟩
    have hfirst : (1, 0) ∈ ((1 :: w).takeWhile (· ≤ n + 1)).zipIdx := by simp
    have hlength : (trim [n]).length ≤ 0 + 1 := by
      simp only [trim]
      split <;> simp
    have hbump : bump 0 (trim [n]) = trim [n + 1] := by
      cases n <;> rfl
    rw [exponents, exponentRow]
    refine List.mem_append_right _ (List.mem_flatMap.mpr ⟨(1, 0), hfirst, List.mem_map.mpr ⟨trim [n], ?_, hbump⟩⟩)
    rw [Nat.add_sub_cancel, dif_pos n.lt_succ_self]
    exact List.mem_filter.mpr ⟨ih, decide_eq_true hlength⟩

theorem getElem?_tauDegrees_zero (hp : p.val < 1073741824) : p.tauDegrees[0]? = some 1 :=
  (getElem?_tauDegrees hp 0 _).mpr ⟨by decide, by simp [tauDegree], by simp [tauDegree, maxSigned]⟩

section Letters

variable {e n : ℕ} (he : p.Bockstein e)

include he

theorem members_of_bockstein : members e = List.replicate e 0 := by
  rcases he with rfl | ⟨_, rfl⟩ <;> decide

theorem proper_letter (n : ℕ) : (⟨e, trim [n]⟩ : MilnorElement).Proper p := by
  refine ⟨trimmed_trim _, ?_, fun heven => ?_⟩
  · rcases he with rfl | ⟨_, rfl⟩ <;> norm_num
  · rcases he with rfl | ⟨hodd, _⟩
    · rfl
    · simp [heven] at hodd

theorem degree_letter (n : ℕ) : (⟨e, trim [n]⟩ : MilnorElement).degree p = step p * n + e := by
  have hdegree : tauDegree p 0 = 1 := by simp [tauDegree]
  rw [MilnorElement.degree, degreeOf, members_of_bockstein he, index_trim, weight_index_single]
  simp [hdegree, Nat.add_comm]

theorem exteriorDegree_of_bockstein (hp : p.val < 1073741824) : exteriorDegree p e = e := by
  rw [exteriorDegree, exteriorDegree?, members_of_bockstein he]
  rcases he with rfl | ⟨_, rfl⟩
  · rfl
  · simp [List.mapM_cons, getElem?_tauDegrees_zero hp, degreeSum]

/-- `Q_0^e P(n)` is in the basis, in every degree. -/
theorem mem_basis_letter (hp : p.val < 1073741824) : ⟨e, trim [n]⟩ ∈ basis p (step p * n + e) := by
  have hsequence : trim [n] ∈ sequences p n := by
    rw [sequences]
    exact trim_mem_exponents (getElem?_weights_zero hp) n
  rw [basis, basisRow]
  split
  · have hmask : e < 2 ^ (p.tauDegrees.takeWhile (· ≤ ((step p * n + e : ℕ) : ℤ))).length := by
      rcases he with rfl | ⟨_, rfl⟩
      · exact Nat.two_pow_pos _
      · obtain ⟨l, hl⟩ : ∃ l, p.tauDegrees = 1 :: l := List.head?_eq_some_iff.mp (List.head?_eq_getElem? ▸ getElem?_tauDegrees_zero hp)
        refine Nat.one_lt_two_pow ?_
        have hle : (1 : ℤ) ≤ (step p * n + 1 : ℕ) := by omega
        rw [hl, List.takeWhile_cons, if_pos (decide_eq_true hle), List.length_cons]
        exact Nat.succ_ne_zero _
    have hpos : (0 : ℤ) < p.q := by
      rw [q_eq hp]
      exact_mod_cast step_pos p
    have hrest : ((step p * n + e : ℕ) : ℤ) - exteriorDegree p e = p.q * n := by
      rw [exteriorDegree_of_bockstein he hp, q_eq hp]
      push_cast
      ring
    refine List.mem_toArray.mpr (List.mem_flatMap.mpr ⟨e, List.mem_range.mpr (by rwa [Nat.one_shiftLeft]), ?_⟩)
    simp only [hrest]
    rw [if_pos ⟨by positivity, Int.mul_emod_right _ _⟩, Int.mul_ediv_cancel_left _ hpos.ne', Int.toNat_natCast]
    exact List.mem_map.mpr ⟨_, hsequence, rfl⟩
  · next heven =>
    obtain rfl : e = 0 := he.resolve_right fun h => heven h.1
    have hone : step p = 1 := if_neg heven
    rw [hone, one_mul, Nat.add_zero]
    exact List.mem_toArray.mpr (List.mem_map.mpr ⟨_, hsequence, rfl⟩)

theorem index?_letter (hp : p.val < 1073741824) :
    index? p (step p * n + e : ℕ) ⟨e, trim [n]⟩ = some (letter p e n).index := by
  have hsome : (index? p (step p * n + e : ℕ) ⟨e, trim [n]⟩).isSome := by
    rw [index?, if_neg (by omega), Int.toNat_natCast, Array.isSome_idxOf?]
    exact mem_basis_letter he hp
  obtain ⟨i, hi⟩ := Option.isSome_iff_exists.mp hsome
  rw [letter, hi, Option.getD_some]

theorem element?_letter (hp : p.val < 1073741824) : element? p (letter p e n) = some ⟨e, trim [n]⟩ := by
  have hindex := index?_letter he hp (n := n)
  rw [index?, if_neg (by omega)] at hindex
  obtain ⟨hlt, heq, _⟩ := idxOf?_eq_some.mp hindex
  have hnonneg : ¬(letter p e n).degree < 0 := by simp only [letter]; omega
  rw [element?, if_neg hnonneg]
  exact Array.getElem?_eq_some_iff.mpr ⟨hlt, heq⟩

theorem isBasis_letter (hp : p.val < 1073741824) : (letter p e n).IsBasis p := (mem_basis_of_element? (element?_letter he hp)).1

theorem eq_of_degree_le_one {x : MilnorElement} (hx : x.Proper p) (h : x.degree p = e) : x = ⟨e, []⟩ := by
  rcases he with rfl | ⟨hodd, rfl⟩
  · exact eq_one_of_degree hx h
  · have hfour := four_le_step hodd
    have hdegree : ((members x.exterior).map (tauDegree p)).sum + step p * weight p (index x.exponents) = 1 := h
    have hweight : weight p (index x.exponents) = 0 := by
      by_contra hne
      have := Nat.le_mul_of_pos_right (step p) (Nat.pos_of_ne_zero hne)
      omega
    have hbits : x.exterior < 2 ^ 1 := lt_two_pow_iff.mpr fun k hk => by
      have hmem := mem_members.mpr ⟨lt_two_pow_iff.mp hx.exterior_lt k hk, hk⟩
      have hle := (two_pow_le_tauDegree p k).trans (tauDegree_le_of_mem hmem (d := 1) (by omega))
      exact (Nat.pow_lt_pow_iff_right (by decide)).mp (show 2 ^ k < 2 ^ 1 by omega)
    have hmembers : members x.exterior = members 1 := by
      rcases Nat.le_one_iff_eq_zero_or_eq_one.mp (Nat.le_of_lt_succ hbits) with hzero | hone
      · have hnone : members 0 = [] := by decide
        rw [hzero, hnone, hweight] at hdegree
        simp at hdegree
      · rw [hone]
    exact proper_eq hx (proper_letter (.inr ⟨hodd, rfl⟩) 0) (index_of_weight hweight) hmembers

/-- The words in `b` alone come first in their degrees. -/
theorem letter_zero (hp : p.val < 1073741824) : letter p e 0 = ⟨e, 0⟩ := by
  have hle := he.le_one
  have hzero : letter p e 0 = ⟨e, (letter p e 0).index⟩ := by simp [letter]
  have htracked : (1 : ℕ) < trackedBelow := by decide
  have helement := element?_letter he hp (n := 0)
  have hlt : 0 < dim p e := by
    have := (isBasis_letter he hp (n := 0)).index_lt
    rw [hzero] at this
    exact Nat.zero_lt_of_lt this
  obtain ⟨x, hx, _⟩ := element?_eq_some (p := p) (a := ⟨e, 0⟩) ⟨Int.natCast_nonneg e, hlt⟩
  obtain ⟨hproper, hdegree⟩ := proper_of_element? hp hx (show (e : ℤ) < trackedBelow by omega)
  obtain rfl := eq_of_degree_le_one he hproper (Int.ofNat_inj.mp hdegree)
  have hfirst := index?_of_element? hp hx (show (e : ℤ) < trackedBelow by omega)
  rw [hzero] at helement
  have hsame := index?_of_element? hp helement (show (e : ℤ) < trackedBelow by omega)
  have htrim : trim [0] = [] := rfl
  rw [htrim, hfirst] at hsame
  rw [hzero, ← Option.some.inj hsame]

end Letters

theorem Operators.operator_letter {bound : ℕ} {K : Type} [Ring K] [Module p.Field K] (O : Operators p bound K) {e n : ℕ}
    (he : p.Bockstein e) (hp : p.val < 1073741824) : O.operator (letter p e n) = O.bocksteinPower e n := by
  rw [O.operator_of_element? (element?_letter he hp), Operators.element, members_of_bockstein he, index_trim, Operators.bocksteinPower,
    Operators.single, Operators.exteriors, List.map_replicate, List.prod_replicate]

/-- The value of a sum of products, where operations stand for elements of a ring. -/
def termSum {K : Type} [Ring K] [Module p.Field K] (φ : Operation → K) (terms : List Term) : K :=
  (terms.map fun t => (t.coefficient : p.Field) • (φ t.left * φ t.right)).sum

section TermSum

variable {K : Type} [Ring K] [Module p.Field K] (φ : Operation → K)

@[simp] theorem termSum_nil : termSum (p := p) φ [] = 0 := rfl

@[simp] theorem termSum_cons (t : Term) (terms : List Term) :
    termSum (p := p) φ (t :: terms) = (t.coefficient : p.Field) • (φ t.left * φ t.right) + termSum (p := p) φ terms := by
  simp [termSum]

end TermSum

theorem filterMap_flatten_map {α β γ : Type} (f : α → β → Option γ) (l : List α) (m : List β) :
    ((l.map fun a => m.map (f a)).flatten).filterMap id = l.flatMap fun a => m.filterMap (f a) := by
  simp [List.flatMap, List.filterMap_flatten, Function.comp_def]

/-- The terms of the Adem relation for `P^x b^e P^y`. -/
def ademTerms (p : Prime) (x e y : ℕ) : List Term :=
  ⟨p.negate 1, letter p 0 x, letter p e y⟩ ::
    (List.range (e + 1)).flatMap fun e1 => (List.range (x / p.val + 1)).filterMap fun j =>
      if p.ademCoefficient x y j e1 (e - e1) = 0 then none
      else some ⟨p.ademCoefficient x y j e1 (e - e1), letter p e1 (x + y - j), letter p (e - e1) j⟩

theorem termSum_ademTerms {K : Type} [Ring K] [Module p.Field K] (φ : Operation → K) (x e y : ℕ) :
    termSum (p := p) φ (ademTerms p x e y) = -(φ (letter p 0 x) * φ (letter p e y)) +
      ∑ e1 ∈ Finset.range (e + 1), ∑ j ∈ Finset.range (x / p.val + 1), (p.ademCoefficient x y j e1 (e - e1) : p.Field) •
        (φ (letter p e1 (x + y - j)) * φ (letter p (e - e1) j)) := by
  have hterm : ∀ e1 j : ℕ, (((if p.ademCoefficient x y j e1 (e - e1) = 0 then none
      else some ⟨p.ademCoefficient x y j e1 (e - e1), letter p e1 (x + y - j), letter p (e - e1) j⟩ : Option Term).map
        fun t => (t.coefficient : p.Field) • (φ t.left * φ t.right)).getD 0) =
      (p.ademCoefficient x y j e1 (e - e1) : p.Field) • (φ (letter p e1 (x + y - j)) * φ (letter p (e - e1) j)) := by
    intro e1 j
    split
    · next h => rw [h, Nat.cast_zero, zero_smul, Option.map_none, Option.getD_none]
    · rw [Option.map_some, Option.getD_some]
  have hinner : ∀ e1 : ℕ, (((List.range (x / p.val + 1)).filterMap fun j =>
      if p.ademCoefficient x y j e1 (e - e1) = 0 then none
      else some (⟨p.ademCoefficient x y j e1 (e - e1), letter p e1 (x + y - j), letter p (e - e1) j⟩ : Term)).map
        fun t => (t.coefficient : p.Field) • (φ t.left * φ t.right)).sum =
      ∑ j ∈ Finset.range (x / p.val + 1), (p.ademCoefficient x y j e1 (e - e1) : p.Field) •
        (φ (letter p e1 (x + y - j)) * φ (letter p (e - e1) j)) := by
    intro e1
    rw [sum_filterMap, ← List.toFinset_range, List.sum_toFinset _ List.nodup_range]
    exact congrArg List.sum (List.map_congr_left fun j _ => hterm e1 j)
  rw [ademTerms, termSum_cons, Prime.cast_negate, Nat.cast_one, neg_one_smul, termSum, sum_flatMap, ← List.toFinset_range,
    List.sum_toFinset _ List.nodup_range]
  exact congrArg (_ + List.sum ·) (List.map_congr_left fun e1 _ => hinner e1)

/-- The relation for a word that is not admissible holds for operators that multiply as the elements do. -/
theorem Operators.termSum_ademTerms_eq_zero {bound : ℕ} {K : Type} [Ring K] [Module p.Field K] [SMulCommClass p.Field K K]
    (O : Operators p bound K) (hp : p.val < 1073741824) {x e y : ℕ} (he : p.Bockstein e) (hx : 0 < x)
    (hxy : x < p.val * y + e) (h : step p * (x + y) + e < bound) (ht : step p * (x + y) + e < trackedBelow) :
    termSum (p := p) O.operator (ademTerms p x e y) = 0 := by
  have htracked : (trackedBelow : ℤ) ≤ maxSigned := by decide
  have hroom := Nat.le_mul_of_pos_left (x + y) (step_pos p)
  have hx' : (x : ℤ) ≤ maxSigned := by omega
  have hy' : (y : ℤ) ≤ maxSigned := by omega
  have hword : ∀ {e' n : ℕ}, p.Bockstein e' → O.operator (letter p e' n) = O.bocksteinPower e' n := fun he' => O.operator_letter he' hp
  have hle : ∀ j ∈ Finset.range (x / p.val + 1), p.val * j ≤ x ∧ j ≤ x + y := fun j hj => by
    have hj := Nat.le_of_lt_succ (Finset.mem_range.mp hj)
    have hmul := (Nat.le_div_iff_mul_le p.pos).mp hj
    have hx := Nat.div_le_self x p.val
    rw [Nat.mul_comm]
    omega
  rw [termSum_ademTerms, neg_add_eq_zero, hword (.inl rfl), hword he]
  rcases he with rfl | ⟨hodd, rfl⟩
  · rw [Finset.sum_range_one]
    simp only [Operators.bocksteinPower, pow_zero, one_mul]
    rw [O.single_adem (by omega) hxy (by omega)]
    refine Finset.sum_congr rfl fun j hj => ?_
    obtain ⟨hxj, hj⟩ := hle j hj
    rw [Prime.cast_ademCoefficient_zero hp hx' hy' hxj (Nat.lt_of_mul_lt_mul_left (lt_of_le_of_lt hxj hxy)),
      hword (.inl rfl), hword (.inl rfl)]
    simp [Operators.bocksteinPower]
  · simp only [Operators.bocksteinPower, pow_zero, pow_one, one_mul]
    rw [O.single_adem_exterior hp hodd hx' hy' hx (by omega) h, Finset.sum_range_succ _ 1, Finset.sum_range_one, ← Finset.sum_add_distrib]
    refine Finset.sum_congr rfl fun j hj => ?_
    obtain ⟨hxj, hj⟩ := hle j hj
    rw [hword (.inl rfl), hword (.inl rfl), hword (.inr ⟨hodd, rfl⟩), hword (.inr ⟨hodd, rfl⟩), add_comm]
    simp only [Operators.bocksteinPower, Nat.sub_zero, Nat.sub_self, pow_zero, pow_one, one_mul]

/-- A word lies in a degree that its exponent of `b` is the remainder of. -/
theorem step_mul_add_eq_iff {d e n : ℕ} (he : p.Bockstein e) : step p * n + e = d ↔ d / step p = n ∧ d % step p = e := by
  have hlt : e < step p := by
    have hpos := step_pos p
    rcases he with rfl | ⟨hodd, rfl⟩
    · exact hpos
    · have := four_le_step hodd
      omega
  rw [Nat.div_mod_unique (step_pos p), Nat.add_comm]
  exact ⟨fun h => ⟨h, hlt⟩, And.left⟩

theorem mem_words {n e k : ℕ} (he : e ≤ 1) (hk : k = (p.val * n + p.val + e) / (p.val + 1) - 1) (x e' y : ℕ) :
    (x, e', y) ∈ (List.range' 1 k).map (fun x => (x, e, n - x)) ↔ 0 < x ∧ e' = e ∧ x + y = n ∧ x < p.val * y + e := by
  have hle : ∀ w, 0 < w ∧ w ≤ k ↔ 0 < w ∧ (w + 1) * (p.val + 1) ≤ p.val * n + p.val + e := fun w => by
    rw [← Nat.le_div_iff_mul_le (Nat.add_one_pos p.val), hk]
    omega
  have hpos := p.pos
  have hmul : ∀ w v, (w + 1) * (p.val + 1) ≤ p.val * (w + v) + p.val + e ↔ w < p.val * v + e := fun w v => by
    rw [Nat.add_mul, Nat.mul_add, Nat.mul_add, Nat.mul_comm w, Nat.mul_add]
    omega
  simp only [List.mem_map, List.mem_range'_1, Prod.mk.injEq]
  constructor
  · rintro ⟨w, hw, rfl, rfl, rfl⟩
    obtain ⟨hpos, hw⟩ := (hle w).mp (by omega)
    have hwn : w ≤ n := by
      have hupper : p.val * n + p.val + e ≤ (n + 1) * (p.val + 1) := by
        rw [Nat.add_one_mul, Nat.mul_add_one, Nat.mul_comm n]
        omega
      exact Nat.le_of_succ_le_succ (Nat.le_of_mul_le_mul_right (hw.trans hupper) (Nat.add_one_pos p.val))
    obtain ⟨v, rfl⟩ := Nat.exists_eq_add_of_le hwn
    rw [Nat.add_sub_cancel_left]
    exact ⟨hpos, rfl, rfl, (hmul w v).mp hw⟩
  · rintro ⟨hpos, rfl, rfl, hlt⟩
    have := (hle x).mpr ⟨hpos, (hmul x y).mpr hlt⟩
    exact ⟨x, by omega, rfl, rfl, Nat.add_sub_cancel_left _ _⟩

theorem unsigned32_q (hp : p.val < 1073741824) : unsigned32 p.q = step p := by
  rw [q_eq hp]
  refine unsigned32_of_le ?_
  unfold maxWord step
  split <;> omega

/-- How the step compares with the prime. -/
theorem step_cases (p : Prime) : p.val = 2 ∧ step p = 1 ∨ 4 * p.val ≤ 3 * step p := by
  unfold step
  split
  · next h => exact .inr (by have := three_le h; omega)
  · next h => exact .inl ⟨by simpa [Prime.isOdd] using h, rfl⟩

/-- The bound of the list is found in words, in all degrees but the last one at the prime 2. -/
theorem listed_le_maxWord (hp : p.val < 1073741824) {d : ℕ} (hd : d ≤ maxSigned) (hlast : ¬(p.val = 2 ∧ d = maxSigned)) :
    p.val * (d / step p) + p.val + 1 ≤ maxWord := by
  have hdiv := Nat.mul_div_le d (step p)
  unfold maxSigned at hd hlast
  unfold maxWord
  rcases step_cases p with ⟨hp₂, hone⟩ | hthree
  · rw [hp₂, hone, Nat.div_one]
    omega
  · have hmul := Nat.mul_le_mul_right (d / step p) hthree
    rw [Nat.mul_assoc, Nat.mul_assoc] at hmul
    omega

/-- The words `P^x b^e P^y` that are listed are those that are not admissible, each once, by increasing `x`. -/
theorem inadmissible_eq (hp : p.val < 1073741824) {d : ℕ} (hd : d ≤ maxSigned) (hlast : ¬(p.val = 2 ∧ d = maxSigned)) :
    ∃ words, p.inadmissible d = .ok words ∧ words.Pairwise (fun v w => v.1 < w.1) ∧ ∀ x e y, (x, e, y) ∈ words ↔
      0 < x ∧ p.Bockstein e ∧ step p * (x + y) + e = d ∧ x < p.val * y + e := by
  have hd' : unsigned32 d = d := unsigned32_of_le (by unfold maxWord; unfold maxSigned at hd; omega)
  have hroom := listed_le_maxWord hp hd hlast
  have hsorted : ∀ e k : ℕ, ((List.range' 1 k).map fun x => (x, e, d / step p - x)).Pairwise (fun v w => v.1 < w.1) :=
    fun e k => List.pairwise_map.mpr List.pairwise_lt_range'
  have hword : ∀ {e x y : ℕ}, p.Bockstein e → (x + y = d / step p ∧ d % step p = e ↔ step p * (x + y) + e = d) :=
    fun he => by rw [step_mul_add_eq_iff he, eq_comm]
  rw [Prime.inadmissible, hd', unsigned32_q hp]
  by_cases hzero : d % step p = 0
  · rw [if_pos hzero, decide_eq_true (by omega), require_true, Result.ok_bind]
    refine ⟨_, rfl, hsorted 0 _, fun x e y => (mem_words (p := p) (n := d / step p) (e := 0) (by omega) rfl x e y).trans ?_⟩
    constructor
    · rintro ⟨hx, rfl, hxy, hlt⟩
      exact ⟨hx, .inl rfl, (hword (.inl rfl)).mp ⟨hxy, hzero⟩, hlt⟩
    · rintro ⟨hx, he, hxy, hlt⟩
      obtain ⟨hxy, hmod⟩ := (hword he).mpr hxy
      exact ⟨hx, hmod.symm.trans hzero, hxy, by rwa [← hmod, hzero] at hlt⟩
  · rw [if_neg hzero]
    by_cases hone : p.isOdd ∧ d % step p = 1
    · rw [if_pos (by simpa using hone), decide_eq_true (by omega), require_true, Result.ok_bind]
      refine ⟨_, rfl, hsorted 1 _, fun x e y => (mem_words le_rfl rfl x e y).trans ?_⟩
      constructor
      · rintro ⟨hx, rfl, hxy, hlt⟩
        exact ⟨hx, .inr ⟨hone.1, rfl⟩, (hword (.inr ⟨hone.1, rfl⟩)).mp ⟨hxy, hone.2⟩, hlt⟩
      · rintro ⟨hx, he, hxy, hlt⟩
        obtain ⟨hxy, hmod⟩ := (hword he).mpr hxy
        exact ⟨hx, hmod.symm.trans hone.2, hxy, by rwa [← hmod, hone.2] at hlt⟩
    · rw [if_neg (by simpa using hone)]
      refine ⟨[], rfl, .nil, fun x e y => ⟨fun h => absurd h (List.not_mem_nil), fun hwords => ?_⟩⟩
      obtain ⟨_, he, hxy, _⟩ := hwords
      obtain ⟨_, hmod⟩ := (hword he).mpr hxy
      rcases he with rfl | ⟨hodd, rfl⟩
      · exact absurd hmod hzero
      · exact absurd ⟨hodd, hmod⟩ hone

end Milnor

/-- The product of two basis elements in degree `d`. -/
structure Term.LiesIn (p : Prime) (d : ℤ) (t : Term) : Prop where
  left : t.left.IsBasis p
  right : t.right.IsBasis p
  degree_eq : t.left.degree + t.right.degree = d

namespace Milnor

theorem liesIn_of_mem_ademTerms (hp : p.val < 1073741824) {x e y : ℕ} (he : p.Bockstein e) {t : Term}
    (h : t ∈ ademTerms p x e y) : t.LiesIn p (step p * (x + y) + e : ℕ) := by
  rcases List.mem_cons.mp h with rfl | h
  · refine ⟨isBasis_letter (.inl rfl) hp, isBasis_letter he hp, ?_⟩
    simp only [letter]
    push_cast
    ring
  · obtain ⟨e1, he1, h⟩ := List.mem_flatMap.mp h
    obtain ⟨j, hj, h⟩ := List.mem_filterMap.mp h
    obtain ⟨_, ht⟩ := Option.ite_none_left_eq_some.mp h
    obtain rfl := Option.some.inj ht
    have he1 := Nat.le_of_lt_succ (List.mem_range.mp he1)
    have hj := Nat.le_of_lt_succ (List.mem_range.mp hj)
    have hx := Nat.div_le_self x p.val
    obtain ⟨h1, h2⟩ := he.split he1
    refine ⟨isBasis_letter h1 hp, isBasis_letter h2 hp, ?_⟩
    obtain ⟨n, hn⟩ := Nat.exists_eq_add_of_le (show j ≤ x + y by omega)
    obtain ⟨f, rfl⟩ := Nat.exists_eq_add_of_le he1
    simp only [letter, hn, Nat.add_sub_cancel_left]
    push_cast
    ring

end Milnor

namespace Algebra

open Milnor

variable {A : Algebra}

theorem bocksteinPower_eq (hp : A.prime.val < 1073741824) {e n : ℕ} (he : A.prime.Bockstein e)
    (h : step A.prime * n + e < A.computed) : A.bocksteinPower e n = .ok (letter A.prime e n) := by
  have hdegree : A.prime.q * n + e = (step A.prime * n + e : ℕ) := by
    rw [q_eq hp]
    push_cast
    rfl
  have htrim : (if n = 0 then [] else [n]) = trim [n] := rfl
  rw [bocksteinPower, hdegree, htrim, indexIn_of_index? (index?_letter he hp) (by exact_mod_cast h)]
  rfl

/-- The Adem relation for `P^x b^e P^y` is answered, with terms that do not depend on how much is computed. -/
theorem ademRelation_eq (hp : A.prime.val < 1073741824) {x e y : ℕ} (he : A.prime.Bockstein e)
    (h : step A.prime * (x + y) + e < A.computed) : A.ademRelation x e y = .ok (ademTerms A.prime x e y) := by
  have hword : ∀ {e' n : ℕ}, A.prime.Bockstein e' → n ≤ x + y → e' ≤ e → A.bocksteinPower e' n = .ok (letter A.prime e' n) := by
    intro e' n he' hn hle
    have := Nat.mul_le_mul_left (step A.prime) hn
    exact bocksteinPower_eq hp he' (by omega)
  have hterm : ∀ e1 ∈ List.range (e + 1), ∀ j ∈ List.range (x / A.prime.val + 1), A.ademTerm x y e1 (e - e1) j =
      .ok (if A.prime.ademCoefficient x y j e1 (e - e1) = 0 then none
        else some ⟨A.prime.ademCoefficient x y j e1 (e - e1), letter A.prime e1 (x + y - j), letter A.prime (e - e1) j⟩) := by
    intro e1 he1 j hj
    have he1 := Nat.le_of_lt_succ (List.mem_range.mp he1)
    have hj := Nat.le_of_lt_succ (List.mem_range.mp hj)
    have hx := Nat.div_le_self x A.prime.val
    have hexp := he.split he1
    rw [ademTerm]
    split
    · rfl
    · split
      · next hzero =>
        rw [hzero, letter_zero hexp.2 hp, Nat.sub_zero, hword hexp.1 le_rfl he1]
        rfl
      · rw [hword hexp.1 (by omega) he1, hword hexp.2 (by omega) (by omega)]
        rfl
  have hlist : ((List.range (e + 1)).mapM fun e1 => (List.range (x / A.prime.val + 1)).mapM fun j =>
      A.ademTerm x y e1 (e - e1) j) = .ok _ :=
    Result.mapM_eq_ok fun e1 he1 => Result.mapM_eq_ok fun j hj => hterm e1 he1 j hj
  rw [ademRelation, hword (.inl rfl) (by omega) (by omega), hword he (by omega) le_rfl, Result.ok_bind, Result.ok_bind, hlist,
    Result.ok_bind, filterMap_flatten_map]
  rfl

/-- The sum of products, as coordinates in degree `d`. -/
def sumTerms (A : Algebra) (d : ℤ) (terms : List Term) : Result Vec := do
  let n ← A.dimension d
  terms.foldlM (fun v t => do
    let w ← A.multiply t.coefficient t.left t.right
    .ok (v.add A.prime 1 w)) (Vec.zero n)

/-- A sum of products of basis elements is answered, and it stands for the sum of the products of the operators. -/
theorem exists_sumTerms (hp : A.prime.val < 1073741824) {d : ℤ} {terms : List Term} (hterms : ∀ t ∈ terms, t.LiesIn A.prime d)
    (h : d < A.computed) (ht : d < trackedBelow) {bound : ℕ} {K : Type} [Ring K] [Module A.prime.Field K]
    [IsScalarTower A.prime.Field K K] [SMulCommClass A.prime.Field K K] (O : Operators A.prime bound K)
    (hbound : bound ≤ trackedBelow) (hd : d < bound) :
    ∃ v, A.sumTerms d terms = .ok v ∧ Vec.Proper A.prime (dim A.prime d) v ∧
      O.denote d (v.coords A.prime) = termSum (p := A.prime) O.operator terms := by
  have hloop : ∀ (terms : List Term) (w : Vec), (∀ t ∈ terms, t.LiesIn A.prime d) → Vec.Proper A.prime (dim A.prime d) w →
      ∃ v, terms.foldlM (fun v t => do
        let u ← A.multiply t.coefficient t.left t.right
        (Except.ok (v.add A.prime 1 u) : Result Vec)) w = .ok v ∧ Vec.Proper A.prime (dim A.prime d) v ∧
        O.denote d (v.coords A.prime) = O.denote d (w.coords A.prime) + termSum (p := A.prime) O.operator terms := by
    intro terms
    induction terms with
    | nil => exact fun w _ hw => ⟨w, rfl, hw, by rw [termSum_nil, add_zero]⟩
    | cons t terms ih =>
      intro w hterms hw
      obtain ⟨hleft, hright, rfl⟩ := hterms t (by simp)
      obtain ⟨u, hu⟩ := exists_multiply_tracked hp hleft hright h ht t.coefficient
      obtain ⟨_, _, _, hup, huc⟩ := multiply_eq_ok hu
      obtain ⟨v, hv, hvp, hvc⟩ := ih (w.add A.prime 1 u) (fun t' ht' => hterms t' (by simp [ht'])) (hw.add 1 u)
      refine ⟨v, ?_, hvp, ?_⟩
      · rw [List.foldlM_cons, hu]
        exact hv
      · rw [hvc, hw.coords_add 1 hup, huc, Nat.cast_one, one_smul, map_add, map_smul, O.denote_mul hp hbound hleft hright hd,
          termSum_cons, add_assoc]
  obtain ⟨v, hv, hvp, hvc⟩ := hloop terms (Vec.zero (dim A.prime d)) hterms Vec.Proper.zero
  refine ⟨v, ?_, hvp, by rw [hvc, Vec.coords_zero, map_zero, zero_add]⟩
  rw [sumTerms, dimension_of_lt h]
  exact hv

/-- A sum of products that vanishes for the operators on polynomials vanishes in the algebra. -/
theorem sumTerms_eq_zero (hp : A.prime.val < 1073741824) {d : ℤ} {terms : List Term} (hterms : ∀ t ∈ terms, t.LiesIn A.prime d)
    (h : d < A.computed) (ht : d < trackedBelow)
    (hzero : termSum (p := A.prime) (Faithful.operators (p := A.prime) (by omega) trackedBelow).operator terms = 0) :
    A.sumTerms d terms = .ok (Vec.zero (dim A.prime d)) := by
  obtain ⟨v, hv, hvp, hvc⟩ := exists_sumTerms hp hterms h ht (Faithful.operators (by omega) trackedBelow) le_rfl ht
  have hcoords := Faithful.denote_injective hp ht hvp.coords_mem (hvc.trans hzero)
  rw [hv, hvp.ext Vec.Proper.zero (by rw [hcoords, Vec.coords_zero])]

end Algebra

namespace Growing

open Milnor

variable {A : Algebra}

/-- The relations of a degree: the one for `b b`, or one for each word that is not admissible. -/
theorem run_relations_of_le (hp : A.prime.val < 1073741824) {d : ℤ} (hd : 0 ≤ d) (hle : d ≤ maxSigned)
    (hlast : ¬(A.prime.val = 2 ∧ d = maxSigned)) :
    ∃ rels A', (relations d).run A = (.ok rels, A') ∧ Follows A A' ∧
      ((A.prime.isOdd ∧ d = 2 ∧ rels = [[⟨1, letter A.prime 1 0, letter A.prime 1 0⟩]]) ∨
        ¬(A.prime.isOdd ∧ d = 2) ∧ ∀ rel, rel ∈ rels ↔ ∃ x e y, rel = ademTerms A.prime x e y ∧ 0 < x ∧ A.prime.Bockstein e ∧
          step A.prime * (x + y) + e = d.toNat ∧ x < A.prime.val * y + e) := by
  rw [relations, run_bind, run_get]
  simp only
  by_cases hone : A.prime.isOdd ∧ d = 2
  · rw [if_pos hone]
    refine ⟨_, A, rfl, Follows.refl A, .inl ⟨hone.1, hone.2, ?_⟩⟩
    rw [letter_zero (.inr ⟨hone.1, rfl⟩) hp, Nat.cast_one]
  · rw [if_neg hone, run_bind, run_compute_of_le hp hle]
    simp only [run_read]
    obtain ⟨words, hwords, _, hmem⟩ := inadmissible_eq (p := A.prime) hp (d := d.toNat) (by omega) (by omega)
    rw [Int.toNat_of_nonneg hd] at hwords
    have hprime : (A.extend d).prime = A.prime := A.prime_extend d
    have hcomputed : d < (A.extend d).computed := by
      rw [A.computed_extend]
      split <;> omega
    have hrels : (words.mapM fun w => (A.extend d).ademRelation w.1 w.2.1 w.2.2) =
        .ok (words.map fun w => ademTerms A.prime w.1 w.2.1 w.2.2) := by
      refine Result.mapM_eq_ok fun w hw => ?_
      obtain ⟨x, e, y⟩ := w
      obtain ⟨_, he, hxy, _⟩ := (hmem x e y).mp hw
      rw [← hprime] at hp he hxy
      have := Algebra.ademRelation_eq (x := x) (y := y) hp he (by omega)
      rwa [hprime] at this
    refine ⟨words.map fun w => ademTerms A.prime w.1 w.2.1 w.2.2, A.extend d, ?_, follows_extend A d, .inr ⟨hone, fun rel => ?_⟩⟩
    · exact congrArg (·, A.extend d) (Result.bind_eq_ok.mpr ⟨words, hwords, hrels⟩)
    · simp only [List.mem_map, Prod.exists, hmem]
      constructor
      · rintro ⟨x, e, y, h, rfl⟩
        exact ⟨x, e, y, rfl, h⟩
      · rintro ⟨x, e, y, rfl, h⟩
        exact ⟨x, e, y, h, rfl⟩

/-- The relations of a degree in which all generators of the dual are tracked. -/
theorem run_relations (hp : A.prime.val < 1073741824) {d : ℤ} (hd : 0 ≤ d) (ht : d < trackedBelow) :
    ∃ rels A', (relations d).run A = (.ok rels, A') ∧ Follows A A' ∧
      ((A.prime.isOdd ∧ d = 2 ∧ rels = [[⟨1, letter A.prime 1 0, letter A.prime 1 0⟩]]) ∨
        ¬(A.prime.isOdd ∧ d = 2) ∧ ∀ rel, rel ∈ rels ↔ ∃ x e y, rel = ademTerms A.prime x e y ∧ 0 < x ∧ A.prime.Bockstein e ∧
          step A.prime * (x + y) + e = d.toNat ∧ x < A.prime.val * y + e) := by
  have htracked : (trackedBelow : ℤ) < maxSigned := by decide
  exact run_relations_of_le hp hd (by omega) (by omega)

/-- The relations between the generators hold, however far the algebra is computed in which they are evaluated. -/
theorem relations_hold (hp : A.prime.val < 2 ^ 30) (d : ℤ) (hd : 1 ≤ d) (ht : d < 2 ^ 25 - 1) :
    ∃ rels A', (relations d).run A = (.ok rels, A') ∧ ∀ B : Algebra, B.prime = A.prime → d < B.computed →
      ∀ rel ∈ rels, B.sumTerms d rel = .ok (Vec.zero (dim A.prime d)) := by
  have htracked : ((2 : ℤ) ^ 25 - 1) = trackedBelow := by decide
  rw [htracked] at ht
  obtain ⟨rels, A', hrun, _, hrels⟩ := run_relations (A := A) hp (by omega) ht
  refine ⟨rels, A', hrun, fun B hB hlt rel hrel => ?_⟩
  rw [← hB] at hp hrels ⊢
  let O : Operators B.prime trackedBelow (Faithful B.prime) := Faithful.operators (by omega) trackedBelow
  rcases hrels with ⟨hodd, rfl, rfl⟩ | ⟨_, hrels⟩
  · obtain rfl := List.mem_singleton.mp hrel
    have hb : B.prime.Bockstein 1 := .inr ⟨hodd, rfl⟩
    have hbasis := isBasis_letter (n := 0) hb hp
    refine Algebra.sumTerms_eq_zero hp (fun t ht => ?_) hlt ht ?_
    · obtain rfl := List.mem_singleton.mp ht
      exact ⟨hbasis, hbasis, by simp [letter]⟩
    · rw [termSum_cons, termSum_nil, O.operator_letter hb hp]
      have hdegree : 2 * tauDegree B.prime 0 < trackedBelow := by
        simp [tauDegree]
        decide
      simp [Operators.bocksteinPower, Operators.single_zero, O.exterior_mul_self hodd hdegree]
  · obtain ⟨x, e, y, rfl, hx, he, hdegree, hlt'⟩ := (hrels rel).mp hrel
    refine Algebra.sumTerms_eq_zero hp (fun t ht' => ?_) hlt ht ?_
    · have := liesIn_of_mem_ademTerms hp he ht'
      rwa [hdegree, Int.toNat_of_nonneg (by omega)] at this
    · exact O.termSum_ademTerms_eq_zero hp he hx hlt' (by omega) (by omega)

/-- The relation for `P^1 b P^1` at the prime 3. -/
theorem relations_hold_nine : ∃ rels A', (relations 9).run (Algebra.new Prime.three none) = (.ok rels, A') ∧
    ∀ B : Algebra, B.prime = Prime.three → 9 < B.computed →
      ∀ rel ∈ rels, B.sumTerms 9 rel = .ok (Vec.zero (dim Prime.three 9)) := by
  obtain ⟨rels, A', hrun, hrels⟩ :=
    relations_hold (A := Algebra.new Prime.three none) (by decide) 9 (by decide) (by decide)
  exact ⟨rels, A', hrun, fun B hB hlt => hrels B hB (by exact_mod_cast hlt)⟩

end Growing
end Steenrod
