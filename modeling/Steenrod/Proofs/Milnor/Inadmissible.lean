import Steenrod.Proofs.Linear.Preimages
import Steenrod.Proofs.Milnor.Relations
import Steenrod.Proofs.Milnor.WordDegree
import Steenrod.Proofs.Prime.Words
/-!
The words `P^x b^e P^y` that are not admissible, and the arithmetic of their relations in machine words. The list and the relations are
found once more, without an answer where a number leaves the words. Main statement: in every degree but one, the words that are not
admissible are listed, each once and by increasing `x`, and no number that is formed from one of them leaves the words; in the last
degree at the prime 2 the bound of the list overflows.
-/
namespace Steenrod
namespace Prime.Checked

open Milnor

variable (p : Prime)

section Operations

/-- The words `P^x b^e P^y` with `x + y = n` that are listed. -/
def wordsOf (e n : ℕ) : Option (List (ℕ × ℕ × ℕ)) := do
  let above ← fit maxWord (p.val * n)
  let above ← fit maxWord (above + p.val)
  let above ← fit maxWord (above + e)
  let below ← fit maxWord (p.val + 1)
  (List.range' 1 (above / below - 1)).mapM fun x => do
    let y ← minus? n x
    some (x, e, y)

def q : Option ℤ :=
  if p.isOdd then do
    let twice ← word? (2 * p.val)
    word? (twice - 2)
  else some 1

def inadmissible (degree : ℤ) : Option (List (ℕ × ℕ × ℕ)) := do
  let q ← q p
  let r ← mod? (unsigned32 degree) (unsigned32 q)
  let n := unsigned32 degree / unsigned32 q
  if r = 0 then wordsOf p 0 n
  else if p.isOdd ∧ r = 1 then wordsOf p 1 n
  else some []

/-- The upper and the lower number of the binomial coefficient in the term with `b^e1 P^(x+y-j) b^e2 P^j`. -/
def binomialArguments (x y j e1 e2 : ℕ) : Option (ℤ × ℤ) := do
  let s ← word? p.val
  let x ← word? x
  let y ← word? y
  let j ← word? j
  let rest ← word? (y - j)
  let factor ← word? (s - 1)
  let upper ← word? (rest * factor)
  let upper ← word? (upper + e1)
  let upper ← word? (upper - 1)
  let multiple ← word? (s * j)
  let lower ← word? (x - multiple)
  let lower ← word? (lower - e2)
  some (upper, lower)

def ademCoefficient (x y j e1 e2 : ℕ) : Option ℕ := do
  let (upper, lower) ← binomialArguments p x y j e1 e2
  let c ← binomial p upper lower
  if c = 0 then some 0
  else do
    let n ← word? (x + j)
    let n ← word? (n + e2)
    let s ← sign p n
    product p c s

/-- The degree of `b^e P^n`. -/
def letterDegree (e n : ℕ) : Option ℤ := do
  let q ← q p
  let n ← word? n
  let d ← word? (q * n)
  let e ← word? e
  word? (d + e)

/-- The coefficient and the degrees of the factors in one term of a relation, if it is not zero. -/
def ademTerm (x e y e1 j : ℕ) : Option (Option (ℕ × ℤ × ℤ)) := do
  let e2 ← minus? e e1
  let c ← ademCoefficient p x y j e1 e2
  if c = 0 then some none
  else do
    let n ← fit maxWord (x + y)
    let n ← minus? n j
    let left ← letterDegree p e1 n
    let right ← letterDegree p e2 j
    some (some (c, left, right))

def ademRelation (x e y : ℕ) : Option (List (ℕ × ℤ × ℤ)) := do
  let left ← letterDegree p 0 x
  let right ← letterDegree p e y
  let c ← negate p 1
  let terms ← (List.range (e + 1)).mapM fun e1 => (List.range (x / p.val + 1)).mapM fun j => ademTerm p x e y e1 j
  some ((c, left, right) :: terms.flatten.filterMap id)

end Operations

variable {p}

theorem q_eq (hp : p.val < 1073741824) : q p = some (step p : ℤ) := by
  have := p.two_le
  rw [q, step]
  split
  · simp only [Option.bind_eq_bind]
    rw [word?_of_nonneg (by omega) (by unfold maxSigned; omega), Option.bind_some, word?_of_nonneg (by omega) (by unfold maxSigned; omega)]
    exact congrArg some (by omega)
  · rfl

theorem wordsOf_eq {e n : ℕ} (he : e ≤ 1) (h : p.val * n + p.val + 1 ≤ maxWord) :
    wordsOf p e n = some ((List.range' 1 ((p.val * n + p.val + e) / (p.val + 1) - 1)).map fun x => (x, e, n - x)) := by
  have hword : p.val + 1 ≤ maxWord := by omega
  simp only [wordsOf, Option.bind_eq_bind]
  rw [fit_of_le (by omega), Option.bind_some, fit_of_le (by omega), Option.bind_some, fit_of_le (by omega), Option.bind_some, fit_of_le hword,
    Option.bind_some]
  refine Option.mapM_eq_some fun x hx => ?_
  have hle : x ≤ n := by
    have hupper := ((mem_words (p := p) (n := n) he rfl x e (n - x)).mp (List.mem_map_of_mem hx)).2.2.1
    omega
  rw [minus?_of_le hle, Option.bind_some]

theorem inadmissible_eq (hp : p.val < 1073741824) {d : ℕ} (hd : d ≤ maxSigned) (hlast : ¬(p.val = 2 ∧ d = maxSigned)) :
    ∃ words, p.inadmissible d = .ok words ∧ inadmissible p d = some words := by
  have hroom := listed_le_maxWord hp hd hlast
  have hd' : unsigned32 d = d := unsigned32_of_le (by unfold maxWord; unfold maxSigned at hd; omega)
  have hq : unsigned32 (step p : ℤ) = step p := Milnor.q_eq hp ▸ unsigned32_q hp
  simp only [inadmissible, Prime.inadmissible, Option.bind_eq_bind]
  rw [q_eq hp, Option.bind_some, unsigned32_q hp, hq, hd', mod?_of_pos (step_pos p), Option.bind_some]
  by_cases hzero : d % step p = 0
  · rw [if_pos hzero, if_pos hzero, wordsOf_eq zero_le_one hroom, decide_eq_true (by omega)]
    exact ⟨_, rfl, rfl⟩
  · rw [if_neg hzero, if_neg hzero]
    by_cases hone : p.isOdd ∧ d % step p = 1
    · rw [if_pos (by simpa using hone), if_pos hone, wordsOf_eq le_rfl hroom, decide_eq_true (by omega)]
      exact ⟨_, rfl, rfl⟩
    · rw [if_neg (by simpa using hone), if_neg hone]
      exact ⟨_, rfl, rfl⟩

theorem letterDegree_eq (hp : p.val < 1073741824) {e n : ℕ} (h : ((step p * n + e : ℕ) : ℤ) ≤ maxSigned) :
    letterDegree p e n = some (letter p e n).degree := by
  have hn := Nat.le_mul_of_pos_left n (step_pos p)
  have hcast : (step p : ℤ) * n = (step p * n : ℕ) := by push_cast; rfl
  simp only [letterDegree, Option.bind_eq_bind]
  rw [q_eq hp, Option.bind_some, word?_of_nonneg (by omega) (by omega), Option.bind_some, hcast, word?_of_nonneg (by omega) (by omega),
    Option.bind_some, word?_of_nonneg (by omega) (by omega), Option.bind_some, ← Nat.cast_add, word?_of_nonneg (by omega) h]
  rfl

section Relation

variable {x e y : ℕ} (hp : p.val < 1073741824) (he : p.Bockstein e) (hword : x < p.val * y + e)
  (hle : ((step p * (x + y) + e : ℕ) : ℤ) ≤ maxSigned)

include hp he hword hle

omit hp in
/-- The numbers that the relation for a word is formed from. -/
theorem bounds {j : ℕ} (hj : j ≤ x / p.val) :
    p.val * j ≤ x ∧ j ≤ y ∧ ((x + y + e : ℕ) : ℤ) ≤ maxSigned ∧ (((y - j) * (p.val - 1) + e : ℕ) : ℤ) ≤ maxSigned := by
  have hxj : p.val * j ≤ x := by
    rw [Nat.mul_comm]
    exact (Nat.le_div_iff_mul_le p.pos).mp hj
  have hjy : j ≤ y := by
    by_contra hlt
    have hmul := Nat.mul_le_mul_left p.val (Nat.succ_le_of_lt (not_le.mp hlt))
    have := p.two_le
    have := he.le_one
    rw [Nat.mul_succ] at hmul
    omega
  have hstep : p.val - 1 ≤ step p := by
    have := step_cases p
    omega
  have hsum := Nat.le_mul_of_pos_left (x + y) (step_pos p)
  have hupper : (y - j) * (p.val - 1) ≤ step p * (x + y) := by
    rw [Nat.mul_comm (step p)]
    exact Nat.mul_le_mul (by omega) hstep
  exact ⟨hxj, hjy, by omega, by omega⟩

/-- The upper and the lower number are at least -1, and no number on the way to them leaves the words. -/
theorem binomialArguments_eq {e1 j : ℕ} (he1 : e1 ≤ e) (hj : j ≤ x / p.val) :
    ∃ upper lower : ℤ, binomialArguments p x y j e1 (e - e1) = some (upper, lower) ∧ upper = (y - j) * (p.val - 1) + e1 - 1 ∧
      lower = x - p.val * j - (e - e1 : ℕ) ∧ -1 ≤ upper ∧ upper ≤ maxSigned ∧ -1 ≤ lower ∧ lower ≤ maxSigned := by
  obtain ⟨hxj, hjy, hsum, hproduct⟩ := bounds he hword hle hj
  have hone := he.le_one
  have htwo := p.two_le
  obtain ⟨m, rfl⟩ := Nat.exists_eq_add_of_le hjy
  obtain ⟨k, hk⟩ : ∃ k, p.val = k + 1 := ⟨p.val - 1, by omega⟩
  have hrest : ((j + m : ℕ) : ℤ) - j = m := by omega
  have hfactor : (p.val : ℤ) - 1 = k := by omega
  have hupper : (m : ℤ) * k = (m * k : ℕ) := by push_cast; rfl
  have hmultiple : (p.val : ℤ) * j = (p.val * j : ℕ) := by push_cast; rfl
  have hm : m ≤ m * k := Nat.le_mul_of_pos_right m (by omega)
  rw [Nat.add_sub_cancel_left, hk, Nat.add_sub_cancel] at hproduct
  have hnonneg : ∀ {n : ℤ}, -1 ≤ n → n ≤ maxSigned → word? n = some n := fun h h' =>
    if_pos (by simp only [isSigned, Bool.and_eq_true, decide_eq_true_eq]; omega)
  refine ⟨m * k + e1 - 1, x - p.val * j - (e - e1 : ℕ), ?_, by rw [hrest, hfactor], rfl, by omega, by omega, by omega, by omega⟩
  simp only [binomialArguments, Option.bind_eq_bind]
  rw [hnonneg (by omega) (by unfold maxSigned; omega), Option.bind_some, hnonneg (by omega) (by omega), Option.bind_some,
    hnonneg (by omega) (by omega), Option.bind_some, hnonneg (by omega) (by omega), Option.bind_some, hrest,
    hnonneg (by omega) (by omega), Option.bind_some, hfactor, hnonneg (by omega) (by unfold maxSigned; omega), Option.bind_some, hupper,
    hnonneg (by omega) (by omega), Option.bind_some, hnonneg (by omega) (by omega), Option.bind_some,
    hnonneg (by omega) (by omega), Option.bind_some, hmultiple, hnonneg (by omega) (by omega), Option.bind_some,
    hnonneg (by omega) (by omega), Option.bind_some, hnonneg (by omega) (by omega), Option.bind_some]

theorem ademCoefficient_eq {e1 j : ℕ} (he1 : e1 ≤ e) (hj : j ≤ x / p.val) :
    ademCoefficient p x y j e1 (e - e1) = some (p.ademCoefficient x y j e1 (e - e1)) := by
  obtain ⟨hxj, hjy, hsum, _⟩ := bounds he hword hle hj
  obtain ⟨upper, lower, harguments, hupper, hlower, hu, hu', hl, hl'⟩ := binomialArguments_eq hp he hword hle he1 hj
  have hsigned : ∀ {n : ℤ}, -1 ≤ n → n ≤ maxSigned → isSigned n = true := fun h h' => by
    simp only [isSigned, Bool.and_eq_true, decide_eq_true_eq]
    omega
  have hjx : j ≤ x := le_trans (Nat.le_mul_of_pos_left j p.pos) hxj
  have hvalue : p.ademCoefficient x y j e1 (e - e1) =
      if p.binomial upper lower = 0 then 0 else p.product (p.binomial upper lower) (p.sign (x + j + (e - e1 : ℕ))) := by
    simp only [Prime.ademCoefficient]
    rw [signed32_of_small (n := x) (by omega), signed32_of_small (n := y) (by omega), signed32_of_small (n := j) (by omega),
      signed32_of_small (n := e1) (by omega), signed32_of_small (n := e - e1) (by omega), signed_eq hp, hupper, hlower]
  simp only [ademCoefficient, Option.bind_eq_bind]
  rw [harguments, Option.bind_some, binomial_eq (hsigned hu hu') (hsigned hl hl'), Option.bind_some, hvalue]
  split
  · rfl
  · rw [word?_of_nonneg (by omega) (by omega), Option.bind_some, word?_of_nonneg (by omega) (by omega), Option.bind_some, sign_eq,
      Option.bind_some, product_eq (le_maxWord (binomial_lt _ _).le) (le_maxWord (p.sign_lt _).le)]

theorem ademTerm_eq {e1 j : ℕ} (he1 : e1 ≤ e) (hj : j ≤ x / p.val) : ademTerm p x e y e1 j =
    some (if p.ademCoefficient x y j e1 (e - e1) = 0 then none
      else some (p.ademCoefficient x y j e1 (e - e1), (letter p e1 (x + y - j)).degree, (letter p (e - e1) j).degree)) := by
  obtain ⟨hxj, hjy, hsum, _⟩ := bounds he hword hle hj
  have hdegree : ∀ {e' n : ℕ}, e' ≤ e → n ≤ x + y → letterDegree p e' n = some (letter p e' n).degree := fun he' hn => by
    have := Nat.mul_le_mul_left (step p) hn
    exact letterDegree_eq hp (by omega)
  simp only [ademTerm, Option.bind_eq_bind]
  rw [minus?_of_le he1, Option.bind_some, ademCoefficient_eq hp he hword hle he1 hj, Option.bind_some]
  split
  · rfl
  · rw [fit_of_le (by unfold maxSigned at hsum; unfold maxWord; omega), Option.bind_some, minus?_of_le (by omega), Option.bind_some,
      hdegree he1 (by omega), Option.bind_some, hdegree (by omega) (by omega), Option.bind_some]

theorem ademRelation_eq :
    ademRelation p x e y = some ((ademTerms p x e y).map fun t => (t.coefficient, t.left.degree, t.right.degree)) := by
  have hx := Nat.mul_le_mul_left (step p) (Nat.le_add_right x y)
  have hy := Nat.mul_le_mul_left (step p) (Nat.le_add_left y x)
  have hterms : ((List.range (e + 1)).mapM fun e1 => (List.range (x / p.val + 1)).mapM fun j => ademTerm p x e y e1 j) = some _ :=
    Option.mapM_eq_some fun e1 he1 => Option.mapM_eq_some fun j hj =>
      ademTerm_eq hp he hword hle (Nat.le_of_lt_succ (List.mem_range.mp he1)) (Nat.le_of_lt_succ (List.mem_range.mp hj))
  simp only [ademRelation, Option.bind_eq_bind]
  rw [letterDegree_eq hp (by omega), Option.bind_some, letterDegree_eq hp (by omega), Option.bind_some, negate_eq, Option.bind_some, hterms,
    Option.bind_some, filterMap_flatten_map, ademTerms, List.map_cons, List.map_flatMap]
  have hinner : ∀ e1, ((List.range (x / p.val + 1)).filterMap fun j =>
      if p.ademCoefficient x y j e1 (e - e1) = 0 then none
      else some (⟨p.ademCoefficient x y j e1 (e - e1), letter p e1 (x + y - j), letter p (e - e1) j⟩ : Term)).map
        (fun t => (t.coefficient, t.left.degree, t.right.degree)) =
      (List.range (x / p.val + 1)).filterMap fun j => if p.ademCoefficient x y j e1 (e - e1) = 0 then none
        else some (p.ademCoefficient x y j e1 (e - e1), (letter p e1 (x + y - j)).degree, (letter p (e - e1) j).degree) := fun e1 => by
    rw [List.map_filterMap]
    refine List.filterMap_congr fun j _ => ?_
    rw [apply_ite (Option.map _), Option.map_none, Option.map_some]
  simp only [hinner]

end Relation

/-- At the prime 2 the bound of the list overflows in the last degree. -/
theorem inadmissible_last (hp : p.val = 2) : p.inadmissible maxSigned = breach ∧ inadmissible p maxSigned = none := by
  have hodd : p.isOdd = false := by simp [Prime.isOdd, hp]
  have hstep : step p = 1 := by rw [step, hodd]; rfl
  have hdegree : unsigned32 maxSigned = 2147483647 := by decide
  have hone : unsigned32 (1 : ℤ) = 1 := by decide
  have hq : unsigned32 p.q = 1 := by rw [unsigned32_q (by omega), hstep]
  have hword : ¬2 * 2147483647 + 2 ≤ maxWord := by decide
  constructor
  · rw [Prime.inadmissible, hdegree, hq, if_pos (Nat.mod_one _), Nat.div_one, hp, decide_eq_false hword]
    rfl
  · simp only [inadmissible, Option.bind_eq_bind]
    rw [q_eq (by omega), hstep, Option.bind_some, Nat.cast_one, hone, hdegree, mod?_of_pos one_pos, Option.bind_some, if_pos (Nat.mod_one _),
      Nat.div_one, wordsOf, hp, fit_of_le (by decide)]
    simp only [Option.bind_eq_bind, Option.bind_some]
    rw [fit, if_neg hword]
    rfl

end Prime.Checked

namespace Prime

open Milnor

variable {p : Prime} {d : ℕ}

/-- The words that are not admissible in a degree, each once, by increasing `x`. -/
structure Lists (p : Prime) (d : ℕ) (words : List (ℕ × ℕ × ℕ)) : Prop where
  increasing : words.Pairwise fun v w => v.1 < w.1
  mem_iff : ∀ x e y, (x, e, y) ∈ words ↔ 0 < x ∧ p.Bockstein e ∧ step p * (x + y) + e = d ∧ x < p.val * y + e

/-- The numbers that are formed from a word for its relation: the arguments of the binomial coefficients, the coefficients and the degrees
are found in machine words, and the operations in every algebra that is computed so far. -/
structure Forms (p : Prime) (d x e y : ℕ) : Prop where
  arguments : ∀ e1 ≤ e, ∀ j ≤ x / p.val, ∃ upper lower : ℤ, Checked.binomialArguments p x y j e1 (e - e1) = some (upper, lower) ∧
    upper = (y - j) * (p.val - 1) + e1 - 1 ∧ lower = x - p.val * j - (e - e1 : ℕ) ∧ -1 ≤ upper ∧ upper ≤ maxSigned ∧ -1 ≤ lower ∧ lower ≤ maxSigned
  arithmetic : Checked.ademRelation p x e y = some ((ademTerms p x e y).map fun t => (t.coefficient, t.left.degree, t.right.degree))
  liesIn : ∀ t ∈ ademTerms p x e y, t.LiesIn p d
  found : ∀ A : Algebra, A.prime = p → d < A.computed → A.ademRelation x e y = .ok (ademTerms p x e y)

theorem forms (hp : p.val < 1073741824) (hd : d ≤ maxSigned) {x e y : ℕ} (he : p.Bockstein e) (hdegree : step p * (x + y) + e = d)
    (hword : x < p.val * y + e) : Forms p d x e y := by
  subst hdegree
  refine ⟨fun e1 he1 j hj => Checked.binomialArguments_eq hp he hword hd he1 hj, Checked.ademRelation_eq hp he hword hd,
    fun t ht => liesIn_of_mem_ademTerms hp he ht, ?_⟩
  rintro A rfl hlt
  exact Algebra.ademRelation_eq hp he hlt

theorem run_relations_last {A : Algebra} (hp : A.prime.val = 2) : ((Growing.relations maxSigned).run A).1 = breach := by
  have hodd : A.prime.isOdd = false := by simp [Prime.isOdd, hp]
  rw [Growing.relations, Growing.run_bind, Growing.run_get]
  simp only
  rw [if_neg (by simp [hodd]), Growing.run_bind, Growing.run_compute_of_le (by omega) le_rfl]
  simp only [Growing.run_read]
  rw [(Checked.inadmissible_last hp).1]
  rfl

/-- The words that are not admissible are listed in every degree, and nothing that is formed from them leaves the words, with one exception:
at the prime 2 the bound of the list overflows in the last degree, although the product of the prime and the degree is a word. -/
theorem inadmissible_lists (hp : p.val < 2 ^ 30) (hd : d ≤ maxSigned) :
    p.val * d / step p ≤ maxWord ∧
    (¬(p.val = 2 ∧ d = maxSigned) → ∃ words, p.inadmissible d = .ok words ∧ Checked.inadmissible p d = some words ∧ Lists p d words ∧
      (∀ x e y, (x, e, y) ∈ words → Forms p d x e y) ∧
      ∀ A : Algebra, A.prime = p → ∃ rels A', (Growing.relations d).run A = (.ok rels, A') ∧ ∀ rel ∈ rels, ∀ t ∈ rel, t.LiesIn p d) ∧
    (p.val = 2 ∧ d = maxSigned → p.inadmissible d = breach ∧ Checked.inadmissible p d = none ∧
      ∀ A : Algebra, A.prime = p → ((Growing.relations d).run A).1 = breach) := by
  refine ⟨?_, fun hlast => ?_, ?_⟩
  · have hstep : p.val ≤ 2 * step p := by
      have := step_cases p
      omega
    have hmul : p.val * d ≤ step p * (2 * d) := by
      rw [Nat.mul_left_comm]
      exact (Nat.mul_le_mul_right d hstep).trans_eq (Nat.mul_assoc _ _ _)
    have hquotient := Nat.div_le_of_le_mul hmul
    unfold maxSigned at hd
    unfold maxWord
    omega
  · obtain ⟨words, hwords, hsorted, hmem⟩ := Milnor.inadmissible_eq hp hd hlast
    obtain ⟨words', hwords', hchecked⟩ := Checked.inadmissible_eq hp hd hlast
    obtain rfl : words = words' := Except.ok.inj (hwords.symm.trans hwords')
    refine ⟨words, hwords, hchecked, ⟨hsorted, hmem⟩, fun x e y h => ?_, ?_⟩
    · obtain ⟨_, he, hdegree, hword⟩ := (hmem x e y).mp h
      exact forms hp hd he hdegree hword
    · rintro A rfl
      obtain ⟨rels, A', hrun, _, hrels⟩ := Growing.run_relations_of_le hp (Int.natCast_nonneg d) hd hlast
      refine ⟨rels, A', hrun, fun rel hrel t ht => ?_⟩
      rcases hrels with ⟨hodd, htwo, rfl⟩ | ⟨_, hrels⟩
      · have hletter := isBasis_letter (p := A.prime) (e := 1) (n := 0) (.inr ⟨hodd, rfl⟩) hp
        obtain rfl := List.mem_singleton.mp hrel
        obtain rfl := List.mem_singleton.mp ht
        exact ⟨hletter, hletter, by simp [letter, htwo]⟩
      · obtain ⟨x, e, y, rfl, _, he, hdegree, _⟩ := (hrels rel).mp hrel
        have hlies := liesIn_of_mem_ademTerms hp he ht
        rwa [hdegree, Int.toNat_natCast] at hlies
  · rintro ⟨htwo, hdegree⟩
    rw [hdegree]
    obtain ⟨hbreach, hnone⟩ := Checked.inadmissible_last htwo
    refine ⟨hbreach, hnone, ?_⟩
    rintro A rfl
    exact run_relations_last htwo

/-- The words of degree 9 at the prime 3. -/
theorem inadmissible_lists_nine : Prime.three.val < 2 ^ 30 ∧ ((9 : ℕ) : ℤ) ≤ maxSigned ∧ ∃ words, Prime.three.inadmissible 9 = .ok words ∧
    Lists Prime.three 9 words ∧ (1, 1, 1) ∈ words ∧ Forms Prime.three 9 1 1 1 := by
  have hp : Prime.three.val < 2 ^ 30 := by decide
  have hd : ((9 : ℕ) : ℤ) ≤ maxSigned := by decide
  obtain ⟨words, hwords, _, hlists, hforms, _⟩ := (inadmissible_lists hp hd).2.1 (by decide)
  have hmem : (1, 1, 1) ∈ words := (hlists.mem_iff 1 1 1).mpr ⟨by decide, .inr ⟨by decide, rfl⟩, by decide, by decide⟩
  exact ⟨hp, hd, words, hwords, hlists, hmem, hforms 1 1 1 hmem⟩

/-- The last degree at the prime 2, where `P^1 P^2147483646` is not admissible. -/
theorem inadmissible_overflows : Prime.two.val * 2147483647 / step Prime.two ≤ maxWord ∧ Prime.two.inadmissible 2147483647 = breach ∧
    step Prime.two * (1 + 2147483646) + 0 = 2147483647 ∧ 1 < Prime.two.val * 2147483646 + 0 :=
  ⟨by decide, (Checked.inadmissible_last (p := Prime.two) rfl).1, by decide, by decide⟩

end Prime
end Steenrod
