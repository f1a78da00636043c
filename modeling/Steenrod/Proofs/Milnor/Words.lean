import Steenrod.Proofs.Milnor.Decomposition
/-!
Words in `b` and the powers `P(n)`, in a ring where every operation stands for an element such that the decompositions and
the relations between generators hold. Main statement: every word is a combination of admissible words of its degree,
because a word that is not admissible is a combination of words whose letters stand further to the left.
-/
namespace Steenrod
namespace Milnor

/-- The relations between the generators, by their degrees. -/
inductive IsRelation (p : Prime) : ℤ → List Term → Prop
  | bockstein (hodd : p.isOdd) : IsRelation p 2 [⟨1, letter p 1 0, letter p 1 0⟩]
  | adem {x e y : ℕ} (hx : 0 < x) (he : p.Bockstein e) (hlt : x < p.val * y + e) :
    IsRelation p (step p * (x + y) + e : ℕ) (ademTerms p x e y)

variable {p : Prime}

theorem IsRelation.liesIn (hp : p.val < 1073741824) {d : ℤ} {rel : List Term} (h : IsRelation p d rel) :
    ∀ t ∈ rel, t.LiesIn p d := by
  intro t hmem
  cases h with
  | bockstein hodd =>
    obtain rfl := List.mem_singleton.mp hmem
    have hbasis := isBasis_letter (p := p) (e := 1) (n := 0) (.inr ⟨hodd, rfl⟩) hp
    exact ⟨hbasis, hbasis, by simp [letter]⟩
  | adem hx he hlt => exact liesIn_of_mem_ademTerms hp he hmem

theorem IsRelation.pos {d : ℤ} {rel : List Term} (h : IsRelation p d rel) : 0 < d := by
  cases h with
  | bockstein => decide
  | @adem x e y hx _ _ =>
    have := Nat.mul_pos (step_pos p) (Nat.add_pos_left hx y)
    omega

/-- The first factors in a relation have positive degree. -/
theorem IsRelation.left_pos {d : ℤ} {rel : List Term} (h : IsRelation p d rel) : ∀ t ∈ rel, 0 < t.left.degree := by
  intro t hmem
  cases h with
  | bockstein hodd =>
    obtain rfl := List.mem_singleton.mp hmem
    simp [letter]
  | @adem x e y hx he hlt =>
    have hpos : ∀ {e' n : ℕ}, 0 < n → 0 < (letter p e' n).degree := by
      intro e' n hn
      have := Nat.mul_pos (step_pos p) hn
      simp only [letter]
      omega
    rcases List.mem_cons.mp hmem with rfl | hmem
    · exact hpos hx
    · obtain ⟨e1, _, hmem⟩ := List.mem_flatMap.mp hmem
      obtain ⟨j, hj, hmem⟩ := List.mem_filterMap.mp hmem
      split at hmem
      · cases hmem
      · obtain rfl := Option.some.inj hmem
        have hj := Nat.le_of_lt_succ (List.mem_range.mp hj)
        have := Nat.div_lt_self hx p.two_le
        exact hpos (by omega)

variable {bound : ℕ} {E E' : Type} [Ring E] [Ring E']

section Checked

variable [Module p.Field E] [Module p.Field E']

/-- What is asked of elements of a ring that stand for operations of degree less than `bound`: the unit is the unit, every
other element that is not a generator is what its decomposition says, and the relations between generators hold. -/
structure Checked (p : Prime) (bound : ℕ) {E : Type} [Ring E] [Module p.Field E] (x : Operation → E) : Prop where
  one : x ⟨0, 0⟩ = 1
  decomposed : ∀ a, a.IsBasis p → 0 < a.degree → a.degree < (bound : ℤ) → ¬IsGenerator p a →
    termSum (p := p) x (decomposition p a) = x a
  relation : ∀ d rel, IsRelation p d rel → d < (bound : ℤ) → termSum (p := p) x rel = 0

theorem Checked.adem {x : Operation → E} (h : Checked p bound x) {m e n : ℕ} (hm : 0 < m) (he : p.Bockstein e)
    (hlt : m < p.val * n + e) (hbound : step p * (m + n) + e < bound) : termSum (p := p) x (ademTerms p m e n) = 0 :=
  h.relation _ _ (.adem hm he hlt) (by exact_mod_cast hbound)

theorem Checked.bockstein {x : Operation → E} (h : Checked p bound x) (hodd : p.isOdd) (hbound : 2 < bound) :
    x (letter p 1 0) * x (letter p 1 0) = 0 := by
  have hrelation := h.relation 2 _ (.bockstein hodd) (by exact_mod_cast hbound)
  rwa [termSum_cons, termSum_nil, Nat.cast_one, one_smul, add_zero] at hrelation

theorem termSum_prod (x : Operation → E) (x' : Operation → E') (terms : List Term) :
    termSum (p := p) (fun a => (x a, x' a)) terms = (termSum (p := p) x terms, termSum (p := p) x' terms) := by
  induction terms with
  | nil => rfl
  | cons t terms ih =>
    rw [termSum_cons, termSum_cons, termSum_cons, ih]
    rfl

theorem Checked.prod {x : Operation → E} {x' : Operation → E'} (h : Checked p bound x) (h' : Checked p bound x') :
    Checked p bound fun a => (x a, x' a) where
  one := by rw [h.one, h'.one, Prod.mk_one_one]
  decomposed a ha hpos hlt hgen := by
    rw [termSum_prod, h.decomposed a ha hpos hlt hgen, h'.decomposed a ha hpos hlt hgen]
  relation d rel hrel hlt := by rw [termSum_prod, h.relation d rel hrel hlt, h'.relation d rel hrel hlt, Prod.mk_zero_zero]

/-- Operators that multiply as the elements of the algebra do pass. -/
theorem Operators.checked [SMulCommClass p.Field E E] (O : Operators p bound E)
    (hp : p.val < 1073741824) (hbound : bound ≤ trackedBelow) : Checked p bound O.operator where
  one := O.operator_one
  decomposed a ha hpos hlt _ := (decomposes_decomposition hp ha hpos (by omega)).holds O hbound hlt
  relation d rel hrel hlt := by
    cases hrel with
    | adem hx he hxy => exact O.termSum_ademTerms_eq_zero hp he hx hxy (by omega) (by omega)
    | bockstein hodd =>
      have htau : tauDegree p 0 = 1 := by simp [tauDegree]
      rw [termSum_cons, termSum_nil, O.operator_letter (.inr ⟨hodd, rfl⟩) hp, bocksteinPower, single_zero, pow_one, mul_one,
        O.exterior_mul_self hodd (by omega), smul_zero, add_zero]

end Checked

/-- A word `b^e P(n) b^e' P(n') …`, by the exponents of its letters. -/
abbrev Word : Type := List (ℕ × ℕ)

/-- The value of `b^e P(n)`. -/
def letterValue (p : Prime) (x : Operation → E) (l : ℕ × ℕ) : E := x (letter p 1 0) ^ l.1 * x (letter p 0 l.2)

def wordValue (p : Prime) (x : Operation → E) (w : Word) : E := (w.map (letterValue p x)).prod

def letterDegree (p : Prime) (l : ℕ × ℕ) : ℕ := step p * l.2 + l.1

def wordDegree (p : Prime) (w : Word) : ℕ := (w.map (letterDegree p)).sum

/-- The exponents of `b` are those that it takes. -/
def IsWord (p : Prime) (w : Word) : Prop := ∀ l ∈ w, p.Bockstein l.1

/-- No relation applies to neighbouring letters. -/
def Admissible (p : Prime) (w : Word) : Prop := w.IsChain fun l l' => p.val * l'.2 + l'.1 ≤ l.2

def letterMass (l : ℕ × ℕ) : ℕ := 2 * l.2 + l.1

def mass (w : Word) : ℕ := (w.map letterMass).sum

/-- How far to the right the letters of a word stand. -/
def moment : Word → ℕ
  | [] => 0
  | _ :: w => moment w + mass w

section Lists

variable (x : Operation → E)

@[simp] theorem wordValue_nil : wordValue p x [] = 1 := rfl

@[simp] theorem wordValue_cons (l : ℕ × ℕ) (w : Word) : wordValue p x (l :: w) = letterValue p x l * wordValue p x w := by
  simp [wordValue]

theorem letterValue_add (e e' n : ℕ) : letterValue p x (e + e', n) = x (letter p 1 0) ^ e * letterValue p x (e', n) := by
  rw [letterValue, letterValue, pow_add, mul_assoc]

theorem wordValue_append (v w : Word) : wordValue p x (v ++ w) = wordValue p x v * wordValue p x w := by simp [wordValue]

@[simp] theorem wordDegree_nil : wordDegree p [] = 0 := rfl

@[simp] theorem wordDegree_cons (l : ℕ × ℕ) (w : Word) : wordDegree p (l :: w) = letterDegree p l + wordDegree p w := by
  simp [wordDegree]

theorem wordDegree_append (v w : Word) : wordDegree p (v ++ w) = wordDegree p v + wordDegree p w := by simp [wordDegree]

@[simp] theorem mass_cons (l : ℕ × ℕ) (w : Word) : mass (l :: w) = letterMass l + mass w := by simp [mass]

/-- A word is further to the left if two of its letters are replaced by such with less in the right one. -/
theorem moment_lt (v w : Word) {l l' m m' : ℕ × ℕ} (hmass : letterMass m + letterMass m' = letterMass l + letterMass l')
    (hlt : letterMass m' < letterMass l') : moment (v ++ m :: m' :: w) < moment (v ++ l :: l' :: w) := by
  have happend : ∀ l l' : ℕ × ℕ, mass (v ++ l :: l' :: w) = mass v + (letterMass l + letterMass l') + mass w := by
    intro l l'
    simp [mass]
    omega
  induction v with
  | nil =>
    simp only [List.nil_append, moment, mass_cons]
    omega
  | cons k v ih =>
    have happend : ∀ l l' : ℕ × ℕ, mass (v ++ l :: l' :: w) = mass v + (letterMass l + letterMass l') + mass w := by
      intro l l'
      simp [mass]
      omega
    simp only [List.cons_append, moment, happend]
    have := ih happend
    omega

theorem exists_split_of_not_isChain {α : Type} {R : α → α → Prop} {l : List α} (h : ¬l.IsChain R) :
    ∃ v a b w, l = v ++ a :: b :: w ∧ ¬R a b := by
  induction l with
  | nil => exact absurd .nil h
  | cons a l ih =>
    cases l with
    | nil => exact absurd (.singleton a) h
    | cons b l =>
      rw [List.isChain_cons_cons, not_and_or] at h
      rcases h with h | h
      · exact ⟨[], a, b, l, rfl, h⟩
      · obtain ⟨v, c, d, w, heq, hcd⟩ := ih h
        exact ⟨a :: v, c, d, w, by rw [heq, List.cons_append], hcd⟩

end Lists

section Rewriting

variable [Module p.Field E] {x : Operation → E}

/-- A letter stands for `b^e P(n)`. -/
theorem Checked.letterValue_eq (h : Checked p bound x) (hp : p.val < 1073741824) (hbound : bound ≤ trackedBelow) {e n : ℕ}
    (he : p.Bockstein e) (hlt : step p * n + e < bound) : letterValue p x (e, n) = x (letter p e n) := by
  have hone : x (letter p 0 0) = 1 := by
    rw [letter_zero p.bockstein_zero hp]
    exact h.one
  rcases he with rfl | ⟨hodd, rfl⟩
  · rw [letterValue, pow_zero, one_mul]
  · rw [letterValue, pow_one]
    rcases Nat.eq_zero_or_pos n with rfl | hn
    · rw [hone, mul_one, letter_zero (.inr ⟨hodd, rfl⟩) hp]
    · have hbasis := isBasis_letter (p := p) (e := 1) (n := n) (.inr ⟨hodd, rfl⟩) hp
      have hgen : ¬IsGenerator p (letter p 1 n) := by
        rintro (⟨_, heq⟩ | ⟨v, heq⟩)
        · have hdegree : step p * n + 1 = step p * 0 + 1 := Int.ofNat_inj.mp (congrArg Operation.degree heq)
          have := Nat.mul_pos (step_pos p) hn
          omega
        · have hdegree : step p * n + 1 = step p * p.val ^ v + 0 := Int.ofNat_inj.mp (congrArg Operation.degree heq)
          have hleft := (step_mul_add_eq_iff (p := p) (.inr ⟨hodd, rfl⟩)).mp hdegree
          have hright := (step_mul_add_eq_iff (p := p) (n := p.val ^ v) p.bockstein_zero).mp rfl
          omega
      have hdecomposed := h.decomposed _ hbasis (by simp only [letter]; omega) (by simp only [letter]; omega) hgen
      rw [decomposition_letter hp hodd hn (by omega), termSum_cons, termSum_nil, Nat.cast_one, one_smul, add_zero] at hdecomposed
      exact hdecomposed

/-- Too many factors `b` give zero. -/
theorem Checked.letterValue_eq_zero (h : Checked p bound x) {e e' n : ℕ} (he : p.Bockstein e) (he' : p.Bockstein e')
    (hlt : e + e' < bound) (hnot : ¬p.Bockstein (e + e')) : letterValue p x (e + e', n) = 0 := by
  rcases he with rfl | ⟨hodd, rfl⟩
  · exact absurd (by rwa [Nat.zero_add]) hnot
  · rcases he' with rfl | ⟨_, rfl⟩
    · exact absurd (.inr ⟨hodd, rfl⟩) hnot
    · rw [letterValue, pow_two, h.bockstein hodd hlt, zero_mul]

/-- The values of pairs of letters of the same degree and mass as `l l'`, with less of it in the right one. -/
def Lower (p : Prime) (x : Operation → E) (l l' : ℕ × ℕ) : Set E :=
  {v | ∃ m m', p.Bockstein m.1 ∧ p.Bockstein m'.1 ∧ letterDegree p m + letterDegree p m' = letterDegree p l + letterDegree p l' ∧
    letterMass m + letterMass m' = letterMass l + letterMass l' ∧ letterMass m' < letterMass l' ∧
    v = letterValue p x m * letterValue p x m'}

variable [SMulCommClass p.Field E E]

/-- A relation moves letters to the left. -/
theorem Checked.letters_mem (h : Checked p bound x) (hp : p.val < 1073741824) (hbound : bound ≤ trackedBelow) {l l' : ℕ × ℕ}
    (hl : p.Bockstein l.1) (hl' : p.Bockstein l'.1) (hlt : letterDegree p l + letterDegree p l' < bound)
    (hnot : l.2 < p.val * l'.2 + l'.1) :
    letterValue p x l * letterValue p x l' ∈ Submodule.span p.Field (Lower p x l l') := by
  obtain ⟨e, m⟩ := l
  obtain ⟨e', n⟩ := l'
  simp only [letterDegree] at hl hl' hlt hnot
  have hstep := step_pos p
  have hmul : step p * m + step p * n = step p * (m + n) := (Nat.mul_add _ _ _).symm
  -- Letters `b^(e + e₁) P(m + n - j)` and `b^(e' - e₁) P(j)` are of the kind that is wanted, or their product is zero.
  have hpair : ∀ e₁ ≤ e', ∀ j ≤ m + n, 2 * j + (e' - e₁) < 2 * n + e' →
      letterValue p x (e + e₁, m + n - j) * letterValue p x (e' - e₁, j) ∈
        Submodule.span p.Field (Lower p x (e, m) (e', n)) := by
    intro e₁ he₁ j hj hless
    obtain ⟨hleft, hright⟩ := hl'.split he₁
    by_cases hsum : p.Bockstein (e + e₁)
    · refine Submodule.subset_span ⟨(e + e₁, m + n - j), (e' - e₁, j), hsum, hright, ?_, ?_, hless, rfl⟩
      · obtain ⟨k, hk⟩ := Nat.exists_eq_add_of_le hj
        simp only [letterDegree, hk, Nat.add_sub_cancel_left]
        rw [hk, Nat.mul_add] at hmul
        omega
      · simp only [letterMass]
        omega
    · rw [h.letterValue_eq_zero hl hleft (by omega) hsum, zero_mul]
      exact Submodule.zero_mem _
  rcases Nat.eq_zero_or_pos m with rfl | hm
  · have hone : letterValue p x (0, 0) = 1 := by
      rw [h.letterValue_eq hp hbound p.bockstein_zero (by omega), letter_zero p.bockstein_zero hp]
      exact h.one
    have hleft : letterValue p x (e, 0) * letterValue p x (e', n) = letterValue p x (e + e', 0 + n - 0) * letterValue p x (e' - e', 0) := by
      rw [Nat.sub_self, hone, mul_one, Nat.zero_add, Nat.sub_zero, letterValue_add, ← Nat.add_zero e, letterValue_add, hone, mul_one,
        Nat.add_zero]
    rw [hleft]
    refine hpair e' le_rfl 0 (Nat.zero_le _) ?_
    rcases Nat.eq_zero_or_pos n with rfl | hn <;> omega
  · have hrelation := h.adem hm hl' hnot (by omega)
    rw [termSum_ademTerms, neg_add_eq_zero] at hrelation
    have hword : ∀ {e₁ k : ℕ}, p.Bockstein e₁ → k ≤ m + n → e₁ ≤ e' → letterValue p x (e₁, k) = x (letter p e₁ k) := by
      intro e₁ k he₁ hk hle
      have := Nat.mul_le_mul_left (step p) hk
      exact h.letterValue_eq hp hbound he₁ (by omega)
    have hleft : letterValue p x (e, m) * letterValue p x (e', n) =
        x (letter p 1 0) ^ e * (x (letter p 0 m) * x (letter p e' n)) := by
      rw [← hword p.bockstein_zero (by omega) (Nat.zero_le _), ← hword hl' (by omega) le_rfl, ← mul_assoc, ← letterValue_add,
        Nat.add_zero]
    rw [hleft, hrelation, Finset.mul_sum]
    refine Submodule.sum_mem _ fun e₁ he₁ => ?_
    rw [Finset.mul_sum]
    refine Submodule.sum_mem _ fun j hj => ?_
    have he₁ := Nat.le_of_lt_succ (Finset.mem_range.mp he₁)
    have hj := (Nat.le_div_iff_mul_le p.pos).mp (Nat.le_of_lt_succ (Finset.mem_range.mp hj))
    have hjm := Nat.le_mul_of_pos_right j p.pos
    obtain ⟨hfirst, hsecond⟩ := hl'.split he₁
    rw [mul_smul_comm, ← mul_assoc, ← hword hfirst (Nat.sub_le _ _) he₁, ← letterValue_add,
      ← hword hsecond (by omega) (Nat.sub_le _ _)]
    by_cases hless : 2 * j + (e' - e₁) < 2 * n + e'
    · exact Submodule.smul_mem _ _ (hpair e₁ he₁ j (by omega) hless)
    · -- Nothing would move, but the coefficient vanishes.
      have hone := hl'.le_one
      rw [Nat.mul_comm] at hj
      have hle : j ≤ n := by
        by_contra hgt
        have := Nat.mul_le_mul_left p.val (Nat.lt_of_not_le hgt)
        have := p.two_le
        rw [Nat.mul_succ] at *
        omega
      obtain ⟨rfl, rfl, rfl⟩ : j = n ∧ e₁ = 0 ∧ e' = 1 := by
        rcases Nat.eq_or_lt_of_le hle with rfl | hlt <;> omega
      have htracked : (trackedBelow : ℤ) ≤ maxSigned := by decide
      have hroom := Nat.le_mul_of_pos_left (m + j) hstep
      rw [Nat.sub_zero, Prime.cast_ademCoefficient_right hp (by omega) (by omega) hj le_rfl,
        if_neg fun hlt => absurd hlt.1 (lt_irrefl _), zero_smul]
      exact Submodule.zero_mem _

/-- The values of the admissible words of a degree. -/
def AdmissibleValues (p : Prime) (x : Operation → E) (d : ℕ) : Set E :=
  {v | ∃ w, IsWord p w ∧ Admissible p w ∧ wordDegree p w = d ∧ wordValue p x w = v}

/-- Every word is a combination of admissible ones. -/
theorem Checked.wordValue_mem (h : Checked p bound x) (hp : p.val < 1073741824) (hbound : bound ≤ trackedBelow) {w : Word}
    (hw : IsWord p w) (hlt : wordDegree p w < bound) :
    wordValue p x w ∈ Submodule.span p.Field (AdmissibleValues p x (wordDegree p w)) := by
  -- The induction is on how far to the right the letters stand.
  induction hn : moment w using Nat.strong_induction_on generalizing w with
  | _ n ih =>
    subst hn
    by_cases hadmissible : Admissible p w
    · exact Submodule.subset_span ⟨w, hw, hadmissible, rfl, rfl⟩
    · obtain ⟨v, l, l', u, rfl, hnot⟩ := exists_split_of_not_isChain hadmissible
      have hdegree : ∀ m m' : ℕ × ℕ, wordDegree p (v ++ m :: m' :: u) =
          wordDegree p v + (letterDegree p m + letterDegree p m') + wordDegree p u := by
        intro m m'
        rw [wordDegree_append, wordDegree_cons, wordDegree_cons, Nat.add_assoc, Nat.add_assoc]
      have hvalue : ∀ m m' : ℕ × ℕ, wordValue p x (v ++ m :: m' :: u) =
          wordValue p x v * (letterValue p x m * letterValue p x m') * wordValue p x u := by
        intro m m'
        rw [wordValue_append, wordValue_cons, wordValue_cons, mul_assoc, mul_assoc]
      have hpair := h.letters_mem hp hbound (hw l (by simp)) (hw l' (by simp)) (by rw [hdegree] at hlt; omega) (not_le.mp hnot)
      rw [hvalue]
      generalize letterValue p x l * letterValue p x l' = y at hpair ⊢
      induction hpair using Submodule.span_induction with
      | mem y hy =>
        obtain ⟨m, m', hm, hm', hsame, hmass, hless, rfl⟩ := hy
        have hword : IsWord p (v ++ m :: m' :: u) := by
          intro k hk
          have hk : k ∈ v ∨ k = m ∨ k = m' ∨ k ∈ u := by simpa using hk
          rcases hk with hk | rfl | rfl | hk
          · exact hw k (by simp [hk])
          · exact hm
          · exact hm'
          · exact hw k (by simp [hk])
        have hsum : wordDegree p (v ++ m :: m' :: u) = wordDegree p (v ++ l :: l' :: u) := by rw [hdegree, hdegree, hsame]
        have hmem := ih _ (moment_lt v u hmass hless) hword (hsum ▸ hlt) rfl
        rwa [hvalue, hsum] at hmem
      | zero =>
        rw [mul_zero, zero_mul]
        exact Submodule.zero_mem _
      | add y z _ _ hy hz =>
        rw [mul_add, add_mul]
        exact Submodule.add_mem _ hy hz
      | smul c y _ hy =>
        rw [mul_smul_comm, smul_mul_assoc]
        exact Submodule.smul_mem _ c hy

end Rewriting

end Milnor
end Steenrod
