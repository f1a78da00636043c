import Steenrod.Proofs.Milnor.Leading
import Steenrod.Proofs.Milnor.Words
/-!
Admissible words and the basis elements `Q(E) P(R)`. The exponents of an admissible word exceed what its next letter asks for; the
exponents `e` and these excesses `r` make up a basis element of the same degree. Main statement: the admissible words of a degree span
no more than the basis elements of that degree do.
-/
namespace Steenrod
namespace Milnor

variable {p : Prime}

/-- What a word asks of the letter to its left. -/
def required (p : Prime) : Word → ℕ
  | [] => 0
  | l :: _ => p.val * l.2 + l.1

/-- The word in which letters exceed what is asked of them as given. -/
def spell (p : Prime) : Word → Word
  | [] => []
  | (e, r) :: l => (e, r + required p (spell p l)) :: spell p l

/-- The exponents of `b`, as bits. -/
def maskOf : Word → ℕ
  | [] => 0
  | (e, _) :: l => e + 2 * maskOf l

theorem isWord_cons {l : ℕ × ℕ} {w : Word} : IsWord p (l :: w) ↔ p.Bockstein l.1 ∧ IsWord p w := List.forall_mem_cons

theorem admissible_cons {l : ℕ × ℕ} {w : Word} : Admissible p (l :: w) ↔ required p w ≤ l.2 ∧ Admissible p w := by
  cases w with
  | nil => simp [Admissible, required]
  | cons l' w => exact List.isChain_cons_cons

/-- Every admissible word is determined by its excesses. -/
theorem Admissible.exists_spell {w : Word} (hw : Admissible p w) (hword : IsWord p w) : ∃ l, IsWord p l ∧ spell p l = w := by
  induction w with
  | nil => exact ⟨[], hword, rfl⟩
  | cons m w ih =>
    obtain ⟨hle, hw⟩ := admissible_cons.mp hw
    obtain ⟨hm, hword⟩ := isWord_cons.mp hword
    obtain ⟨l, hl, rfl⟩ := ih hw hword
    refine ⟨(m.1, m.2 - required p (spell p l)) :: l, isWord_cons.mpr ⟨hm, hl⟩, ?_⟩
    rw [spell, Nat.sub_add_cancel hle]

theorem maskOf_eq_zero {l : Word} (hl : IsWord p l) (heven : p.isOdd = false) : maskOf l = 0 := by
  induction l with
  | nil => rfl
  | cons m l ih =>
    obtain ⟨hm, hl⟩ := isWord_cons.mp hl
    rcases hm with hm | ⟨hodd, _⟩
    · rw [maskOf, hm, ih hl]
    · rw [heven] at hodd
      cases hodd

/-- The degree bounds the bits. -/
theorem maskOf_le (l : Word) : maskOf l ≤ required p (spell p l) ∧ maskOf l ≤ wordDegree p (spell p l) := by
  induction l with
  | nil => exact ⟨le_rfl, le_rfl⟩
  | cons m l ih =>
    obtain ⟨e, r⟩ := m
    obtain ⟨hrequired, hdegree⟩ := ih
    have htwo := Nat.mul_le_mul p.two_le (Nat.le_add_left (required p (spell p l)) r)
    have hone := Nat.le_mul_of_pos_left (r + required p (spell p l)) (step_pos p)
    rw [maskOf, spell, required, wordDegree_cons, letterDegree]
    simp only
    omega

theorem sum_members_double (f : ℕ → ℕ) {e mask : ℕ} (he : e ≤ 1) (hmask : mask < 2 ^ 31) :
    ((members (e + 2 * mask)).map f).sum = e * f 0 + ((members mask).map fun k => f (k + 1)).sum := by
  have hlast : mask.testBit 31 = false := Nat.testBit_lt_two_pow hmask
  have hhalf : (e + 2 * mask) / 2 = mask := by omega
  have hfirst : (e + 2 * mask).testBit 0 = decide (e = 1) := by
    rw [Nat.testBit_zero, decide_eq_decide]
    omega
  rw [sum_members, sum_members, Finset.sum_range_succ', Finset.sum_range_succ _ 31, hlast, hfirst]
  simp only [Nat.testBit_succ, hhalf]
  rcases Nat.le_one_iff_eq_zero_or_eq_one.mp he with rfl | rfl <;> simp [Nat.add_comm]

section Degree

variable {l : Word} (hl : IsWord p l) (hlt : maskOf l < 2 ^ 32)

include hl hlt

theorem required_spell : required p (spell p l) =
    ((members (maskOf l)).map fun k => p.val ^ k).sum + p.val * weigh p.val 1 (index (l.map Prod.snd)) := by
  induction l with
  | nil =>
    have hnone : members 0 = [] := by decide
    rw [maskOf, hnone]
    simp [required, spell, weigh]
  | cons m l ih =>
    obtain ⟨e, r⟩ := m
    obtain ⟨he, hl⟩ := isWord_cons.mp hl
    rw [maskOf] at hlt
    rw [spell, required, ih hl (by omega), maskOf, sum_members_double _ he.le_one (by omega), List.map_cons, weigh_index_cons,
      weigh_eq_mul p.val (1 * p.val)]
    simp only [pow_succ, pow_zero, List.sum_map_mul_right]
    ring

/-- An admissible word lies in the degree of the basis element. -/
theorem wordDegree_spell : wordDegree p (spell p l) = degreeOf p (maskOf l) (l.map Prod.snd) := by
  have hnone : members 0 = [] := by decide
  induction l with
  | nil =>
    rw [maskOf, degreeOf, hnone]
    simp [spell, weight]
  | cons m l ih =>
    obtain ⟨e, r⟩ := m
    obtain ⟨he, hl'⟩ := isWord_cons.mp hl
    rw [maskOf] at hlt
    have hshift : ((members (maskOf l)).map fun k => tauDegree p (k + 1)).sum =
        ((members (maskOf l)).map (tauDegree p)).sum + step p * ((members (maskOf l)).map fun k => p.val ^ k).sum := by
      by_cases hodd : p.isOdd
      · have hplace : placeWeight p 0 = 1 := by simp [placeWeight]
        rw [← List.sum_map_mul_left, ← List.sum_map_add]
        refine congrArg List.sum (List.map_congr_left fun k _ => ?_)
        have hadd := tauDegree_add hodd k 0
        rw [hplace, Nat.mul_one] at hadd
        exact hadd.symm
      · rw [maskOf_eq_zero hl' (by simpa using hodd), hnone]
        rfl
    have htau : tauDegree p 0 = 1 := by simp [tauDegree]
    rw [spell, wordDegree_cons, ih hl' (by omega), letterDegree, required_spell hl' (by omega), maskOf, degreeOf, degreeOf,
      sum_members_double _ he.le_one (by omega), hshift, htau, List.map_cons, weight_index_cons, weigh_index_cons,
      weigh_eq_mul p.val (1 * p.val)]
    ring

end Degree

/-- The basis element of an admissible word. -/
def elementOf (l : Word) : MilnorElement := ⟨maskOf l, trim (l.map Prod.snd)⟩

theorem proper_elementOf {l : Word} (hl : IsWord p l) (hlt : maskOf l < 2 ^ 32) : (elementOf l).Proper p where
  trimmed := trimmed_trim _
  exterior_lt := hlt
  exterior_eq_zero := maskOf_eq_zero hl

theorem degree_elementOf {l : Word} (hl : IsWord p l) (hlt : maskOf l < 2 ^ 32) :
    (elementOf l).degree p = wordDegree p (spell p l) := by
  rw [wordDegree_spell hl hlt, MilnorElement.degree, elementOf, degreeOf, degreeOf, index_trim]

section Values

variable {E : Type} [Ring E] {x : Operation → E} (hone : letterValue p x (0, 0) = 1)

include hone

/-- Letters without exponents may be left off at the end. -/
theorem wordValue_spell_of_zero {l : Word} (hmask : maskOf l = 0) (hindex : index (l.map Prod.snd) = 0) :
    required p (spell p l) = 0 ∧ wordValue p x (spell p l) = 1 := by
  induction l with
  | nil => exact ⟨rfl, rfl⟩
  | cons m l ih =>
    obtain ⟨e, r⟩ := m
    obtain rfl : r = 0 := DFunLike.congr_fun hindex 0
    rw [maskOf] at hmask
    obtain ⟨rfl, hrest⟩ : e = 0 ∧ maskOf l = 0 := by omega
    obtain ⟨hrequired, hvalue⟩ := ih hrest (Finsupp.ext fun i => DFunLike.congr_fun hindex (i + 1))
    rw [spell, required, wordValue_cons, hrequired, hvalue, Nat.add_zero, hone]
    exact ⟨rfl, one_mul 1⟩

/-- The value of an admissible word depends on the basis element only. -/
theorem wordValue_spell_congr {l l' : Word} (hl : IsWord p l) (hl' : IsWord p l') (hmask : maskOf l = maskOf l')
    (hindex : index (l.map Prod.snd) = index (l'.map Prod.snd)) :
    required p (spell p l) = required p (spell p l') ∧ wordValue p x (spell p l) = wordValue p x (spell p l') := by
  induction l generalizing l' with
  | nil =>
    obtain ⟨hrequired, hvalue⟩ := wordValue_spell_of_zero hone hmask.symm hindex.symm
    exact ⟨hrequired.symm, hvalue.symm⟩
  | cons m l ih =>
    cases l' with
    | nil => exact wordValue_spell_of_zero hone hmask hindex
    | cons m' l' =>
      obtain ⟨e, r⟩ := m
      obtain ⟨e', r'⟩ := m'
      obtain ⟨he, hword⟩ := isWord_cons.mp hl
      obtain ⟨he', hword'⟩ := isWord_cons.mp hl'
      have hone' := he.le_one
      have hone'' := he'.le_one
      obtain rfl : r = r' := DFunLike.congr_fun hindex 0
      rw [maskOf, maskOf] at hmask
      obtain ⟨rfl, hrest⟩ : e = e' ∧ maskOf l = maskOf l' := by
        simp only at hone' hone''
        omega
      obtain ⟨hrequired, hvalue⟩ := ih hword hword' hrest (Finsupp.ext fun i => DFunLike.congr_fun hindex (i + 1))
      rw [spell, spell, required, required, wordValue_cons, wordValue_cons, hrequired, hvalue]
      exact ⟨rfl, rfl⟩

theorem wordValue_spell_eq {l l' : Word} (hl : IsWord p l) (hl' : IsWord p l') (h : elementOf l = elementOf l') :
    wordValue p x (spell p l) = wordValue p x (spell p l') := by
  obtain ⟨hmask, htrim⟩ := MilnorElement.mk.inj h
  refine (wordValue_spell_congr hone hl hl' hmask ?_).2
  rw [← index_trim, htrim, index_trim]

/-- There are no more values of admissible words in a degree than basis elements. -/
theorem exists_admissibleValues_subset (hp : p.val < 1073741824) {d : ℕ} (hd : d < trackedBelow) :
    ∃ φ : Fin (dim p d) → E, AdmissibleValues p x d ⊆ Set.range φ := by
  classical
  let φ : Fin (dim p d) → E := fun k =>
    if h : ∃ l, IsWord p l ∧ element? p ⟨d, k⟩ = some (elementOf l) then wordValue p x (spell p h.choose) else 0
  refine ⟨φ, ?_⟩
  rintro v ⟨w, hword, hw, hdegree, rfl⟩
  obtain ⟨l, hl, rfl⟩ := hw.exists_spell hword
  have htracked : trackedBelow < 2 ^ 32 := by decide
  have hmask : maskOf l < 2 ^ 32 := by
    have := (maskOf_le (p := p) l).2
    omega
  have hsame := (degree_elementOf hl hmask).trans hdegree
  obtain ⟨i, hi⟩ := exists_element?_eq hp (proper_elementOf hl hmask) (by omega)
  rw [hsame] at hi
  have hlt : i < dim p d := (mem_basis_of_element? hi).1.index_lt
  have hex : ∃ l', IsWord p l' ∧ element? p ⟨d, i⟩ = some (elementOf l') := ⟨l, hl, hi⟩
  refine ⟨⟨i, hlt⟩, ?_⟩
  obtain ⟨hchosen, helement⟩ := hex.choose_spec
  exact (dif_pos hex).trans (wordValue_spell_eq hone hchosen hl (Option.some.inj (helement.symm.trans hi)))

end Values

end Milnor
end Steenrod
