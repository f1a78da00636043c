import Steenrod.Module.Presentation
import Steenrod.Proofs.Milnor.Pairs
import Steenrod.Proofs.Milnor.WordDegree
/-!
Names of basis elements. Main statement: looking up a text answers, and what it finds is the element that the text names, unless the
text names an element whose degree is not found in signed words; then it is a breach. A relation is read or refused as invalid, unless
its operation is such a text.
-/
namespace Steenrod

open Milnor

namespace Milnor

variable {p : Prime}

/-- The exponents of what may follow the exterior factors of a product. -/
def lastExponents? : List Factor → Option (List ℕ)
  | [] => some []
  | [.power n] => some [n]
  | [.powers r] => some r
  | [.unit] => some []
  | _ => none

/-- The factors are `Q_k` for increasing `k` in `E`, and at most one power or the unit after them, with exponents `R` apart from zeros at
the end. There are no `Q_k` at the prime 2, and none beyond the word size. -/
def IsProductOf (p : Prime) (factors : List Factor) (E : Finset ℕ) (R : List ℕ) : Prop :=
  ∃ (ks : List ℕ) (last : List Factor) (r : List ℕ), factors = ks.map .exterior ++ last ∧ lastExponents? last = some r ∧
    ks.Pairwise (· < ·) ∧ (∀ k ∈ ks, p.isOdd ∧ k < 32) ∧ E = ks.toFinset ∧ R = trim r

/-- The text names `x`: it is a product without squares at odd primes, with no more exponents than there are dual generators. -/
def Names (p : Prime) (text : String) (x : MilnorElement) : Prop :=
  ∃ product, Product.parse text = .ok product ∧ ¬(product.usesSquares ∧ p.isOdd) ∧
    IsProductOf p product.factors x.pair.1 x.pair.2 ∧ x.exponents.length ≤ p.xiDegrees.length

/-- The factors `Q_k` may follow those of a set. -/
def MayFollow (p : Prime) (mask : ℕ) (ks : List ℕ) : Prop := ks.Pairwise (· < ·) ∧ ∀ k ∈ ks, p.isOdd ∧ k < 32 ∧ mask < 2 ^ k

theorem shiftRight_eq_zero {mask k : ℕ} : mask >>> k = 0 ↔ mask < 2 ^ k := by
  rw [Nat.shiftRight_eq_div_pow, Nat.div_eq_zero_iff_lt (Nat.pow_pos (by decide))]

theorem insert_lt {mask k n : ℕ} : mask ||| 1 <<< k < 2 ^ n ↔ mask < 2 ^ n ∧ k < n := by
  simp only [lt_two_pow_iff, testBit_insert, Bool.or_eq_true, decide_eq_true_eq]
  constructor
  · exact fun h => ⟨fun j hj => h j (.inl hj), h k (.inr rfl)⟩
  · rintro ⟨hmask, hk⟩ j (hj | rfl)
    · exact hmask j hj
    · exact hk

theorem bitIndices_insert (mask k : ℕ) : (mask ||| 1 <<< k).bitIndices.toFinset = insert k mask.bitIndices.toFinset := by
  ext j
  rw [List.mem_toFinset, Nat.mem_bitIndices, testBit_insert, Finset.mem_insert, List.mem_toFinset, Nat.mem_bitIndices, Bool.or_eq_true,
    decide_eq_true_eq, or_comm, eq_comm]

theorem mayFollow_cons {mask k : ℕ} {ks : List ℕ} :
    MayFollow p mask (k :: ks) ↔ (p.isOdd ∧ k < 32 ∧ mask >>> k = 0) ∧ MayFollow p (mask ||| 1 <<< k) ks := by
  simp only [MayFollow, List.pairwise_cons, List.forall_mem_cons, shiftRight_eq_zero, insert_lt]
  constructor
  · rintro ⟨⟨hk, hks⟩, hfirst, hrest⟩
    exact ⟨hfirst, hks, fun j hj => ⟨(hrest j hj).1, (hrest j hj).2.1, (hrest j hj).2.2, hk j hj⟩⟩
  · rintro ⟨hfirst, hks, hrest⟩
    exact ⟨⟨fun j hj => (hrest j hj).2.2.2, hks⟩, hfirst, fun j hj => ⟨(hrest j hj).1, (hrest j hj).2.1, (hrest j hj).2.2.1⟩⟩

theorem elementOf?_of_last {last : List Factor} {r : List ℕ} (h : lastExponents? last = some r) (mask : ℕ) :
    elementOf? p mask last = some ⟨mask, trim r⟩ := by
  unfold lastExponents? at h
  split at h <;> cases h <;> rfl

theorem exists_elementOf? {ks : List ℕ} {last : List Factor} {r : List ℕ} (hlast : lastExponents? last = some r) {mask : ℕ}
    (h : MayFollow p mask ks) : ∃ x, elementOf? p mask (ks.map .exterior ++ last) = some x ∧
      x.pair = (mask.bitIndices.toFinset ∪ ks.toFinset, trim r) := by
  induction ks generalizing mask with
  | nil => exact ⟨_, elementOf?_of_last hlast mask, by rw [List.toFinset_nil, Finset.union_empty]; rfl⟩
  | cons k ks ih =>
    obtain ⟨hk, hrest⟩ := mayFollow_cons.mp h
    obtain ⟨x, hx, hpair⟩ := ih hrest
    refine ⟨x, ?_, ?_⟩
    · rw [List.map_cons, List.cons_append, elementOf?, if_pos hk, hx]
    · rw [hpair, bitIndices_insert, List.toFinset_cons, Finset.insert_union, Finset.union_insert]

theorem mayFollow_of_elementOf? {mask : ℕ} {factors : List Factor} {x : MilnorElement} (h : elementOf? p mask factors = some x) :
    ∃ ks last r, factors = ks.map .exterior ++ last ∧ lastExponents? last = some r ∧ MayFollow p mask ks := by
  have hempty : ∀ mask, MayFollow p mask [] := fun _ => ⟨.nil, by simp⟩
  fun_induction elementOf? p mask factors with
  | case2 mask k rest hk ih =>
    obtain ⟨ks, last, r, rfl, hlast, hks⟩ := ih h
    exact ⟨k :: ks, last, r, rfl, hlast, mayFollow_cons.mpr ⟨hk, hks⟩⟩
  | case1 | case4 | case5 | case6 => exact ⟨[], _, _, rfl, rfl, hempty _⟩
  | case3 | case7 => cases h

/-- The element of a product has its set and its sequence. -/
theorem elementOf?_eq_some_iff {factors : List Factor} {x : MilnorElement} :
    elementOf? p 0 factors = some x ↔ IsProductOf p factors x.pair.1 x.pair.2 := by
  constructor
  · intro h
    obtain ⟨ks, last, r, rfl, hlast, hks⟩ := mayFollow_of_elementOf? h
    obtain ⟨y, hy, hpair⟩ := exists_elementOf? hlast hks
    obtain rfl := Option.some.inj (h.symm.trans hy)
    rw [Nat.bitIndices_zero, List.toFinset_nil, Finset.empty_union] at hpair
    exact ⟨ks, last, r, rfl, hlast, hks.1, fun k hk => ⟨(hks.2 k hk).1, (hks.2 k hk).2.1⟩, by rw [hpair], by rw [hpair]⟩
  · rintro ⟨ks, last, r, rfl, hlast, hks, hbounds, hset, hexponents⟩
    have hfollow : MayFollow p 0 ks := ⟨hks, fun k hk => ⟨(hbounds k hk).1, (hbounds k hk).2, Nat.two_pow_pos k⟩⟩
    obtain ⟨y, hy, hpair⟩ := exists_elementOf? hlast hfollow
    rw [Nat.bitIndices_zero, List.toFinset_nil, Finset.empty_union, ← hset, ← hexponents] at hpair
    rw [hy, MilnorElement.pair_injective hpair]

theorem IsProductOf.of_testBit {factors : List Factor} {x : MilnorElement} (h : IsProductOf p factors x.pair.1 x.pair.2) {k : ℕ}
    (hk : x.exterior.testBit k = true) : p.isOdd ∧ k < 32 := by
  obtain ⟨ks, -, -, -, -, -, hks, hset, -⟩ := h
  have hmem : k ∈ x.pair.1 := List.mem_toFinset.mpr (Nat.mem_bitIndices.mpr hk)
  rw [hset, List.mem_toFinset] at hmem
  exact hks k hmem

theorem Names.proper {text : String} {x : MilnorElement} (h : Names p text x) : x.Proper p := by
  obtain ⟨product, -, -, hproduct, -⟩ := h
  refine ⟨?_, lt_two_pow_iff.mpr fun k hk => (hproduct.of_testBit hk).2, fun heven => Nat.eq_of_testBit_eq fun k => ?_⟩
  · obtain ⟨-, -, r, -, -, -, -, -, htrim⟩ := hproduct
    have hexponents : x.exponents = trim r := htrim
    rw [hexponents]
    exact trimmed_trim r
  · rw [Nat.zero_testBit, Bool.eq_false_iff]
    exact fun hk => Bool.false_ne_true (heven.symm.trans (hproduct.of_testBit hk).1)

/-- The degree of an element that a text names is found if it is a word. -/
theorem Names.wordDegree?_eq (hp : p.val < 1073741824) {text : String} {x : MilnorElement} (h : Names p text x)
    (hmax : (x.degree p : ℤ) ≤ maxSigned) : x.wordDegree? p = some (x.degree p : ℤ) := by
  obtain ⟨product, -, -, hproduct, hlength⟩ := h
  have hsum : x.degree p = ((members x.exterior).map (tauDegree p)).sum + step p * weight p (index x.exponents) := rfl
  refine wordDegree?_of_places hp (fun k hk => ?_) (fun i hi => ?_) hmax
  · have hle := tauDegree_le_of_mem (p := p) hk le_rfl
    exact tauDegrees_of_le hp (hproduct.of_testBit (mem_members.mp hk).2).1 (by omega)
  · have hi' : i < p.xiDegrees.length := by
      by_contra hge
      exact hi (index_of_length_le (by omega))
    obtain ⟨_, hdegree, _⟩ := (getElem?_xiDegrees hp i _).mp (List.getElem?_eq_getElem hi')
    rw [List.getElem?_eq_getElem hi', hdegree]

/-- The element that a text names. -/
def elementIn? (p : Prime) (text : String) : Option MilnorElement :=
  match Product.parse text with
  | .error _ => none
  | .ok product =>
    if product.usesSquares ∧ p.isOdd then none
    else (elementOf? p 0 product.factors).filter fun x => x.exponents.length ≤ p.xiDegrees.length

theorem elementIn?_eq_some_iff {text : String} {x : MilnorElement} : elementIn? p text = some x ↔ Names p text x := by
  unfold elementIn? Names
  cases Product.parse text with
  | error e => simp
  | ok product =>
    simp only [Except.ok.injEq, exists_eq_left', ← elementOf?_eq_some_iff]
    split
    · next hsquares => simp [hsquares]
    · next hsquares => simp only [Option.filter_eq_some_iff, decide_eq_true_eq, hsquares, not_false_eq_true, true_and]

theorem Names.unique {text : String} {x y : MilnorElement} (hx : Names p text x) (hy : Names p text y) : x = y :=
  Option.some.inj ((elementIn?_eq_some_iff.mpr hx).symm.trans (elementIn?_eq_some_iff.mpr hy))

end Milnor

namespace Growing

variable {p : Prime}

/-- Looking up a name computes the degree of the element that it names, if that is found, and nothing else. -/
theorem run_elementNamed_eq {A : Algebra} (hp : A.prime.val < 1073741824) (text : String) :
    (elementNamed text).run A = match elementIn? A.prime text with
      | none => (.ok none, A)
      | some x => match x.wordDegree? A.prime with
        | none => (.error .breach, A)
        | some d => (.ok (((A.extend d).indexIn? d x).map fun i => ⟨d, i⟩), A.extend d) := by
  rw [elementNamed, elementIn?, run_bind, run_get]
  simp only
  cases Product.parse text with
  | error e => rfl
  | ok product =>
    simp only
    split
    · rfl
    · cases elementOf? A.prime 0 product.factors with
      | none => rfl
      | some x =>
        simp only [Option.filter_some, decide_eq_true_eq, ← not_lt]
        rw [ite_not]
        split
        · rfl
        · simp only
          cases hd : x.wordDegree? A.prime with
          | none => rfl
          | some d =>
            simp only
            rw [run_bind, run_compute_of_le hp (degree_of_wordDegree? hd).2]
            rfl

/-- The text names an element whose degree is not found: a member of its set has no dual generator, or a product or sum is no word. -/
def Unfound (p : Prime) (text : String) : Prop := ∃ x, Names p text x ∧ x.wordDegree? p = none

theorem Unfound.run {A : Algebra} (hp : A.prime.val < 1073741824) {text : String} (h : Unfound A.prime text) :
    (elementNamed text).run A = (.error .breach, A) := by
  obtain ⟨x, hx, hd⟩ := h
  rw [run_elementNamed_eq hp, elementIn?_eq_some_iff.mpr hx]
  simp only
  rw [hd]

theorem not_unfound (hp : p.val < 1073741824) {text : String} {x : MilnorElement} (hx : Names p text x)
    (hmax : (x.degree p : ℤ) ≤ maxSigned) : ¬Unfound p text := by
  rintro ⟨y, hy, hd⟩
  obtain rfl := hy.unique hx
  rw [hx.wordDegree?_eq hp hmax] at hd
  cases hd

theorem exists_run_elementNamed {A : Algebra} (hp : A.prime.val < 1073741824) {text : String} (h : ¬Unfound A.prime text) :
    ∃ found B, (elementNamed text).run A = (.ok found, B) := by
  rw [run_elementNamed_eq hp]
  cases hx : elementIn? A.prime text with
  | none => exact ⟨_, _, rfl⟩
  | some x =>
    simp only
    cases hd : x.wordDegree? A.prime with
    | none => exact absurd ⟨x, elementIn?_eq_some_iff.mp hx, hd⟩ h
    | some d => exact ⟨_, _, rfl⟩

theorem elementNamed_sound {A B : Algebra} (hp : A.prime.val < 1073741824) {text : String} {a : Operation}
    (h : (elementNamed text).run A = (.ok (some a), B)) : ∃ x, Names A.prime text x ∧ x.wordDegree? A.prime = some a.degree ∧
      B.element a = .ok x := by
  rw [run_elementNamed_eq hp] at h
  cases hx : elementIn? A.prime text with
  | none => simp [hx] at h
  | some x =>
    cases hd : x.wordDegree? A.prime with
    | none => simp [hx, hd] at h
    | some d =>
      simp only [hx, hd] at h
      obtain ⟨hfound, rfl⟩ := Prod.mk.inj h
      obtain ⟨i, hi, rfl⟩ := Option.map_eq_some_iff.mp (Except.ok.inj hfound)
      refine ⟨x, elementIn?_eq_some_iff.mp hx, hd, Algebra.element_of_indexIn ?_⟩
      exact Result.ofOption_eq_ok.mpr hi

/-- A degree has its places once it is computed. -/
theorem indexIn?_extend {A : Algebra} {d : ℤ} {x : MilnorElement} {i : ℕ} (h : index? A.prime d x = some i) :
    (A.extend d).indexIn? d x = some i := by
  have hcomputed : d < (A.extend d).computed := by
    rw [A.computed_extend]
    split <;> omega
  exact Result.ofOption_eq_ok.mp (Algebra.indexIn_of_index? (by rwa [A.prime_extend]) hcomputed)

theorem run_elementNamed_of_index? {A : Algebra} (hp : A.prime.val < 1073741824) {text : String} {x : MilnorElement} {d : ℤ} {i : ℕ}
    (hx : elementIn? A.prime text = some x) (hd : x.wordDegree? A.prime = some d) (hi : index? A.prime d x = some i) :
    (elementNamed text).run A = (.ok (some ⟨d, i⟩), A.extend d) := by
  rw [run_elementNamed_eq hp, hx]
  simp only
  rw [hd]
  simp only
  rw [indexIn?_extend hi]
  rfl

theorem elementNamed_complete {A : Algebra} (hp : A.prime.val < 1073741824) {text : String} {x : MilnorElement}
    (hx : Names A.prime text x) (hd : x.degree A.prime < trackedBelow) :
    ∃ a B, (elementNamed text).run A = (.ok (some a), B) := by
  obtain ⟨i, hi⟩ := exists_element?_eq hp hx.proper hd
  have hd' : ((x.degree A.prime : ℕ) : ℤ) < trackedBelow := by exact_mod_cast hd
  exact ⟨_, _, run_elementNamed_of_index? hp (elementIn?_eq_some_iff.mpr hx) (wordDegree?_eq hp hd) (index?_of_element? hp hi hd')⟩

end Growing

/-- A text that is no relation is refused as one. -/
theorem Relation.parse_eq_error {text : String} {e : Error} (h : Relation.parse text = .error e) :
    ∃ fault, e = .invalidRelation text fault := by
  unfold Relation.parse at h
  simp only at h
  split at h
  · split at h
    · split at h
      · cases h; exact ⟨_, rfl⟩
      · split at h
        · cases h; exact ⟨_, rfl⟩
        · split at h
          · cases h
          · cases h; exact ⟨_, rfl⟩
    · cases h; exact ⟨_, rfl⟩
  · cases h; exact ⟨_, rfl⟩

namespace Presentation

open Growing

/-- A relation is read, refused as invalid, or its operation has no degree. -/
theorem run_addAction_cases (P : Presentation) {A : Algebra} (hp : A.prime.val < 1073741824) (text : String) :
    (∃ P', ((P.addAction text).run A).1 = .ok P') ∨
      (∃ fault, ((P.addAction text).run A).1 = .error (.refused (.invalidRelation text fault))) ∨
      ((P.addAction text).run A).1 = .error .breach ∧ ∃ relation, Relation.parse text = .ok relation ∧
        Unfound A.prime relation.operation := by
  rw [addAction]
  cases hparse : Relation.parse text with
  | error e =>
    obtain ⟨fault, rfl⟩ := Relation.parse_eq_error hparse
    exact .inr (.inl ⟨fault, rfl⟩)
  | ok relation =>
    simp only
    by_cases h : Unfound A.prime relation.operation
    · refine .inr (.inr ⟨?_, relation, rfl, h⟩)
      rw [run_bind, h.run hp]
    · obtain ⟨found, B, hrun⟩ := exists_run_elementNamed hp h
      rw [run_bind, hrun]
      cases found with
      | none => exact .inr (.inl ⟨_, rfl⟩)
      | some a => exact .inl ⟨_, rfl⟩

end Presentation

namespace Growing

/-- Names are looked up without a breach, and what is found is what they name, unless a degree is not found; it is if it is a word. -/
theorem elementNamed_answers {A : Algebra} (hp : A.prime.val < 2 ^ 30) :
    (∀ text, ∃ answer B, (elementNamed text).run A = (answer, B) ∧
      (∀ e, answer = .error e ↔ e = .breach ∧ Unfound A.prime text) ∧
      (∀ x, Names A.prime text x → pairDegree A.prime x.pair.1 x.pair.2 < 2 ^ 31 → ∃ found, answer = .ok found) ∧
      (∀ a, answer = .ok (some a) → ∃ x, Names A.prime text x ∧ x.wordDegree? A.prime = some a.degree ∧ B.element a = .ok x) ∧
      ∀ x, Names A.prime text x → pairDegree A.prime x.pair.1 x.pair.2 < 2 ^ 25 - 1 → ∃ a, answer = .ok (some a)) ∧
    ∀ (P : Presentation) text, (∃ P', ((P.addAction text).run A).1 = .ok P') ∨
      (∃ fault, ((P.addAction text).run A).1 = .error (.refused (.invalidRelation text fault))) ∨
      ((P.addAction text).run A).1 = .error .breach ∧ ∃ relation, Relation.parse text = .ok relation ∧
        Unfound A.prime relation.operation := by
  have htracked : 2 ^ 25 - 1 = trackedBelow := by decide
  rw [htracked]
  have hdegree : ∀ {text x}, Names A.prime text x → pairDegree A.prime x.pair.1 x.pair.2 = x.degree A.prime := fun hx =>
    (degree_eq_pairDegree hx.proper.exterior_lt).symm
  refine ⟨fun text => ⟨((elementNamed text).run A).1, ((elementNamed text).run A).2, rfl, fun e => ?_, fun x hx hd => ?_,
    fun a ha => elementNamed_sound hp (Prod.ext ha rfl), fun x hx hd => ?_⟩, fun P text => P.run_addAction_cases hp text⟩
  · by_cases h : Unfound A.prime text
    · rw [h.run hp]
      simp [h, eq_comm]
    · obtain ⟨found, B, hrun⟩ := exists_run_elementNamed hp h
      rw [hrun]
      simp [h]
  · rw [hdegree hx] at hd
    obtain ⟨found, B, hrun⟩ := exists_run_elementNamed hp (not_unfound hp hx (by unfold maxSigned; omega))
    exact ⟨found, by rw [hrun]⟩
  · rw [hdegree hx] at hd
    obtain ⟨a, B, hrun⟩ := elementNamed_complete hp hx hd
    exact ⟨a, by rw [hrun]⟩

/-- `Q_1 P(1)` is found at the prime 3. -/
theorem elementNamed_answers_three : ∃ a B, (elementNamed "Q_1 P(1)").run (Algebra.new Prime.three none) = (.ok (some a), B) ∧
    a.degree = 9 ∧ B.element a = .ok ⟨2, [1]⟩ := by
  have hnames : Names Prime.three "Q_1 P(1)" ⟨2, [1]⟩ := elementIn?_eq_some_iff.mp (by decide +kernel)
  have hdegree : (⟨2, [1]⟩ : MilnorElement).wordDegree? Prime.three = some 9 := by decide +kernel
  obtain ⟨answer, B, hrun, -, -, hsound, hcomplete⟩ :=
    (elementNamed_answers (A := Algebra.new Prime.three none) (by decide)).1 "Q_1 P(1)"
  obtain ⟨a, rfl⟩ := hcomplete ⟨2, [1]⟩ hnames (by decide)
  obtain ⟨x, hx, hd, helement⟩ := hsound a rfl
  obtain rfl := hx.unique hnames
  exact ⟨a, B, hrun, (Option.some.inj (hdegree.symm.trans hd)).symm, helement⟩

/-- The degree of `Q_31` is not found at the prime 3, nor is that of `P(0,2147483648)` at the prime 2. -/
theorem elementNamed_breach : ((elementNamed "Q_31").run (Algebra.new Prime.three none)).1 = .error .breach ∧
    ((elementNamed "P(0,2147483648)").run (Algebra.new Prime.two none)).1 = .error .breach ∧
    (((Presentation.empty "M").addAction "Q_31 x = y").run (Algebra.new Prime.three none)).1 = .error .breach := by
  decide +kernel

end Growing
end Steenrod
