import Steenrod.Proofs.Module.Named
/-!
How far the algebra is computed. Main statements: extensions come to the same algebra in whatever order they are asked for, and
neither whether a degree can be computed, nor what a name or the generators of a degree are found to be, depends on what has been
computed before.
-/
namespace Steenrod

/-- Tables of one function that reach equally far. -/
theorem Table.ext_size {α : Type} {f : ℕ → α} {t t' : Table f} (h : t.size = t'.size) : t = t' := by
  obtain ⟨rows, hrows⟩ := t
  obtain ⟨rows', hrows'⟩ := t'
  obtain rfl : rows = rows' := Array.ext h fun i hi hi' => (hrows i hi).trans (hrows' i hi').symm
  rfl

/-- It does not matter how the values of a table are found, nor that it is extended twice. -/
theorem Table.extendTo_extendTo {α : Type} {f : ℕ → α} (next next' next'' : (t : Table f) → { x : α // x = f t.size }) {t : Table f}
    {n m : ℕ} (h : n ≤ m) : (t.extendTo next n).extendTo next' m = t.extendTo next'' m :=
  ext_size (by rw [size_extendTo, size_extendTo, size_extendTo]; omega)

namespace Algebra

open Milnor

variable {A : Algebra} {d e : ℤ}

/-- Degree `d` is computed, or can be. -/
def CanCompute (A : Algebra) (d : ℤ) : Prop := d < A.computed ∨ d ≤ maxSigned ∧ ¬(A.prime.signed < 0 ∧ 0 < d)

theorem extend_of_lt (h : d < A.computed) : A.extend d = A := if_pos h

theorem extend_of_le (h : A.computed ≤ d) : A.extend d = ⟨A.prime, A.cap,
    A.sequences.extendTo (nextSequences A.prime) (d / A.prime.q).toNat, A.basis.extendTo (nextBasis A.prime
      (A.sequences.extendTo (nextSequences A.prime) (d / A.prime.q).toNat)) d.toNat⟩ := if_neg (not_lt.mpr h)

theorem lt_computed_extend (A : Algebra) (d : ℤ) : d < (A.extend d).computed := by
  rw [A.computed_extend]
  split <;> omega

theorem toNat_ediv_le (q : ℤ) (hd : 0 ≤ d) (h : d ≤ e) : (d / q).toNat ≤ (e / q).toNat := by
  rcases lt_trichotomy q 0 with hq | rfl | hq
  · rw [Int.toNat_of_nonpos (Int.ediv_nonpos_of_nonneg_of_nonpos hd hq.le)]
    exact Nat.zero_le _
  · rw [Int.ediv_zero, Int.ediv_zero]
  · exact Int.toNat_le_toNat (Int.ediv_le_ediv hq h)

/-- What is computed for one degree after another is what is computed for the greater one. -/
theorem extend_extend (A : Algebra) (d e : ℤ) : (A.extend d).extend e = A.extend (max d e) := by
  by_cases hd : d < A.computed
  · rw [extend_of_lt hd]
    rcases le_total d e with hle | hle
    · rw [max_eq_right hle]
    · rw [max_eq_left hle, extend_of_lt hd, extend_of_lt (hle.trans_lt hd)]
  · rcases le_or_gt e d with hle | hlt
    · rw [max_eq_left hle, extend_of_lt (hle.trans_lt (A.lt_computed_extend d))]
    · have hcomputed : ((A.extend d).computed : ℤ) ≤ e := by
        rw [A.computed_extend, if_neg hd]
        omega
      have hquotient := toNat_ediv_le A.prime.q (by omega) hlt.le
      rw [max_eq_right hlt.le, extend_of_le hcomputed, extend_of_le (not_lt.mp hd), extend_of_le ((not_lt.mp hd).trans hlt.le)]
      dsimp only
      rw [Table.extendTo_extendTo _ (nextSequences A.prime) _ hquotient]
      exact congrArg (Algebra.mk A.prime A.cap _) (Table.extendTo_extendTo _ _ _ (Int.toNat_le_toNat hlt.le))

theorem canCompute_extend (h : A.CanCompute d) : (A.extend d).CanCompute e ↔ A.CanCompute e := by
  unfold CanCompute at h ⊢
  rw [A.prime_extend, A.computed_extend]
  split
  · rfl
  · constructor
    · rintro (hlt | hword)
      · refine .inr ?_
        omega
      · exact .inr hword
    · rintro (hlt | hword)
      · exact .inl (by omega)
      · exact .inr hword

theorem indexIn?_eq (h : d < A.computed) (x : MilnorElement) : A.indexIn? d x = index? A.prime d x := by
  unfold indexIn? index?
  split
  · rfl
  · have hsize : d.toNat < A.basis.size := by
      have : (A.computed : ℤ) = A.basis.size := rfl
      omega
    rw [Table.get?_eq, if_pos hsize]
    rfl

end Algebra

namespace Growing

open Milnor

variable {p : Prime} {A A' : Algebra} {d : ℤ} {text : String} {a b : Operation} {ks : List ℕ}

theorem run_compute_of_can (h : A.CanCompute d) : (compute d).run A = (.ok (), A.extend d) := by
  rw [compute, run_bind, run_get]
  simp only
  split
  · next hlt =>
    rw [Algebra.extend_of_lt hlt]
    rfl
  · next hlt =>
    obtain ⟨hle, hsign⟩ := h.resolve_left hlt
    rw [if_neg (by omega)]
    rfl

theorem run_compute_of_not (h : ¬A.CanCompute d) : (compute d).run A = (.error .breach, A) := by
  obtain ⟨hlt, hword⟩ := not_or.mp h
  rw [compute, run_bind, run_get]
  simp only
  rw [if_neg hlt, if_pos (by omega)]
  rfl

/-- The text names a basis element that is found: its degree, and its place there. -/
def Finds (p : Prime) (text : String) (a : Operation) : Prop :=
  ∃ x, Names p text x ∧ x.wordDegree? p = some a.degree ∧ index? p a.degree x = some a.index

theorem Finds.isBasis (h : Finds p text a) : a.IsBasis p := by
  obtain ⟨x, -, -, hindex⟩ := h
  refine ⟨?_, index?_lt hindex⟩
  by_contra hneg
  rw [index?, if_pos (not_le.mp hneg)] at hindex
  cases hindex

/-- What looking up a name comes to. -/
theorem run_elementNamed_match (A : Algebra) (text : String) :
    (elementNamed text).run A = match elementIn? A.prime text with
      | none => (.ok none, A)
      | some x => match x.wordDegree? A.prime with
        | none => (.error .breach, A)
        | some d => (do
            compute d
            pure (((← get).indexIn? d x).map fun i => ⟨d, i⟩) : Growing (Option Operation)).run A := by
  rw [elementNamed, elementIn?, run_bind, run_get]
  simp only
  cases Product.parse text with
  | error e => rfl
  | ok product =>
    simp only
    split
    · rfl
    · cases elementOf? A.prime 0 product.factors with
      | none => rfl
      | some x =>
        simp only [Option.filter_some, decide_eq_true_eq, ← not_lt]
        rw [ite_not]
        split
        · rfl
        · simp only
          cases x.wordDegree? A.prime <;> rfl

/-- A name is understood if it names a basis element of a degree that can be computed. -/
theorem run_elementNamed_eq_ok :
    (elementNamed text).run A = (.ok (some a), A') ↔ Finds A.prime text a ∧ A.CanCompute a.degree ∧ A' = A.extend a.degree := by
  rw [run_elementNamed_match, Finds]
  simp only [← elementIn?_eq_some_iff]
  cases elementIn? A.prime text with
  | none => simp
  | some x =>
    simp only [Option.some.injEq, exists_eq_left']
    cases x.wordDegree? A.prime with
    | none => simp
    | some d =>
      simp only [Option.some.injEq]
      by_cases hcan : A.CanCompute d
      · have hindex := Algebra.indexIn?_eq (A.lt_computed_extend d) x
        rw [A.prime_extend] at hindex
        rw [run_bind, run_compute_of_can hcan]
        simp only [run_bind, run_get, run_pure, hindex, Prod.mk.injEq, Except.ok.injEq, Option.map_eq_some_iff]
        constructor
        · rintro ⟨⟨i, hi, rfl⟩, rfl⟩
          exact ⟨⟨rfl, hi⟩, hcan, rfl⟩
        · rintro ⟨⟨rfl, hi⟩, -, rfl⟩
          exact ⟨⟨a.index, hi, rfl⟩, rfl⟩
      · rw [run_bind, run_compute_of_not hcan]
        simp only [Prod.mk.injEq, reduceCtorEq, false_and, false_iff]
        rintro ⟨⟨rfl, -⟩, hcan', -⟩
        exact hcan hcan'

/-- The places of the generators of a degree. -/
def generatorsOf (p : Prime) (d : ℤ) : Result (List ℕ) :=
  if d ≤ 0 then .ok []
  else if p.isOdd ∧ d = 1 then .ok [0]
  else if Int.tmod d p.q ≠ 0 ∨ !isPowerOf p (Int.tdiv d p.q).toNat then .ok []
  else (Result.ofOption (index? p d ⟨0, [(Int.tdiv d p.q).toNat]⟩)).map ([·])

theorem generatorsOf_error {e : Failure} (h : generatorsOf p d = .error e) : e = .breach := by
  unfold generatorsOf at h
  split at h
  · cases h
  · split at h
    · cases h
    · split at h
      · cases h
      · cases hindex : index? p d ⟨0, [(Int.tdiv d p.q).toNat]⟩ <;> rw [hindex] at h <;> cases h
        rfl

theorem run_generators_of_lt (h : d < A.computed) : (generators d).run A = (generatorsOf A.prime d, A) := by
  rw [generators, generatorsOf]
  split
  · rfl
  · rw [run_bind, run_compute_of_lt h]
    simp only [run_bind, run_get]
    split
    · rfl
    · split
      · rfl
      · next hpower =>
        obtain ⟨hmod, hpow⟩ := not_or.mp hpower
        set n := (Int.tdiv d A.prime.q).toNat with hn
        have hne : n ≠ 0 := by
          intro hzero
          rw [hzero, isPowerOf] at hpow
          simp at hpow
        have hdegree : A.prime.q * (n : ℤ) + (0 : ℕ) = d := by
          have hdiv := Int.mul_tdiv_add_tmod d A.prime.q
          rw [not_not.mp hmod, add_zero] at hdiv
          rw [hn, Int.toNat_of_nonneg (by omega), Nat.cast_zero, add_zero, hdiv]
        rw [run_bind, run_read, Algebra.bocksteinPower, hdegree, if_neg hne, Algebra.indexIn, Algebra.indexIn?_eq h]
        cases index? A.prime d ⟨0, [n]⟩ <;> rfl

theorem generatorsOf_eq_ok (h : (generators d).run A = (.ok ks, A')) : generatorsOf A.prime d = .ok ks := by
  by_cases hd : d ≤ 0
  · rw [generators, if_pos hd] at h
    rw [generatorsOf, if_pos hd]
    exact (Prod.mk.inj h).1
  · have hpos := h
    rw [generators, if_neg hd, run_bind] at hpos
    by_cases hcan : A.CanCompute d
    · have hextended := run_generators_of_lt (A.lt_computed_extend d)
      rw [generators, if_neg hd, run_bind, run_compute_of_lt (A.lt_computed_extend d), A.prime_extend] at hextended
      rw [run_compute_of_can hcan] at hpos
      exact (Prod.mk.inj (hextended.symm.trans hpos)).1
    · rw [run_compute_of_not hcan] at hpos
      cases (Prod.mk.inj hpos).1

end Growing
end Steenrod
