import Steenrod.Proofs.Milnor.Associativity
import Steenrod.Proofs.Milnor.Growth
import Mathlib.Combinatorics.Colex
/-!
The basis as a list of pairs: the finite set `E` and the sequence `R` of an element `Q(E) P(R)`. Main statement: whatever requests
for degrees came before, the basis of a degree below the tracked bound lists the pairs of that degree, each once; places and elements
correspond; and the list is the same after any other requests.
-/
namespace Steenrod

/-- The set `E` and the sequence `R` of an element `Q(E) P(R)`. -/
def MilnorElement.pair (x : MilnorElement) : Finset ℕ × List ℕ := (x.exterior.bitIndices.toFinset, x.exponents)

theorem MilnorElement.pair_injective : Function.Injective MilnorElement.pair := fun x y h => by
  obtain ⟨hset, hexponents⟩ := Prod.mk.inj h
  have hmask : x.exterior = y.exterior := Finset.equivBitIndices.injective hset
  obtain ⟨mask, R⟩ := x
  obtain ⟨mask', R'⟩ := y
  simp only at hmask hexponents
  rw [hmask, hexponents]

/-- The degree of `Q(E) P(R)`. -/
def pairDegree (p : Prime) (E : Finset ℕ) (R : List ℕ) : ℕ :=
  ∑ k ∈ E, (2 * p.val ^ k - 1) + Milnor.step p * ∑ i : Fin R.length, R.get i * ((p.val ^ (i.val + 1) - 1) / (p.val - 1))

namespace Milnor

variable {p : Prime}

theorem weight_index (R : List ℕ) :
    weight p (index R) = ∑ i : Fin R.length, R.get i * ((p.val ^ (i.val + 1) - 1) / (p.val - 1)) := by
  have hsupport : (index R).support ⊆ Finset.range R.length := fun i hi => by
    rw [Finset.mem_range]
    by_contra hle
    exact Finsupp.mem_support_iff.mp hi (index_of_length_le (not_lt.mp hle))
  have hsum := Finsupp.sum_of_support_subset (index R) hsupport (fun i r => r * placeWeight p i) fun _ _ => Nat.zero_mul _
  rw [weight, hsum, Finset.sum_range]
  refine Finset.sum_congr rfl fun i _ => ?_
  rw [placeWeight, Nat.geomSum_eq p.two_le, index_apply, List.getElem?_eq_getElem i.2]
  rfl

theorem toFinset_members {mask : ℕ} (h : mask < 2 ^ 32) : (members mask).toFinset = mask.bitIndices.toFinset := by
  ext k
  rw [List.mem_toFinset, List.mem_toFinset, mem_members, Nat.mem_bitIndices]
  exact and_iff_right_of_imp (lt_two_pow_iff.mp h k)

theorem degree_eq_pairDegree {x : MilnorElement} (h : x.exterior < 2 ^ 32) : x.degree p = pairDegree p x.pair.1 x.pair.2 := by
  have hnodup : (members x.exterior).Nodup := List.nodup_range.filter _
  rw [MilnorElement.degree, degreeOf, weight_index, ← List.sum_toFinset _ hnodup, toFinset_members h]
  rfl

theorem trimmed_iff {R : List ℕ} : Trimmed R ↔ R.getLast? ≠ some 0 := by
  induction R with
  | nil => simp [Trimmed, trim]
  | cons r R ih =>
    cases R with
    | nil => by_cases hr : r = 0 <;> simp [Trimmed, trim, hr]
    | cons s R =>
      rw [List.getLast?_cons_cons, ← ih, Trimmed, Trimmed, trim]
      split
      · next hnil =>
        rw [hnil]
        split <;> simp
      · simp

/-- The pairs of which the basis of a degree consists. -/
theorem mem_pairs (hp : p.val < 1073741824) {d : ℕ} (hd : d < trackedBelow) (E : Finset ℕ) (R : List ℕ) :
    (E, R) ∈ (basis p d).toList.map MilnorElement.pair ↔
      (p.val = 2 → E = ∅) ∧ R.getLast? ≠ some 0 ∧ pairDegree p E R = d := by
  have heven : p.isOdd = false ↔ p.val = 2 := by simp [Prime.isOdd]
  rw [List.mem_map]
  constructor
  · rintro ⟨x, hx, hpair⟩
    obtain ⟨rfl, rfl⟩ := Prod.mk.inj hpair
    obtain ⟨hproper, hdegree⟩ := (mem_basis hp hd x).mp (Array.mem_toList_iff.mp hx)
    refine ⟨fun htwo => ?_, trimmed_iff.mp hproper.trimmed, (degree_eq_pairDegree hproper.exterior_lt).symm.trans hdegree⟩
    rw [hproper.exterior_eq_zero (heven.mpr htwo), Nat.bitIndices_zero, List.toFinset_nil]
  · rintro ⟨hempty, hlast, hdegree⟩
    -- The mask has the bits of `E`, all of them below the word size as their degrees are.
    have hset : (∑ k ∈ E, 2 ^ k).bitIndices.toFinset = E := Finset.toFinset_bitIndices_sum_two_pow E
    have hlt : ∑ k ∈ E, 2 ^ k < 2 ^ 32 := lt_two_pow_iff.mpr fun k hk => by
      rw [← Nat.mem_bitIndices, ← List.mem_toFinset, hset] at hk
      have hle : tauDegree p k ≤ ∑ k ∈ E, tauDegree p k := Finset.single_le_sum (fun _ _ => Nat.zero_le _) hk
      have hsum : ∑ k ∈ E, tauDegree p k ≤ pairDegree p E R := Nat.le_add_right _ _
      have := lt_of_tauDegree_lt_tracked (p := p) (k := k) (by omega)
      omega
    refine ⟨⟨∑ k ∈ E, 2 ^ k, R⟩, Array.mem_toList_iff.mpr ((mem_basis hp hd _).mpr ⟨⟨trimmed_iff.mpr hlast, hlt, fun h => ?_⟩, ?_⟩), ?_⟩
    · rw [hempty (heven.mp h), Finset.sum_empty]
    · rw [degree_eq_pairDegree hlt, MilnorElement.pair, hset, hdegree]
    · rw [MilnorElement.pair, hset]

theorem nodup_pairs (hp : p.val < 1073741824) {d : ℕ} (hd : d < trackedBelow) :
    ((basis p d).toList.map MilnorElement.pair).Nodup := (nodup_basis hp hd).map MilnorElement.pair_injective

end Milnor

namespace Algebra

open Milnor

variable {A : Algebra}

/-- An element has its place in a degree. -/
theorem element_of_indexIn {d : ℤ} {x : MilnorElement} {i : ℕ} (h : A.indexIn d x = .ok i) : A.element ⟨d, i⟩ = .ok x := by
  obtain ⟨hindex, hcomputed⟩ := indexIn_eq_ok h
  have h₀ : 0 ≤ d := by
    by_contra hneg
    simp [index?, not_le.mp hneg] at hindex
  obtain ⟨y, hy, hy'⟩ := element_of_isBasis (a := ⟨d, i⟩) ⟨h₀, index?_lt hindex⟩ hcomputed
  rw [index?, if_neg (not_lt.mpr h₀)] at hindex
  obtain ⟨hi, hx, _⟩ := idxOf?_eq_some.mp hindex
  rw [element?, if_neg (not_lt.mpr h₀), Array.getElem?_eq_getElem hi, hx] at hy'
  rw [hy, Option.some.inj hy']

/-- Places and elements of a degree correspond. -/
theorem indexIn_eq_ok_iff (hp : A.prime.val < 1073741824) {d : ℤ} (hd : d < trackedBelow) {x : MilnorElement} {i : ℕ} :
    A.indexIn d x = .ok i ↔ A.element ⟨d, i⟩ = .ok x := by
  refine ⟨element_of_indexIn, fun h => ?_⟩
  obtain ⟨hx, _, hcomputed⟩ := element_eq_ok h
  exact indexIn_of_index? (index?_of_element? hp hx hd) hcomputed

end Algebra

namespace Growing

open Milnor

theorem onlyExtends_forM {α : Type} {f : α → Growing PUnit} (h : ∀ a, OnlyExtends (f a)) (l : List α) : OnlyExtends (l.forM f) := by
  induction l with
  | nil => exact onlyExtends_pure ()
  | cons a l ih => exact (h a).bind fun _ => ih

/-- Requests for degrees are met, and no degree is computed beyond the requests. -/
theorem run_forM_compute (ds : List ℤ) (hds : ∀ d ∈ ds, d ≤ maxSigned) {A : Algebra} (hp : A.prime.val < 1073741824) :
    ∃ B, (ds.forM compute).run A = (.ok (), B) ∧ A.prime = B.prime ∧
      ∀ n : ℕ, n < B.computed ↔ n < A.computed ∨ ∃ d ∈ ds, n ≤ d := by
  induction ds generalizing A with
  | nil => exact ⟨A, rfl, rfl, fun n => by simp⟩
  | cons d ds ih =>
    have hprime := A.prime_extend d
    obtain ⟨B, hB, hsame, hcomputed⟩ := ih (fun e he => hds e (by simp [he])) (A := A.extend d) (by rwa [hprime])
    refine ⟨B, ?_, hprime.symm.trans hsame, fun n => ?_⟩
    · change (compute d >>= fun _ => ds.forM compute).run A = _
      rw [run_bind, run_compute_of_le hp (hds d (by simp))]
      exact hB
    · rw [hcomputed, A.computed_extend, List.exists_mem_cons_iff, ← or_assoc]
      refine or_congr_left ?_
      split <;> omega

/-- The basis of a degree is complete and free of duplicates, whatever was requested before. -/
theorem basis_complete {p : Prime} (hp : p.val < 2 ^ 30) (cap : Option ℤ) (ds : List ℤ) (hds : ∀ d ∈ ds, d ≤ maxSigned) :
    ∃ A, (ds.forM compute).run (Algebra.new p cap) = (.ok (), A) ∧ (∀ n : ℕ, n < A.computed ↔ ∃ d ∈ ds, n ≤ d) ∧
      ∀ n : ℕ, n < A.computed → n < 2 ^ 25 - 1 → ∃ row, A.basisAt n = .ok row ∧ (row.toList.map MilnorElement.pair).Nodup ∧
        (∀ E R, (E, R) ∈ row.toList.map MilnorElement.pair ↔
          (p.val = 2 → E = ∅) ∧ R.getLast? ≠ some 0 ∧ pairDegree p E R = n) ∧
        (∀ x i, A.indexIn n x = .ok i ↔ A.element ⟨n, i⟩ = .ok x) ∧
        ∀ (cap' : Option ℤ) (ds' : List ℤ) (A' : Algebra), (ds'.forM compute).run (Algebra.new p cap') = (.ok (), A') →
          n < A'.computed → A'.basisAt n = .ok row := by
  have htracked : 2 ^ 25 - 1 = trackedBelow := by decide
  rw [htracked]
  obtain ⟨A, hA, hprime, hcomputed⟩ := run_forM_compute ds hds (A := Algebra.new p cap) hp
  have hprime : p = A.prime := hprime
  refine ⟨A, hA, fun n => (hcomputed n).trans (or_iff_right (Nat.not_lt_zero n)), fun n hn hlt => ?_⟩
  subst hprime
  refine ⟨basis A.prime n, ?_, nodup_pairs hp hlt, mem_pairs hp hlt, fun x i => A.indexIn_eq_ok_iff hp (by exact_mod_cast hlt), ?_⟩
  · rw [A.basisAt_eq, if_pos hn]
  · intro cap' ds' A' hA' hn'
    have hfollows := onlyExtends_forM onlyExtends_compute ds' (Algebra.new A.prime cap')
    rw [hA'] at hfollows
    have hprime' : A.prime = A'.prime := hfollows.prime_eq
    rw [A'.basisAt_eq, if_pos hn', hprime']

/-- `Q_1 P(1)` is listed in degree 9 at the prime 3, after requests for the degrees 5 and 9. -/
theorem basis_complete_nine : ∃ A row, ([5, 9].forM compute).run (Algebra.new Prime.three none) = (.ok (), A) ∧
    A.basisAt 9 = .ok row ∧ ({1}, [1]) ∈ row.toList.map MilnorElement.pair := by
  obtain ⟨A, hA, hcomputed, hrows⟩ := basis_complete (p := Prime.three) (by decide) none [5, 9] (by decide)
  obtain ⟨row, hrow, _, hmem, _⟩ := hrows 9 ((hcomputed 9).mpr ⟨9, by simp, by decide⟩) (by decide)
  exact ⟨A, row, hA, hrow, (hmem _ _).mpr ⟨by decide, by decide, by decide⟩⟩

end Growing
end Steenrod
