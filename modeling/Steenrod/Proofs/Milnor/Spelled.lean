import Steenrod.Proofs.Module.Named
import Steenrod.Proofs.Module.Printed
/-!
Names of basis elements are read back. Main statements: the full name of a basis element and the short name of a generator name the element
they are printed for, and looking them up finds it at its degree and place; so different basis elements have different names.
-/
namespace Steenrod

open Milnor Text

namespace MilnorElement

variable {p : Prime} {x : MilnorElement}

/-- The factors of the full name. -/
def nameFactors (x : MilnorElement) : List Factor :=
  if x.exterior = 0 ∧ x.exponents.isEmpty then [.unit]
  else (members x.exterior).map .exterior ++ if x.exponents.isEmpty then [] else [.powers x.exponents]

theorem name_eq (p : Prime) (x : MilnorElement) :
    x.name p = " ".intercalate (x.nameFactors.map (factorText (!p.isOdd))) := by
  have hletters : (if p.isOdd then "P" else "Sq") = powerLetters (!p.isOdd) := by
    unfold powerLetters
    cases p.isOdd <;> rfl
  unfold name nameFactors
  split
  · simp [factorText]
  · simp only
    rw [hletters, List.map_append, List.map_map, apply_ite (List.map (factorText (!p.isOdd)))]
    rfl

theorem nameFactors_ne_nil (hx : x.Proper p) : x.nameFactors ≠ [] := by
  unfold nameFactors
  split
  · simp
  · next h =>
    by_cases hempty : x.exponents.isEmpty
    · obtain ⟨k, rest, hmembers⟩ := exists_members_eq_cons hx.exterior_lt fun hzero => h ⟨hzero, hempty⟩
      simp [hmembers]
    · simp [hempty]

/-- The set and the sequence of an element belong to the factors of its name. -/
theorem isProductOf_nameFactors (hx : x.Proper p) : IsProductOf p x.nameFactors x.pair.1 x.pair.2 := by
  have hsequence : x.pair.2 = trim x.exponents := hx.trimmed.symm
  have hset : x.pair.1 = (members x.exterior).toFinset := (toFinset_members hx.exterior_lt).symm
  have hmembers : ∀ k ∈ members x.exterior, p.isOdd ∧ k < 32 := by
    intro k hk
    exact ⟨isOdd_of_mem hx hk, (mem_members.mp hk).1⟩
  have hsorted : (members x.exterior).Pairwise (· < ·) := List.pairwise_lt_range.filter _
  have hsplit : ∀ last, lastExponents? last = some x.exponents →
      IsProductOf p ((members x.exterior).map .exterior ++ last) x.pair.1 x.pair.2 := fun last hlast =>
    ⟨members x.exterior, last, x.exponents, rfl, hlast, hsorted, hmembers, hset, hsequence⟩
  unfold nameFactors
  split
  · next h =>
    have hnone : members x.exterior = [] := by rw [h.1]; decide
    have hunit := hsplit [.unit] (by rw [List.isEmpty_iff.mp h.2]; rfl)
    rwa [hnone] at hunit
  · split
    · next hempty => exact hsplit [] (by rw [List.isEmpty_iff.mp hempty]; rfl)
    · exact hsplit [.powers x.exponents] rfl

/-- All numbers of an element of tracked degree are words, and it has no more exponents than there are dual generators. -/
structure Spellable (p : Prime) (x : MilnorElement) : Prop where
  proper : x.Proper p
  le_maxWord : ∀ n ∈ x.exponents, n ≤ maxWord
  length_le : x.exponents.length ≤ p.xiDegrees.length

theorem Proper.spellable (hp : p.val < 1073741824) (hx : x.Proper p) (hd : x.degree p < trackedBelow) : x.Spellable p := by
  have hsum : ((members x.exterior).map (tauDegree p)).sum + step p * weight p (index x.exponents) < trackedBelow := hd
  have hweight : step p * weight p (index x.exponents) < trackedBelow := by omega
  have hsigned : (trackedBelow : ℤ) ≤ maxSigned := by decide
  have hwords : maxSigned ≤ maxWord := by decide
  refine ⟨hx, fun n hn => ?_, length_le_of_index hx.trimmed fun i hi => ?_⟩
  · have hle := le_maxSigned_of_mem (p := p) (R := x.exponents) (by omega) n hn
    omega
  · by_contra hne
    obtain ⟨hlt, _⟩ := List.getElem?_eq_some_iff.mp (xiDegrees_of_lt hp hweight i hne)
    omega

namespace Spellable

theorem numbers_le (h : x.Spellable p) : ∀ f ∈ x.nameFactors, ∀ n ∈ f.numbers, n ≤ maxWord := by
  have hwords : 32 ≤ maxWord := by decide
  intro f hf n hn
  unfold nameFactors at hf
  split at hf
  · rw [List.mem_singleton.mp hf] at hn
    cases hn
  · rcases List.mem_append.mp hf with hf | hf
    · obtain ⟨k, hk, rfl⟩ := List.mem_map.mp hf
      rw [List.mem_singleton.mp hn]
      exact (mem_members.mp hk).1.le.trans hwords
    · split at hf
      · cases hf
      · rw [List.mem_singleton.mp hf] at hn
        exact h.le_maxWord n hn

/-- The full name of an element names it. -/
theorem names_name (h : x.Spellable p) : Names p (x.name p) x := by
  refine ⟨_, name_eq p x ▸ Product.parse_printed (nameFactors_ne_nil h.proper) h.numbers_le _, ?_, isProductOf_nameFactors h.proper,
    h.length_le⟩
  rintro ⟨hsquares, hodd⟩
  obtain ⟨f, _, hf⟩ := List.any_eq_true.mp hsquares
  rw [hodd] at hf
  cases f <;> cases hf

/-- The text of one power names that power. -/
theorem names_power {n : ℕ} (h : Spellable p ⟨0, [n]⟩) : Names p (powerLetters (!p.isOdd) ++ n.repr) ⟨0, [n]⟩ := by
  refine ⟨_, Product.parse_power _ (h.le_maxWord n (by simp)), by simp, ?_, h.length_le⟩
  exact ⟨[], [.power n], [n], rfl, rfl, .nil, by simp, by simp [pair], h.proper.trimmed.symm⟩

/-- The short name of the Bockstein names it. -/
theorem names_bockstein (hodd : p.isOdd = true) : Names p "b" ⟨1, []⟩ :=
  ⟨⟨[.exterior 0], false⟩, by decide, by simp, ⟨[0], [], [], rfl, rfl, by simp, by simp [hodd], by simp [pair], rfl⟩, by simp⟩

/-- The short name of an element names it. -/
theorem names_shortName (h : x.Spellable p) : Names p (x.shortName p) x := by
  obtain ⟨mask, R⟩ := x
  have hpower : ∀ n, Spellable p ⟨mask, R⟩ → mask = 0 → R = [n] →
      Names p (powerLetters (!p.isOdd) ++ n.repr) ⟨mask, R⟩ := by
    rintro n hn rfl rfl
    exact hn.names_power
  unfold shortName
  split
  · next hodd hR =>
    have hname := hpower _ h (h.proper.exterior_eq_zero hodd) hR
    rwa [hodd] at hname
  · next hodd hmask hR =>
    obtain rfl : mask = 1 := hmask
    obtain rfl : R = [] := hR
    exact names_bockstein hodd
  · next hodd hmask hR =>
    have hname := hpower _ h hmask hR
    rwa [hodd] at hname
  · exact h.names_name

end Spellable

end MilnorElement

namespace Growing

variable {A : Algebra} {a b : Operation}

/-- Looking up a text that names a computed basis element finds that element and computes nothing. -/
theorem run_elementNamed_of_names (hp : A.prime.val < 1073741824) {text : String} {x : MilnorElement} (hname : Names A.prime text x)
    (hx : element? A.prime a = some x) (ht : a.degree < trackedBelow) (hlt : a.degree < A.computed) :
    (elementNamed text).run A = (.ok (some a), A) := by
  have hrun := run_elementNamed_of_index? hp (elementIn?_eq_some_iff.mpr hname) (wordDegree?_of_element? hp hx ht)
    (index?_of_element? hp hx ht)
  rwa [Algebra.extend, if_pos hlt] at hrun

theorem exists_names (hp : A.prime.val < 1073741824) (ha : a.IsBasis A.prime) (hlt : a.degree < A.computed) (ht : a.degree < trackedBelow) :
    ∃ full short, A.nameOf a = .ok full ∧ (elementNamed full).run A = (.ok (some a), A) ∧
      A.shortNameOf a = .ok short ∧ (elementNamed short).run A = (.ok (some a), A) := by
  obtain ⟨x, hx, hx'⟩ := A.element_of_isBasis ha hlt
  obtain ⟨hproper, hdegree⟩ := proper_of_element? hp hx' ht
  have hspell := hproper.spellable hp (by omega)
  refine ⟨x.name A.prime, x.shortName A.prime, ?_, run_elementNamed_of_names hp hspell.names_name hx' ht hlt, shortNameOf_eq hx' hlt,
    run_elementNamed_of_names hp hspell.names_shortName hx' ht hlt⟩
  rw [Algebra.nameOf, hx]
  rfl

/-- The generators of a computed degree are listed without computing anything. -/
theorem exists_run_generators (hp : A.prime.val < 1073741824) {d : ℤ} (hlt : d < A.computed) (ht : d < trackedBelow) :
    ∃ ks, (generators d).run A = (.ok ks, A) ∧ ∀ k ∈ ks, Operation.IsBasis A.prime ⟨d, k⟩ := by
  by_cases hpos : 0 < d
  · obtain ⟨ks, hrun, hks⟩ := run_generators hp hpos ht
    rw [Algebra.extend, if_pos hlt] at hrun
    exact ⟨ks, hrun, fun k hk => isBasis_of_isGenerator hp ((hks k).mp hk)⟩
  · refine ⟨[], ?_, by simp⟩
    rw [generators, if_pos (by omega)]
    rfl

/-- The names of computed basis elements of tracked degrees are read back: the full name of each of them, and the short name of each
generator. Different elements have different names. -/
theorem names_read_back (hp : A.prime.val < 2 ^ 30) :
    (∀ a : Operation, a.IsBasis A.prime → a.degree < A.computed → a.degree < 2 ^ 25 - 1 →
      ∃ full, A.nameOf a = .ok full ∧ (elementNamed full).run A = (.ok (some a), A)) ∧
    (∀ d : ℤ, d < A.computed → d < 2 ^ 25 - 1 → ∃ ks, (generators d).run A = (.ok ks, A) ∧ ∀ k ∈ ks,
      ∃ short, A.shortNameOf ⟨d, k⟩ = .ok short ∧ (elementNamed short).run A = (.ok (some ⟨d, k⟩), A)) ∧
    ∀ a b : Operation, a.IsBasis A.prime → a.degree < A.computed → a.degree < 2 ^ 25 - 1 →
      b.IsBasis A.prime → b.degree < A.computed → b.degree < 2 ^ 25 - 1 → a ≠ b → A.nameOf a ≠ A.nameOf b := by
  have htracked : (2 ^ 25 - 1 : ℤ) = trackedBelow := by decide
  rw [htracked]
  refine ⟨fun a ha hlt ht => ?_, fun d hlt ht => ?_, fun a b ha halt hat hb hblt hbt hne hsame => hne ?_⟩
  · obtain ⟨full, _, hfull, hrun, _, _⟩ := exists_names hp ha hlt ht
    exact ⟨full, hfull, hrun⟩
  · obtain ⟨ks, hks, hbasis⟩ := exists_run_generators hp hlt ht
    refine ⟨ks, hks, fun k hk => ?_⟩
    obtain ⟨_, short, _, _, hshort, hrun⟩ := exists_names hp (hbasis k hk) hlt ht
    exact ⟨short, hshort, hrun⟩
  · obtain ⟨full, _, hfull, hrun, _, _⟩ := exists_names hp ha halt hat
    obtain ⟨full', _, hfull', hrun', _, _⟩ := exists_names hp hb hblt hbt
    obtain rfl := Except.ok.inj (hfull.symm.trans (hsame.trans hfull'))
    exact Option.some.inj (Except.ok.inj (congrArg Prod.fst (hrun.symm.trans hrun')))

/-- `Q_1 P(1)` and the generator `b` at the prime 3. -/
theorem names_read_back_three :
    let A := (Algebra.new Prime.three none).extend 15
    A.nameOf ⟨9, 1⟩ = .ok "Q_1 P(1)" ∧ (elementNamed "Q_1 P(1)").run A = (.ok (some ⟨9, 1⟩), A) ∧
      A.shortNameOf ⟨1, 0⟩ = .ok "b" ∧ (elementNamed "b").run A = (.ok (some ⟨1, 0⟩), A) := by
  have hnine : dim Prime.three 9 = 2 := by decide +kernel
  have hprime : ((Algebra.new Prime.three none).extend 15).prime = Prime.three := Algebra.prime_extend ..
  have hcomputed : ((Algebra.new Prime.three none).extend 15).computed = 16 := by
    rw [Algebra.computed_extend]
    rfl
  have hfull : ((Algebra.new Prime.three none).extend 15).nameOf ⟨9, 1⟩ = .ok "Q_1 P(1)" := by decide +kernel
  have hshort : ((Algebra.new Prime.three none).extend 15).shortNameOf ⟨1, 0⟩ = .ok "b" := by decide +kernel
  have hgenerators : ((generators 1).run ((Algebra.new Prime.three none).extend 15)).1 = .ok [0] := by decide +kernel
  obtain ⟨hnames, hshorts, _⟩ := names_read_back (A := (Algebra.new Prime.three none).extend 15) (by rw [hprime]; decide)
  obtain ⟨full, hfull', hrun⟩ := hnames ⟨9, 1⟩ ⟨by decide, by rw [hprime, hnine]; decide⟩ (by rw [hcomputed]; decide) (by decide)
  obtain ⟨ks, hks, hall⟩ := hshorts 1 (by rw [hcomputed]; decide) (by decide)
  obtain rfl : ks = [0] := Except.ok.inj ((congrArg Prod.fst hks).symm.trans hgenerators)
  obtain ⟨short, hshort', hrun'⟩ := hall 0 (by simp)
  obtain rfl := Except.ok.inj (hfull.symm.trans hfull')
  obtain rfl := Except.ok.inj (hshort.symm.trans hshort')
  exact ⟨hfull, hrun, hshort, hrun'⟩

end Growing
end Steenrod
