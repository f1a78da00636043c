import Steenrod.Proofs.Milnor.Admissible
/-!
The decompositions and the relations between generators present the algebra. Main statement: elements of a ring for which these hold
multiply as the operations that they stand for. They are paired with the operators on polynomials, which multiply so: a product is a
combination of admissible words, of which there are no more than there are basis elements, so it is a combination of pairs, and the
second components say which.
-/
namespace Steenrod
namespace Milnor

variable {p : Prime}

section Combinations

variable {V : Type} [AddCommGroup V] [Module p.Field V] {n : ℕ} {φ : ℕ → V}

theorem exists_combine_eq_sum (f : Fin n → p.Field) :
    ∃ g ∈ p.space n, combine n φ g = ∑ k, f k • φ k ∧ ∀ k : Fin n, g k = f k := by
  refine ⟨fun i => if hi : i < n then f ⟨i, hi⟩ else 0, fun i hi => dif_neg (not_lt.mpr hi), ?_, fun k => dif_pos k.isLt⟩
  rw [combine_apply, Finset.sum_range]
  refine Finset.sum_congr rfl fun k _ => ?_
  rw [dif_pos k.isLt]

theorem linearIndependent_of_combine (h : ∀ f ∈ p.space n, combine n φ f = 0 → f = 0) :
    LinearIndependent p.Field fun k : Fin n => φ k := by
  refine Fintype.linearIndependent_iff.mpr fun f hf k => ?_
  obtain ⟨g, hg, hsum, hread⟩ := exists_combine_eq_sum (φ := φ) f
  rw [← hread k, h g hg (hsum.trans hf)]
  rfl

end Combinations

variable {bound : ℕ} {E : Type} [Ring E] [Module p.Field E] {x : Operation → E}

theorem Checked.letterValue_zero (h : Checked p bound x) (hp : p.val < 1073741824) : letterValue p x (0, 0) = 1 := by
  rw [letterValue, pow_zero, one_mul, letter_zero p.bockstein_zero hp]
  exact h.one

variable [SMulCommClass p.Field E E]

theorem Checked.mul_mem (h : Checked p bound x) (hp : p.val < 1073741824) (hbound : bound ≤ trackedBelow) {m n : ℕ} {v w : E}
    (hlt : m + n < bound) (hv : v ∈ Submodule.span p.Field (AdmissibleValues p x m))
    (hw : w ∈ Submodule.span p.Field (AdmissibleValues p x n)) :
    v * w ∈ Submodule.span p.Field (AdmissibleValues p x (m + n)) := by
  induction hv, hw using Submodule.span_induction₂ with
  | mem_mem v w hv hw =>
    obtain ⟨l, hl, _, rfl, rfl⟩ := hv
    obtain ⟨l', hl', _, rfl, rfl⟩ := hw
    have hword : IsWord p (l ++ l') := List.forall_mem_append.mpr ⟨hl, hl'⟩
    have hmem := h.wordValue_mem hp hbound hword (by rwa [wordDegree_append])
    rwa [wordValue_append, wordDegree_append] at hmem
  | zero_left w hw =>
    rw [zero_mul]
    exact Submodule.zero_mem _
  | zero_right v hv =>
    rw [mul_zero]
    exact Submodule.zero_mem _
  | add_left v v' w _ _ _ hv hv' =>
    rw [add_mul]
    exact Submodule.add_mem _ hv hv'
  | add_right v w w' _ _ _ hw hw' =>
    rw [mul_add]
    exact Submodule.add_mem _ hw hw'
  | smul_left c v w _ _ hv =>
    rw [smul_mul_assoc]
    exact Submodule.smul_mem _ c hv
  | smul_right c v w _ _ hw =>
    rw [mul_smul_comm]
    exact Submodule.smul_mem _ c hw

/-- Every element that is stood for is a combination of admissible words. -/
theorem Checked.value_mem (h : Checked p bound x) (hp : p.val < 1073741824) (hbound : bound ≤ trackedBelow) {d : ℕ} {i : ℕ}
    (ha : Operation.IsBasis p ⟨d, i⟩) (hlt : d < bound) : x ⟨d, i⟩ ∈ Submodule.span p.Field (AdmissibleValues p x d) := by
  induction d using Nat.strong_induction_on generalizing i with
  | _ d ih =>
    have hword : ∀ {e n : ℕ}, p.Bockstein e → (⟨d, i⟩ : Operation) = letter p e n →
        x ⟨d, i⟩ ∈ Submodule.span p.Field (AdmissibleValues p x d) := by
      intro e n he heq
      obtain rfl : d = step p * n + e := Int.ofNat_inj.mp (congrArg Operation.degree heq)
      refine Submodule.subset_span ⟨[(e, n)], by simpa [IsWord] using he, .singleton _, by simp [letterDegree], ?_⟩
      rw [wordValue_cons, wordValue_nil, mul_one, heq]
      exact h.letterValue_eq hp hbound he hlt
    rcases Nat.eq_zero_or_pos d with rfl | hpos
    · have hi := ha.index_lt
      rw [Nat.cast_zero, dim_zero] at hi
      obtain rfl := Nat.lt_one_iff.mp hi
      exact hword p.bockstein_zero (letter_zero p.bockstein_zero hp).symm
    by_cases hgen : IsGenerator p ⟨d, i⟩
    · rcases hgen with ⟨hodd, heq⟩ | ⟨v, heq⟩
      · exact hword (.inr ⟨hodd, rfl⟩) heq
      · exact hword p.bockstein_zero heq
    · have hd : (0 : ℤ) < d := by exact_mod_cast hpos
      have hdecomposes := decomposes_decomposition hp ha hd (show (d : ℤ) < trackedBelow by omega)
      rw [← h.decomposed _ ha hd (show (d : ℤ) < bound by exact_mod_cast hlt) hgen, termSum]
      refine list_sum_mem fun v hv => ?_
      obtain ⟨t, ht, rfl⟩ := List.mem_map.mp hv
      obtain ⟨c, ⟨m, j⟩, ⟨n, k⟩⟩ := t
      obtain ⟨hleft, hright, hsum⟩ := hdecomposes.liesIn _ ht
      obtain ⟨hm, hn⟩ := hdecomposes.smaller hgen _ ht
      obtain ⟨m, rfl⟩ := Int.eq_ofNat_of_zero_le hleft.nonneg
      obtain ⟨n, rfl⟩ := Int.eq_ofNat_of_zero_le hright.nonneg
      simp only at hsum hm hn
      obtain rfl : m + n = d := by omega
      refine Submodule.smul_mem _ _ (h.mul_mem hp hbound hlt ?_ ?_)
      · exact ih m (by omega) hleft (by omega)
      · exact ih n (by omega) hright (by omega)

/-- Where the elements of a degree are independent, every admissible word is a combination of them. -/
theorem Checked.exists_combine_eq (h : Checked p bound x) (hp : p.val < 1073741824) (hbound : bound ≤ trackedBelow) {d : ℕ}
    (hlt : d < bound) (hindependent : LinearIndependent p.Field fun k : Fin (dim p d) => x ⟨d, k⟩) {v : E}
    (hv : v ∈ Submodule.span p.Field (AdmissibleValues p x d)) :
    ∃ f ∈ p.space (dim p d), combine (dim p d) (fun k => x ⟨d, k⟩) f = v := by
  obtain ⟨φ, hφ⟩ := exists_admissibleValues_subset (h.letterValue_zero hp) hp (show d < trackedBelow by omega)
  let S := Submodule.span p.Field (AdmissibleValues p x d)
  have hfinite : FiniteDimensional p.Field (Submodule.span p.Field (Set.range φ)) :=
    FiniteDimensional.span_of_finite _ (Set.finite_range φ)
  have hle : S ≤ Submodule.span p.Field (Set.range φ) := Submodule.span_mono hφ
  have hfinite' : FiniteDimensional p.Field S := Submodule.finiteDimensional_of_le hle
  have hvalues : Submodule.span p.Field (Set.range fun k : Fin (dim p d) => x ⟨d, k⟩) ≤ S := by
    rw [Submodule.span_le]
    rintro _ ⟨k, rfl⟩
    exact h.value_mem hp hbound ⟨Int.natCast_nonneg d, k.isLt⟩ hlt
  have hrank : Module.finrank p.Field S ≤
      Module.finrank p.Field (Submodule.span p.Field (Set.range fun k : Fin (dim p d) => x ⟨d, k⟩)) := by
    rw [finrank_span_eq_card hindependent]
    exact (Submodule.finrank_mono hle).trans (finrank_range_le_card φ)
  have hspan := Submodule.eq_of_le_of_finrank_le hvalues hrank
  have hv : v ∈ S := hv
  rw [← hspan, Submodule.mem_span_range_iff_exists_fun] at hv
  obtain ⟨f, rfl⟩ := hv
  obtain ⟨g, hg, hsum, _⟩ := exists_combine_eq_sum (φ := fun k => x ⟨d, k⟩) f
  exact ⟨g, hg, hsum⟩

/-- Elements for which the decompositions and the relations hold multiply as the operations that they stand for. -/
theorem Checked.mul_eq (h : Checked p bound x) (hp : p.val < 1073741824) (hbound : bound ≤ trackedBelow) {a b : Operation}
    (ha : a.IsBasis p) (hb : b.IsBasis p) (hlt : a.degree + b.degree < bound) :
    x a * x b = combine (dim p (a.degree + b.degree)) (fun k => x ⟨a.degree + b.degree, k⟩) (mul p a b) := by
  obtain ⟨m, i⟩ := a
  obtain ⟨n, j⟩ := b
  obtain ⟨m, rfl⟩ := Int.eq_ofNat_of_zero_le ha.nonneg
  obtain ⟨n, rfl⟩ := Int.eq_ofNat_of_zero_le hb.nonneg
  have hsum : ((m : ℤ) + n) = (m + n : ℕ) := (Nat.cast_add m n).symm
  simp only [hsum] at hlt ⊢
  have hlt' : m + n < bound := by exact_mod_cast hlt
  have htracked : ((m + n : ℕ) : ℤ) < trackedBelow := by omega
  let O : Operators p bound (Faithful p) := Faithful.operators (by omega) bound
  let φ : ℕ → E × Faithful p := fun k => (x ⟨(m + n : ℕ), k⟩, O.operator ⟨(m + n : ℕ), k⟩)
  have hpair := h.prod (O.checked hp hbound)
  have hfirst : ∀ f, (combine (dim p (m + n : ℕ)) φ f).1 = combine (dim p (m + n : ℕ)) (fun k => x ⟨(m + n : ℕ), k⟩) f :=
    fun f => map_combine (LinearMap.fst p.Field E (Faithful p)) _ _ f
  have hsecond : ∀ f, (combine (dim p (m + n : ℕ)) φ f).2 = O.denote (m + n : ℕ) f :=
    fun f => map_combine (LinearMap.snd p.Field E (Faithful p)) _ _ f
  have hindependent : LinearIndependent p.Field fun k : Fin (dim p (m + n : ℕ)) => φ k :=
    linearIndependent_of_combine fun f hf hzero => Faithful.denote_injective hp htracked hf (by rw [← hsecond, hzero]; rfl)
  have hmem := hpair.mul_mem hp hbound hlt' (hpair.value_mem hp hbound ha (by omega)) (hpair.value_mem hp hbound hb (by omega))
  obtain ⟨f, hf, hvalue⟩ := hpair.exists_combine_eq hp hbound hlt' hindependent hmem
  -- The second components say that the coordinates are those of the product.
  have hmul := O.denote_mul hp hbound ha hb (show (m : ℤ) + n < bound by omega)
  have hspace := Milnor.mul_mem p (⟨m, i⟩ : Operation) ⟨n, j⟩
  simp only [hsum] at hmul hspace
  have hzero : O.denote (m + n : ℕ) (f - mul p ⟨m, i⟩ ⟨n, j⟩) = 0 := by
    rw [map_sub, hmul, ← hsecond, hvalue]
    exact sub_self _
  have hcoords := Faithful.denote_injective hp htracked (Submodule.sub_mem _ hf hspace) hzero
  rw [← sub_eq_zero.mp hcoords, ← hfirst, hvalue]
  rfl

end Milnor
end Steenrod
