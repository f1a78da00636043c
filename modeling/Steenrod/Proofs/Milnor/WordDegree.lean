import Steenrod.Proofs.Milnor.Coproduct
/-!
Degrees that are found in signed words. Main statements: a degree that is found is the degree, and the degrees below the tracked bound
are found.
-/
namespace Steenrod

theorem word?_eq_some {n m : ℤ} : word? n = some m ↔ isSigned n ∧ n = m := by
  unfold word?
  split
  · next h => simp [h]
  · next h => simp [h]

theorem le_of_word? {n m : ℤ} (h : word? n = some m) : m ≤ maxSigned := by
  obtain ⟨hsigned, rfl⟩ := word?_eq_some.mp h
  simp only [isSigned, Bool.and_eq_true, decide_eq_true_eq] at hsigned
  exact hsigned.2

theorem word?_of_nonneg {n : ℤ} (h₀ : 0 ≤ n) (h : n ≤ maxSigned) : word? n = some n := by
  refine word?_eq_some.mpr ⟨?_, rfl⟩
  simp only [isSigned, Bool.and_eq_true, decide_eq_true_eq]
  omega

namespace Milnor

variable {p : Prime}

theorem degreeSum_nonneg {l : List ℤ} (h : ∀ n ∈ l, 0 ≤ n) : 0 ≤ degreeSum l := by
  induction l with
  | nil => exact le_refl 0
  | cons n l ih =>
    have := h n (by simp)
    have := ih fun m hm => h m (by simp [hm])
    simp only [degreeSum, List.foldr_cons] at *
    omega

theorem eq_of_foldlM_word {l : List ℤ} {a s : ℤ} (h : l.foldlM (fun sum n => word? (sum + n)) a = some s) : s = a + degreeSum l := by
  induction l generalizing a with
  | nil => simpa [degreeSum] using (Option.some.inj h).symm
  | cons n l ih =>
    rw [List.foldlM_cons] at h
    obtain ⟨b, hb, h⟩ := Option.bind_eq_some_iff.mp h
    obtain ⟨_, rfl⟩ := word?_eq_some.mp hb
    have := ih h
    simp only [degreeSum, List.foldr_cons] at this ⊢
    omega

theorem eq_of_wordSum? {l : List ℤ} {s : ℤ} (h : wordSum? l = some s) : s = degreeSum l :=
  (eq_of_foldlM_word h).trans (zero_add _)

theorem foldlM_word_of_nonneg {l : List ℤ} {a : ℤ} (ha : 0 ≤ a) (h : ∀ n ∈ l, 0 ≤ n) (hmax : a + degreeSum l ≤ maxSigned) :
    l.foldlM (fun sum n => word? (sum + n)) a = some (a + degreeSum l) := by
  induction l generalizing a with
  | nil => simp [degreeSum]
  | cons n l ih =>
    have hn := h n (by simp)
    have hl : ∀ m ∈ l, 0 ≤ m := fun m hm => h m (by simp [hm])
    have hrest := degreeSum_nonneg hl
    have hsum : degreeSum (n :: l) = n + degreeSum l := rfl
    rw [hsum] at hmax ⊢
    rw [List.foldlM_cons, word?_of_nonneg (by omega) (by omega)]
    refine (ih (by omega) hl (by omega)).trans ?_
    rw [add_assoc]

theorem wordSum?_of_nonneg {l : List ℤ} (h : ∀ n ∈ l, 0 ≤ n) (hmax : degreeSum l ≤ maxSigned) : wordSum? l = some (degreeSum l) := by
  have hloop := foldlM_word_of_nonneg le_rfl h (by rwa [zero_add])
  rwa [zero_add] at hloop

theorem mapM_word_of_nonneg {l : List ℤ} (h : ∀ n ∈ l, 0 ≤ n) (hmax : degreeSum l ≤ maxSigned) : l.mapM word? = some l := by
  induction l with
  | nil => rfl
  | cons n l ih =>
    have hn := h n (by simp)
    have hl : ∀ m ∈ l, 0 ≤ m := fun m hm => h m (by simp [hm])
    have hrest := degreeSum_nonneg hl
    have hsum : degreeSum (n :: l) = n + degreeSum l := rfl
    rw [hsum] at hmax
    rw [List.mapM_cons, word?_of_nonneg hn (by omega), ih hl (by omega)]
    rfl

theorem eq_of_mapM_word {l m : List ℤ} (h : l.mapM word? = some m) : m = l := by
  induction l generalizing m with
  | nil => exact (Option.some.inj h).symm
  | cons n l ih =>
    rw [List.mapM_cons] at h
    obtain ⟨b, hb, h⟩ := Option.bind_eq_some_iff.mp h
    obtain ⟨rest, hrest, h⟩ := Option.bind_eq_some_iff.mp h
    obtain ⟨_, rfl⟩ := word?_eq_some.mp hb
    rw [← Option.some.inj h, ih hrest]

theorem exteriorDegree?_of_word {mask : ℕ} {e : ℤ} (h : exteriorWord? p mask = some e) : exteriorDegree? p mask = some e := by
  obtain ⟨degrees, hdegrees, hsum⟩ := Option.bind_eq_some_iff.mp h
  rw [exteriorDegree?, hdegrees, Option.map_some, eq_of_wordSum? hsum]

theorem powerDegree_of_word {R : List ℕ} {n : ℤ} (h : powerWord? p R = some n) : powerDegree p R = n := by
  obtain ⟨degrees, hdegrees, h⟩ := Option.bind_eq_some_iff.mp h
  obtain ⟨sum, hsum, h⟩ := Option.bind_eq_some_iff.mp h
  obtain ⟨_, rfl⟩ := word?_eq_some.mp h
  rw [eq_of_wordSum? hsum, eq_of_mapM_word hdegrees]
  rfl

/-- A degree that is found in words is the degree. -/
theorem degree_of_wordDegree? {x : MilnorElement} {d : ℤ} (h : x.wordDegree? p = some d) :
    (exteriorDegree? p x.exterior).map (· + powerDegree p x.exponents) = some d ∧ d ≤ maxSigned := by
  obtain ⟨e, he, h⟩ := Option.bind_eq_some_iff.mp h
  obtain ⟨n, hn, h⟩ := Option.bind_eq_some_iff.mp h
  refine ⟨?_, le_of_word? h⟩
  obtain ⟨_, rfl⟩ := word?_eq_some.mp h
  rw [exteriorDegree?_of_word he, Option.map_some, powerDegree_of_word hn]

theorem exteriorWord?_eq {mask : ℕ} (hplace : ∀ k ∈ members mask, p.tauDegrees[k]? = some (tauDegree p k : ℤ))
    (hmax : ((((members mask).map (tauDegree p)).sum : ℕ) : ℤ) ≤ maxSigned) :
    exteriorWord? p mask = some ((((members mask).map (tauDegree p)).sum : ℕ) : ℤ) := by
  have hnonneg : ∀ n ∈ ((members mask).map (tauDegree p)).map fun n : ℕ => (n : ℤ), 0 ≤ n := by
    intro n hn
    obtain ⟨m, _, rfl⟩ := List.mem_map.mp hn
    exact Int.natCast_nonneg m
  rw [exteriorWord?, mapM_tauDegrees hplace, Option.bind_some, wordSum?_of_nonneg hnonneg (by rwa [degreeSum_cast]), degreeSum_cast]

theorem powerWord?_eq (hp : p.val < 1073741824) {R : List ℕ}
    (hplace : ∀ i, index R i ≠ 0 → p.xiDegrees[i]? = some (placeWeight p i : ℤ))
    (hmax : ((step p * weight p (index R) : ℕ) : ℤ) ≤ maxSigned) :
    powerWord? p R = some ((step p * weight p (index R) : ℕ) : ℤ) := by
  have hstep := step_pos p
  have hweight : weight p (index R) ≤ step p * weight p (index R) := Nat.le_mul_of_pos_left _ hstep
  have hnonneg : ∀ n ∈ List.zipWith (fun (r : ℕ) d => signed32 r * d) R p.xiDegrees, 0 ≤ n := by
    intro n hn
    obtain ⟨i, hi, rfl⟩ := List.getElem_of_mem hn
    rw [List.length_zipWith, Nat.lt_min] at hi
    obtain ⟨_, hdegree, _⟩ := (getElem?_xiDegrees hp i _).mp (List.getElem?_eq_getElem hi.2)
    rw [List.getElem_zipWith, signed32_of_small (le_maxSigned_of_mem hmax _ (List.getElem_mem hi.1)), hdegree]
    exact mul_nonneg (Int.natCast_nonneg _) (Int.natCast_nonneg _)
  have hdegree := powerDegree_of_places hp hplace hmax
  rw [powerDegree, q_eq hp, Nat.cast_mul] at hdegree
  have hsum := mul_left_cancel₀ (by omega) hdegree
  rw [powerWord?, mapM_word_of_nonneg hnonneg (by omega)]
  simp only [Option.bind_eq_bind, Option.bind_some]
  rw [wordSum?_of_nonneg hnonneg (by omega), Option.bind_some, hsum, q_eq hp, ← Nat.cast_mul,
    word?_of_nonneg (Int.natCast_nonneg _) hmax]

/-- A degree that is a word is found if all that occurs has a dual generator. -/
theorem wordDegree?_of_places (hp : p.val < 1073741824) {x : MilnorElement}
    (hexterior : ∀ k ∈ members x.exterior, p.tauDegrees[k]? = some (tauDegree p k : ℤ))
    (hexponents : ∀ i, index x.exponents i ≠ 0 → p.xiDegrees[i]? = some (placeWeight p i : ℤ))
    (hmax : (x.degree p : ℤ) ≤ maxSigned) : x.wordDegree? p = some (x.degree p : ℤ) := by
  rw [MilnorElement.degree, degreeOf] at hmax ⊢
  rw [MilnorElement.wordDegree?, exteriorWord?_eq hexterior (by omega), powerWord?_eq hp hexponents (by omega)]
  simp only [Option.bind_eq_bind, Option.bind_some]
  rw [← Nat.cast_add, word?_of_nonneg (Int.natCast_nonneg _) hmax]

/-- The degrees below the tracked bound are found in words. -/
theorem wordDegree?_eq (hp : p.val < 1073741824) {x : MilnorElement} (h : x.degree p < trackedBelow) :
    x.wordDegree? p = some (x.degree p : ℤ) := by
  have hwords : (trackedBelow : ℤ) ≤ maxSigned := by decide
  have hsum : ((members x.exterior).map (tauDegree p)).sum + step p * weight p (index x.exponents) < trackedBelow := h
  refine wordDegree?_of_places hp (fun k hk => ?_) (xiDegrees_of_lt hp (by omega)) (by omega)
  exact tauDegrees_of_lt hp ((tauDegree_le_of_mem hk le_rfl).trans_lt (by omega))

/-- At odd primes the dual generators of degrees that are words are tracked. -/
theorem tauDegrees_of_le (hp : p.val < 1073741824) (hodd : p.isOdd) {k : ℕ} (h : (tauDegree p k : ℤ) ≤ maxSigned) :
    p.tauDegrees[k]? = some (tauDegree p k : ℤ) := by
  have hne : p.val ≠ 2 := by simpa [Prime.isOdd] using hodd
  have hthree := three_le hodd
  have hpow : Odd (p.val ^ k) := (p.prime.odd_of_ne_two hne).pow
  have hparity := Nat.odd_iff.mp hpow
  unfold maxSigned tauDegree at h
  refine (getElem?_tauDegrees hp k _).mpr ⟨?_, rfl, ?_⟩
  · by_contra hge
    have hlarge : 3 ^ 24 ≤ p.val ^ k := (Nat.pow_le_pow_right (by decide) (not_lt.mp hge)).trans (Nat.pow_le_pow_left hthree k)
    omega
  · -- The largest word would be the degree of a power of two.
    unfold maxSigned tauDegree
    omega

theorem wordDegree?_of_element? (hp : p.val < 1073741824) {a : Operation} {x : MilnorElement} (hx : element? p a = some x)
    (ht : a.degree < trackedBelow) : x.wordDegree? p = some a.degree := by
  have hdegree := (proper_of_element? hp hx ht).2
  rw [wordDegree?_eq hp (by omega), hdegree]

end Milnor
end Steenrod
