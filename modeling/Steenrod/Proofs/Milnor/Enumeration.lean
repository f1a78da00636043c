import Steenrod.Proofs.Milnor.Degree
import Steenrod.Proofs.Milnor.Structure
/-!
The enumeration of the basis. Main statements: the basis of a degree below the tracked bound consists of all elements
`Q(E) P(R)` of that degree, each once.
-/
namespace Steenrod
namespace Milnor

theorem index_bump (i : ℕ) (l : List ℕ) : index (bump i l) = index l + Finsupp.single i 1 := by
  induction i generalizing l with
  | zero =>
    refine ext_raise ?_ fun k => ?_
    · cases l <;> simp [bump, index_apply]
    · cases l <;> simp [bump, index_apply]
  | succ i ih =>
    refine ext_raise ?_ fun k => ?_
    · cases l <;> simp [bump, index_apply]
    · cases l with
      | nil =>
        have h := DFunLike.congr_fun (ih []) k
        simpa [bump, index_apply, Finsupp.single_apply] using h
      | cons x l =>
        have h := DFunLike.congr_fun (ih l) k
        simpa [bump, index_apply, Finsupp.single_apply] using h

theorem length_bump {i : ℕ} {l : List ℕ} (h : l.length ≤ i + 1) : (bump i l).length = i + 1 := by
  induction i generalizing l with
  | zero =>
    match l with
    | [] => rfl
    | [x] => rfl
  | succ i ih =>
    cases l with
    | nil => simp [bump, ih]
    | cons x l =>
      rw [bump, List.length_cons, ih (by simpa using h)]

theorem trimmed_bump {i : ℕ} {l : List ℕ} (h : l.length ≤ i + 1) : Trimmed (bump i l) := by
  induction i generalizing l with
  | zero =>
    match l with
    | [] => rfl
    | [x] => simp [Trimmed, bump, trim]
  | succ i ih =>
    have hcons : ∀ (x : ℕ) {m : List ℕ}, m.length ≤ i + 1 → Trimmed (x :: bump i m) := by
      intro x m hm
      have htrim : trim (bump i m) = bump i m := ih hm
      have hne : bump i m ≠ [] := by
        intro hnil
        have := length_bump hm
        simp [hnil] at this
      rw [Trimmed, trim, htrim]
      split
      · next hnil => exact absurd hnil hne
      · rfl
    cases l with
    | nil => exact hcons 0 (by simp)
    | cons x l => exact hcons x (by simpa using h)

theorem length_trim_le (l : List ℕ) : (trim l).length ≤ l.length := by
  induction l with
  | nil => simp [trim]
  | cons x l ih =>
    rw [trim]
    split
    · split <;> simp
    · simpa using ih

theorem length_le_of_index {l : List ℕ} (hl : Trimmed l) {n : ℕ} (h : ∀ i, n ≤ i → index l i = 0) : l.length ≤ n := by
  obtain ⟨m, hm, hindex⟩ := exists_index_eq h
  rw [← hl, ← trim_eq_of_index_eq hindex, ← hm]
  exact length_trim_le m

/-- A sequence without trailing zeros arises from one that is less in its last place. -/
theorem exists_bump_eq {l : List ℕ} (hl : Trimmed l) (hne : l ≠ []) :
    ∃ i m, Trimmed m ∧ m.length ≤ i + 1 ∧ bump i m = l := by
  obtain ⟨i, hi⟩ : ∃ i, l.length = i + 1 := Nat.exists_eq_add_one.mpr (List.length_pos_iff.mpr hne)
  have hbeyond : ∀ k, i + 1 ≤ k → index l k = 0 := fun k hk => index_of_length_le (by omega)
  have hlast : index l i ≠ 0 := by
    intro hzero
    have := length_le_of_index hl (n := i) fun k hk => by
      rcases Nat.eq_or_lt_of_le hk with rfl | hlt
      · exact hzero
      · exact hbeyond k hlt
    omega
  obtain ⟨m, hm, hindex⟩ := exists_index_eq (n := i + 1) (T := index l - Finsupp.single i 1) fun k hk => by
    rw [Finsupp.tsub_apply, hbeyond k hk, Nat.zero_sub]
  have hlen : (trim m).length ≤ i + 1 := hm ▸ length_trim_le m
  refine ⟨i, trim m, trimmed_trim m, hlen, (trimmed_bump hlen).eq hl ?_⟩
  rw [index_bump, index_trim, hindex, add_single_of_ne_zero hlast]

theorem getElem?_takeWhile {α : Type} [LinearOrder α] {l : List α} (hl : l.Pairwise (· < ·)) {n w : α} {i : ℕ} :
    (l.takeWhile (· ≤ n))[i]? = some w ↔ l[i]? = some w ∧ w ≤ n := by
  induction l generalizing i with
  | nil => simp
  | cons x l ih =>
    obtain ⟨hx, hl⟩ := List.pairwise_cons.mp hl
    by_cases hn : x ≤ n
    · rw [List.takeWhile_cons_of_pos (by simpa using hn)]
      cases i with
      | zero =>
        simp only [List.getElem?_cons_zero, Option.some.injEq]
        exact ⟨fun h => ⟨h, h ▸ hn⟩, And.left⟩
      | succ i => simpa using ih hl
    · rw [List.takeWhile_cons_of_neg (by simpa using hn)]
      simp only [List.getElem?_nil, reduceCtorEq, false_iff, not_and]
      cases i with
      | zero =>
        simp only [List.getElem?_cons_zero, Option.some.injEq]
        rintro rfl
        exact hn
      | succ i =>
        rw [List.getElem?_cons_succ]
        exact fun h hle => hn (le_trans (hx w (List.mem_of_getElem? h)).le hle)

section Weights

variable {p : Prime} {weights : List ℕ} {bound : ℕ}

/-- The weights of all places that a sequence of weight below the bound can use. -/
structure WeightsBelow (p : Prime) (bound : ℕ) (weights : List ℕ) : Prop where
  getElem?_eq : ∀ i, placeWeight p i < bound → weights[i]? = some (placeWeight p i)
  eq_placeWeight : ∀ i w, weights[i]? = some w → w = placeWeight p i

theorem placeWeight_lt {i j : ℕ} (h : i < j) : placeWeight p i < placeWeight p j :=
  Finset.sum_lt_sum_of_subset (Finset.range_subset_range.mpr (by omega)) (i := j) (by simp) (by simp; omega)
    (Nat.pow_pos p.pos) fun _ _ _ => Nat.zero_le _

theorem WeightsBelow.sorted (h : WeightsBelow p bound weights) : weights.Pairwise (· < ·) := by
  refine List.pairwise_iff_getElem.mpr fun i j hi hj hij => ?_
  rw [h.eq_placeWeight i _ (List.getElem?_eq_getElem hi), h.eq_placeWeight j _ (List.getElem?_eq_getElem hj)]
  exact placeWeight_lt hij

theorem placeWeight_pos (i : ℕ) : 0 < placeWeight p i :=
  Finset.sum_pos (fun _ _ => Nat.pow_pos p.pos) ⟨0, by simp⟩

theorem index_of_weight {R : List ℕ} (h : weight p (index R) = 0) : index R = index [] := by
  ext i
  by_contra hne
  have hle := Finset.single_le_sum (f := fun i => index R i * placeWeight p i) (fun _ _ => Nat.zero_le _)
    (Finsupp.mem_support_iff.mpr hne)
  have hpos := Nat.mul_pos (Nat.pos_of_ne_zero hne) (placeWeight_pos (p := p) i)
  have hsum : weight p (index R) = ∑ i ∈ (index R).support, index R i * placeWeight p i := rfl
  omega

/-- The enumeration of sequences finds those without trailing zeros that have the weight, and each once. -/
theorem mem_exponents (hw : WeightsBelow p bound weights) {n : ℕ} (hn : n < bound) (l : List ℕ) :
    l ∈ exponents weights n ↔ Trimmed l ∧ weight p (index l) = n := by
  induction n using Nat.strong_induction_on generalizing l with
  | h n ih =>
    have hplaces : ∀ w i, (w, i) ∈ (weights.takeWhile (· ≤ n)).zipIdx ↔ w = placeWeight p i ∧ w ≤ n := by
      intro w i
      rw [List.mk_mem_zipIdx_iff_getElem?, getElem?_takeWhile hw.sorted]
      constructor
      · rintro ⟨h, hle⟩
        exact ⟨hw.eq_placeWeight i w h, hle⟩
      · rintro ⟨rfl, hle⟩
        exact ⟨hw.getElem?_eq i (by omega), hle⟩
    have hearlier : ∀ w m, 0 < w → w ≤ n → (m ∈ (if _h : n - w < n then exponents weights (n - w) else []) ↔
        Trimmed m ∧ weight p (index m) + w = n) := by
      intro w m hpos hle
      rw [dif_pos (by omega), ih (n - w) (by omega) (by omega) m]
      exact and_congr_right fun _ => by omega
    rw [exponents, exponentRow, List.mem_append, List.mem_flatMap]
    constructor
    · rintro (h | ⟨⟨w, i⟩, hwi, h⟩)
      · split at h
        · next hzero =>
          rw [List.mem_singleton.mp h, hzero]
          exact ⟨rfl, weight_zero⟩
        · simp at h
      · obtain ⟨m, hm, rfl⟩ := List.mem_map.mp h
        obtain ⟨hm, hlen⟩ := List.mem_filter.mp hm
        obtain ⟨rfl, hle⟩ := (hplaces w i).mp hwi
        obtain ⟨_, hweight⟩ := (hearlier _ m (placeWeight_pos i) hle).mp hm
        refine ⟨trimmed_bump (by simpa using hlen), ?_⟩
        rw [index_bump, weight_add, weight_single, Nat.one_mul, hweight]
    · rintro ⟨hl, hweight⟩
      by_cases hne : l = []
      · left
        rw [hne, ← hweight, hne]
        simp [weight_zero]
      · right
        obtain ⟨i, m, hm, hlen, rfl⟩ := exists_bump_eq hl hne
        rw [index_bump, weight_add, weight_single, Nat.one_mul] at hweight
        have hle : placeWeight p i ≤ n := by omega
        exact ⟨(placeWeight p i, i), (hplaces _ i).mpr ⟨rfl, hle⟩, List.mem_map.mpr
          ⟨m, List.mem_filter.mpr ⟨(hearlier _ m (placeWeight_pos i) hle).mpr ⟨hm, hweight⟩, by simpa using hlen⟩, rfl⟩⟩

theorem nodup_exponents (hw : WeightsBelow p bound weights) {n : ℕ} (hn : n < bound) : (exponents weights n).Nodup := by
  induction n using Nat.strong_induction_on with
  | h n ih =>
    rw [exponents, exponentRow, List.nodup_append]
    have hrow : ∀ m, (if _h : m < n then exponents weights m else []).Nodup := by
      intro m
      split
      · next h => exact ih m h (by omega)
      · simp
    have htrimmed : ∀ m, ∀ l ∈ (if _h : m < n then exponents weights m else []), Trimmed l := by
      intro m l hl
      split at hl
      · exact ((mem_exponents hw (by omega) l).mp hl).1
      · simp at hl
    refine ⟨by split <;> simp, List.nodup_flatMap.mpr ⟨fun wi _ => ?_, ?_⟩, ?_⟩
    · refine List.Nodup.map_on (fun l hl m hm h => ?_) ((hrow _).filter _)
      have hindex := congrArg index h
      rw [index_bump, index_bump, add_left_inj] at hindex
      exact (htrimmed _ l (List.mem_of_mem_filter hl)).eq (htrimmed _ m (List.mem_of_mem_filter hm)) hindex
    · -- The place is the last one of the sequence.
      have hdistinct := List.pairwise_map.mp (List.nodup_zipIdx_map_snd (weights.takeWhile (· ≤ n)))
      refine hdistinct.imp fun {x y} hne => List.disjoint_left.mpr fun l hl hl' => hne ?_
      obtain ⟨m, hm, rfl⟩ := List.mem_map.mp hl
      obtain ⟨m', hm', hlen⟩ := List.mem_map.mp hl'
      have hl := length_bump (of_decide_eq_true (List.mem_filter.mp hm).2)
      have hl' := length_bump (of_decide_eq_true (List.mem_filter.mp hm').2)
      rw [hlen] at hl'
      omega
    · intro l hl m hm hlm
      obtain ⟨x, _, hm⟩ := List.mem_flatMap.mp hm
      obtain ⟨k, hk, rfl⟩ := List.mem_map.mp hm
      have hlen := length_bump (of_decide_eq_true (List.mem_filter.mp hk).2)
      rw [← hlm] at hlen
      split at hl
      · rw [List.mem_singleton.mp hl] at hlen
        simp at hlen
      · simp at hl

end Weights


variable {p : Prime}

/-- Where all generators of the dual are tracked. -/
def trackedBelow : ℕ := 33554431

theorem signed_eq (hp : p.val < 1073741824) : p.signed = p.val :=
  signed32_of_small (by unfold maxSigned; omega)

theorem q_eq (hp : p.val < 1073741824) : p.q = step p := by
  have := p.two_le
  unfold Prime.q step
  rw [signed_eq hp]
  split <;> omega

theorem step_pos (p : Prime) : 0 < step p := by
  have := p.two_le
  unfold step
  split <;> omega

theorem placeWeight_succ (i : ℕ) : placeWeight p (i + 1) = placeWeight p i + p.val ^ i * p.val := by
  rw [placeWeight, Finset.sum_range_succ, placeWeight, pow_succ]

theorem two_pow_le_placeWeight (p : Prime) (i : ℕ) : 2 ^ (i + 1) ≤ placeWeight p i + 1 := by
  induction i with
  | zero => simp [placeWeight]
  | succ i ih =>
    have hpow : 2 ^ i ≤ p.val ^ i := Nat.pow_le_pow_left p.two_le i
    have hmul := Nat.mul_le_mul hpow p.two_le
    rw [placeWeight_succ, pow_succ]
    omega

theorem getElem?_xiFrom {fuel i : ℕ} (j : ℕ) (w : ℤ) :
    (Prime.xiFrom p.val fuel (placeWeight p i) (p.val ^ i : ℕ))[j]? = some w ↔
      j < fuel ∧ w = placeWeight p (i + j) ∧ (placeWeight p (i + j) : ℤ) * max (2 * (p.val : ℤ) - 2) 1 < maxSigned := by
  induction fuel generalizing i j with
  | zero => simp [Prime.xiFrom]
  | succ fuel ih =>
    have hone : (1 : ℤ) ≤ max (2 * (p.val : ℤ) - 2) 1 := le_max_right _ _
    have hpower : ((p.val ^ i : ℕ) : ℤ) * p.val = (p.val ^ (i + 1) : ℕ) := by
      rw [pow_succ]
      norm_cast
    have hdegree : (placeWeight p i : ℤ) + ((p.val ^ i : ℕ) : ℤ) * p.val = placeWeight p (i + 1) := by
      rw [placeWeight_succ]
      norm_cast
    rw [Prime.xiFrom, hdegree, hpower]
    split
    · next hlt =>
      have hsigned : (placeWeight p i : ℤ) ≤ maxSigned :=
        le_trans (le_mul_of_one_le_right (Int.natCast_nonneg _) hone) hlt.le
      rw [signed32_of_small hsigned]
      cases j with
      | zero => simp [hlt, eq_comm]
      | succ j =>
        rw [List.getElem?_cons_succ, ih, (by omega : i + 1 + j = i + (j + 1))]
        exact and_congr_left fun _ => by omega
    · next hge =>
      have hmono : placeWeight p i ≤ placeWeight p (i + j) := by
        cases j with
        | zero => exact le_rfl
        | succ j => exact (placeWeight_lt (by omega)).le
      have hle : (placeWeight p i : ℤ) * max (2 * (p.val : ℤ) - 2) 1 ≤ (placeWeight p (i + j) : ℤ) * max (2 * (p.val : ℤ) - 2) 1 :=
        mul_le_mul_of_nonneg_right (by exact_mod_cast hmono) (by omega)
      simp only [List.getElem?_nil, reduceCtorEq, false_iff, not_and]
      omega

theorem getElem?_tauFrom {fuel i : ℕ} (j : ℕ) (w : ℤ) :
    (Prime.tauFrom p.val fuel (p.val ^ i : ℕ))[j]? = some w ↔
      j < fuel ∧ w = tauDegree p (i + j) ∧ (tauDegree p (i + j) : ℤ) < maxSigned := by
  induction fuel generalizing i j with
  | zero => simp [Prime.tauFrom]
  | succ fuel ih =>
    have hpos : 0 < p.val ^ i := Nat.pow_pos p.pos
    have hdim : 2 * ((p.val ^ i : ℕ) : ℤ) - 1 = tauDegree p i := by
      unfold tauDegree
      omega
    have hnext : ((p.val ^ i : ℕ) : ℤ) * p.val = (p.val ^ (i + 1) : ℕ) := by
      rw [pow_succ]
      norm_cast
    rw [Prime.tauFrom, hdim, hnext]
    split
    · next hlt =>
      rw [signed32_of_small hlt.le]
      cases j with
      | zero => simp [hlt, eq_comm]
      | succ j =>
        rw [List.getElem?_cons_succ, ih, (by omega : i + 1 + j = i + (j + 1))]
        exact and_congr_left fun _ => by omega
    · next hge =>
      have hmono : tauDegree p i ≤ tauDegree p (i + j) := by
        have : p.val ^ i ≤ p.val ^ (i + j) := Nat.pow_le_pow_right p.pos (by omega)
        unfold tauDegree
        omega
      simp only [List.getElem?_nil, reduceCtorEq, false_iff, not_and]
      omega


theorem getElem?_xiDegrees (hp : p.val < 1073741824) (j : ℕ) (w : ℤ) :
    p.xiDegrees[j]? = some w ↔ j < 24 ∧ w = placeWeight p j ∧ (placeWeight p j : ℤ) * max (2 * (p.val : ℤ) - 2) 1 < maxSigned := by
  have h : (Prime.xiFrom p.val 24 (placeWeight p 0) (p.val ^ 0 : ℕ))[j]? = some w ↔ _ := getElem?_xiFrom j w
  rw [Nat.zero_add] at h
  rw [← h, Prime.xiDegrees, signed_eq hp]
  rfl

theorem weightsBelow (hp : p.val < 1073741824) : WeightsBelow p ((trackedBelow - 1) / step p + 1) (weights p) := by
  have hxi := getElem?_xiDegrees hp
  constructor
  · intro i hi
    have hstep := step_pos p
    have hle : step p * placeWeight p i < trackedBelow := by
      have h₁ := Nat.mul_le_mul_left (step p) (Nat.le_of_lt_succ hi)
      have h₂ := Nat.mul_div_le (trackedBelow - 1) (step p)
      have h₃ : 0 < trackedBelow := by decide
      omega
    have hfew : i < 24 := by
      by_contra hge
      have h₁ := two_pow_le_placeWeight p i
      have h₂ : 2 ^ 25 ≤ 2 ^ (i + 1) := Nat.pow_le_pow_right (by decide) (by omega)
      have h₃ := Nat.le_mul_of_pos_left (placeWeight p i) hstep
      unfold trackedBelow at hle
      omega
    have hroom : (placeWeight p i : ℤ) * max (2 * (p.val : ℤ) - 2) 1 < maxSigned := by
      have hmax : max (2 * (p.val : ℤ) - 2) 1 ≤ 2 * step p := by
        have := p.two_le
        have hodd : p.isOdd = false → p.val = 2 := fun h => by simpa [Prime.isOdd] using h
        unfold step
        split
        · omega
        · next h =>
          rw [hodd (by simpa using h)]
          decide
      have hmul := mul_le_mul_of_nonneg_left hmax (Int.natCast_nonneg (placeWeight p i))
      have hle : (step p : ℤ) * placeWeight p i < 33554431 := by exact_mod_cast hle
      unfold maxSigned
      linarith
    rw [weights, List.getElem?_map, (hxi i _).mpr ⟨hfew, rfl, hroom⟩, Option.map_some, Int.toNat_natCast]
  · intro i w h
    rw [weights, List.getElem?_map, Option.map_eq_some_iff] at h
    obtain ⟨v, hv, rfl⟩ := h
    rw [((hxi i v).mp hv).2.1, Int.toNat_natCast]

theorem getElem?_tauDegrees (hp : p.val < 1073741824) (j : ℕ) (w : ℤ) :
    p.tauDegrees[j]? = some w ↔ j < 24 ∧ w = tauDegree p j ∧ (tauDegree p j : ℤ) < maxSigned := by
  have h : (Prime.tauFrom p.val 24 (p.val ^ 0 : ℕ))[j]? = some w ↔ _ := getElem?_tauFrom j w
  rw [Nat.zero_add] at h
  rw [← h, Prime.tauDegrees, signed_eq hp]
  rfl

theorem mem_sequences (hp : p.val < 1073741824) {n : ℕ} (hn : step p * n < trackedBelow) (l : List ℕ) :
    l ∈ sequences p n ↔ Trimmed l ∧ weight p (index l) = n := by
  rw [sequences]
  refine mem_exponents (weightsBelow hp) ?_ l
  rw [Nat.lt_succ_iff, Nat.le_div_iff_mul_le (step_pos p), Nat.mul_comm]
  omega

theorem lt_of_tauDegree_lt_tracked {k : ℕ} (h : tauDegree p k < trackedBelow) : k < 24 := by
  have hpow : 2 ^ k ≤ p.val ^ k := Nat.pow_le_pow_left p.two_le k
  have hlt : 2 ^ k < 2 ^ 24 := by
    unfold tauDegree trackedBelow at h
    omega
  exact (Nat.pow_lt_pow_iff_right (by decide)).mp hlt

theorem tauDegrees_of_lt (hp : p.val < 1073741824) {k : ℕ} (h : tauDegree p k < trackedBelow) :
    p.tauDegrees[k]? = some (tauDegree p k : ℤ) := by
  refine (getElem?_tauDegrees hp k _).mpr ⟨lt_of_tauDegree_lt_tracked h, rfl, ?_⟩
  unfold maxSigned
  unfold trackedBelow at h
  omega

theorem tauDegree_strictMono : StrictMono (tauDegree p) := by
  intro i j h
  have hpow : p.val ^ i < p.val ^ j := Nat.pow_lt_pow_right p.two_le h
  have hpos : 0 < p.val ^ i := Nat.pow_pos p.pos
  unfold tauDegree
  omega

/-- The number of exterior factors that can occur in a degree. -/
theorem lt_length_tauDegrees_takeWhile (hp : p.val < 1073741824) {d : ℕ} (hd : d < trackedBelow) (k : ℕ) :
    k < (p.tauDegrees.takeWhile (· ≤ (d : ℤ))).length ↔ tauDegree p k ≤ d := by
  have hsorted : p.tauDegrees.Pairwise (· < ·) := by
    refine List.pairwise_iff_getElem.mpr fun i j hi hj hij => ?_
    rw [((getElem?_tauDegrees hp i _).mp (List.getElem?_eq_getElem hi)).2.1,
      ((getElem?_tauDegrees hp j _).mp (List.getElem?_eq_getElem hj)).2.1]
    exact_mod_cast tauDegree_strictMono hij
  constructor
  · intro h
    obtain ⟨hk, hle⟩ := (getElem?_takeWhile hsorted).mp (List.getElem?_eq_getElem h)
    rw [((getElem?_tauDegrees hp k _).mp hk).2.1] at hle
    exact_mod_cast hle
  · intro h
    have hget := (getElem?_takeWhile (n := (d : ℤ)) hsorted).mpr
      ⟨tauDegrees_of_lt hp (lt_of_le_of_lt h hd), by exact_mod_cast h⟩
    exact (List.getElem?_eq_some_iff.mp hget).1

theorem degreeSum_cast (l : List ℕ) : degreeSum (l.map fun n : ℕ => (n : ℤ)) = (l.sum : ℕ) := by
  unfold degreeSum
  induction l with
  | nil => rfl
  | cons n l ih => simp [ih]

theorem mapM_tauDegrees {ks : List ℕ} (h : ∀ k ∈ ks, p.tauDegrees[k]? = some (tauDegree p k : ℤ)) :
    (ks.mapM fun k => p.tauDegrees[k]?) = some ((ks.map (tauDegree p)).map fun n : ℕ => (n : ℤ)) := by
  induction ks with
  | nil => rfl
  | cons k ks ih =>
    rw [List.mapM_cons, h k (by simp), ih fun l hl => h l (by simp [hl])]
    rfl

theorem exteriorDegree?_eq (hp : p.val < 1073741824) {mask : ℕ} (h : ∀ k ∈ members mask, tauDegree p k < trackedBelow) :
    exteriorDegree? p mask = some (((members mask).map (tauDegree p)).sum : ℤ) := by
  rw [exteriorDegree?, mapM_tauDegrees fun k hk => tauDegrees_of_lt hp (h k hk), Option.map_some, degreeSum_cast]

theorem lt_two_pow_iff {mask n : ℕ} : mask < 2 ^ n ↔ ∀ k, mask.testBit k = true → k < n := by
  constructor
  · intro h k hk
    by_contra hle
    have := Nat.testBit_lt_two_pow (lt_of_lt_of_le h (Nat.pow_le_pow_right (by decide) (not_lt.mp hle)))
    simp [this] at hk
  · intro h
    refine Nat.lt_pow_two_of_testBit mask fun k hk => ?_
    by_contra hbit
    have := h k (by simpa using hbit)
    omega

theorem tauDegree_le_of_mem {mask k d : ℕ} (hk : k ∈ members mask)
    (h : ((members mask).map (tauDegree p)).sum ≤ d) : tauDegree p k ≤ d :=
  le_trans (List.single_le_sum (fun _ _ => Nat.zero_le _) _ (List.mem_map_of_mem hk)) h

theorem exteriorDegree_of_lt (hp : p.val < 1073741824) {d mask : ℕ} (hd : d < trackedBelow)
    (hmask : mask < 2 ^ (p.tauDegrees.takeWhile (· ≤ (d : ℤ))).length) :
    exteriorDegree p mask = (((members mask).map (tauDegree p)).sum : ℕ) := by
  have htracked : ∀ k ∈ members mask, tauDegree p k < trackedBelow := fun k hk => by
    have := (lt_length_tauDegrees_takeWhile hp hd k).mp (lt_two_pow_iff.mp hmask k (mem_members.mp hk).2)
    omega
  rw [exteriorDegree, exteriorDegree?_eq hp htracked, Option.getD_some]

/-- The basis of a degree consists of all elements `Q(E) P(R)` that lie there. -/
theorem mem_basis (hp : p.val < 1073741824) {d : ℕ} (hd : d < trackedBelow) (x : MilnorElement) :
    x ∈ basis p d ↔ x.Proper p ∧ x.degree p = d := by
  have hdim : x.degree p = ((members x.exterior).map (tauDegree p)).sum + step p * weight p (index x.exponents) := rfl
  have hstep := step_pos p
  rw [basis, basisRow]
  split
  · next hodd =>
    have hcount := lt_length_tauDegrees_takeWhile hp hd
    simp only [List.mem_toArray, List.mem_flatMap, List.mem_range, Nat.one_shiftLeft]
    constructor
    · rintro ⟨mask, hmask, hx⟩
      have hbits := lt_two_pow_iff.mp hmask
      rw [exteriorDegree_of_lt hp hd hmask, q_eq hp] at hx
      split at hx
      · next hrest =>
        obtain ⟨n, hn⟩ : ∃ n : ℕ, (d : ℤ) - (((members mask).map (tauDegree p)).sum : ℕ) = ((step p * n : ℕ) : ℤ) := by
          obtain ⟨n, hn⟩ := Int.dvd_of_emod_eq_zero hrest.2
          have hn₀ : 0 ≤ n := by
            by_contra hneg
            have := mul_neg_of_pos_of_neg (show (0 : ℤ) < step p by exact_mod_cast hstep) (not_le.mp hneg)
            omega
          obtain ⟨m, rfl⟩ := Int.eq_ofNat_of_zero_le hn₀
          exact ⟨m, by rw [hn, Nat.cast_mul]⟩
        rw [hn, Nat.cast_mul, Int.mul_ediv_cancel_left _ (by omega), Int.toNat_natCast] at hx
        obtain ⟨r, hr, rfl⟩ := List.mem_map.mp hx
        obtain ⟨htrim, hweight⟩ := (mem_sequences hp (by omega) r).mp hr
        refine ⟨⟨htrim, ?_, fun h => absurd hodd (by simp [h])⟩, ?_⟩
        · exact lt_two_pow_iff.mpr fun k hk => by
            have := lt_of_tauDegree_lt_tracked (p := p) (lt_of_le_of_lt ((hcount k).mp (hbits k hk)) hd)
            omega
        · calc MilnorElement.degree p ⟨mask, r⟩ = ((members mask).map (tauDegree p)).sum + step p * weight p (index r) := rfl
            _ = d := by rw [hweight]; omega
      · simp at hx
    · rintro ⟨hproper, hx⟩
      have hsum : ((members x.exterior).map (tauDegree p)).sum ≤ d := by omega
      refine ⟨x.exterior, ?_, ?_⟩
      · refine lt_two_pow_iff.mpr fun k hk => (hcount k).mpr ?_
        exact tauDegree_le_of_mem (mem_members.mpr ⟨lt_two_pow_iff.mp hproper.exterior_lt k hk, hk⟩) hsum
      · have hrest : (d : ℤ) - (((members x.exterior).map (tauDegree p)).sum : ℕ) =
            ((step p * weight p (index x.exponents) : ℕ) : ℤ) := by omega
        have htracked : ∀ k ∈ members x.exterior, tauDegree p k < trackedBelow := fun k hk =>
          lt_of_le_of_lt (tauDegree_le_of_mem hk hsum) hd
        rw [exteriorDegree, exteriorDegree?_eq hp htracked, Option.getD_some, q_eq hp, hrest, if_pos, Nat.cast_mul,
          Int.mul_ediv_cancel_left _ (by omega), Int.toNat_natCast]
        · exact List.mem_map.mpr ⟨x.exponents, (mem_sequences hp (by omega) _).mpr ⟨hproper.trimmed, rfl⟩, rfl⟩
        · rw [Nat.cast_mul]
          exact ⟨by positivity, Int.mul_emod_right _ _⟩
  · next heven =>
    have hone : step p = 1 := if_neg heven
    simp only [List.mem_toArray, List.mem_map, mem_sequences hp (show step p * d < trackedBelow by rw [hone]; omega)]
    constructor
    · rintro ⟨r, ⟨htrim, hweight⟩, rfl⟩
      refine ⟨⟨htrim, by norm_num, fun _ => rfl⟩, ?_⟩
      have hnone : members 0 = [] := by decide
      simp only [hnone] at hdim
      simpa [hone, hweight] using hdim
    · rintro ⟨hproper, hx⟩
      have hzero := hproper.exterior_eq_zero (by simpa using heven)
      have hnone : members 0 = [] := by decide
      refine ⟨x.exponents, ⟨hproper.trimmed, ?_⟩, by rw [← hzero]⟩
      rw [hzero, hnone, hone] at hdim
      simpa [hx] using hdim.symm


theorem nodup_sequences (hp : p.val < 1073741824) {n : ℕ} (hn : step p * n < trackedBelow) : (sequences p n).Nodup := by
  rw [sequences]
  refine nodup_exponents (weightsBelow hp) ?_
  rw [Nat.lt_succ_iff, Nat.le_div_iff_mul_le (step_pos p), Nat.mul_comm]
  omega

theorem nodup_basis (hp : p.val < 1073741824) {d : ℕ} (hd : d < trackedBelow) : (basis p d).toList.Nodup := by
  have hinj : ∀ mask : ℕ, Function.Injective fun r : List ℕ => (⟨mask, r⟩ : MilnorElement) := fun mask r s h => by
    simpa using h
  rw [basis, basisRow]
  split
  · rw [List.toList_toArray, List.nodup_flatMap]
    refine ⟨fun mask hmask => ?_, List.nodup_range.imp fun {mask mask'} hne => List.disjoint_left.mpr fun x hx hx' => hne ?_⟩
    · dsimp only
      split
      · next hrest =>
        refine (nodup_sequences hp ?_).map (hinj mask)
        have hmask : mask < 2 ^ (p.tauDegrees.takeWhile (· ≤ (d : ℤ))).length := by simpa [Nat.one_shiftLeft] using hmask
        rw [exteriorDegree_of_lt hp hd hmask, q_eq hp] at hrest ⊢
        obtain ⟨n, hn⟩ := Int.eq_ofNat_of_zero_le (Int.ediv_nonneg hrest.1 (Int.natCast_nonneg (step p)))
        have hle := Int.mul_ediv_self_le (x := (d : ℤ) - (((members mask).map (tauDegree p)).sum : ℕ)) (k := (step p : ℤ))
          (by have := step_pos p; omega)
        rw [hn] at hle ⊢
        rw [Int.toNat_natCast]
        have hnat : ((step p * n : ℕ) : ℤ) ≤ d := by
          rw [Nat.cast_mul]
          omega
        omega
      · simp
    · have hexterior : ∀ m, x ∈ (if 0 ≤ (d : ℤ) - exteriorDegree p m ∧ ((d : ℤ) - exteriorDegree p m) % p.q = 0 then
          (sequences p (((d : ℤ) - exteriorDegree p m) / p.q).toNat).map (fun r => (⟨m, r⟩ : MilnorElement)) else []) →
          x.exterior = m := by
        intro m hm
        split at hm
        · obtain ⟨r, _, rfl⟩ := List.mem_map.mp hm
          rfl
        · simp at hm
      rw [← hexterior mask hx, ← hexterior mask' hx']
  · next heven =>
    have hone : step p = 1 := if_neg heven
    rw [List.toList_toArray]
    exact (nodup_sequences hp (by rw [hone]; omega)).map (hinj 0)

end Milnor
end Steenrod
