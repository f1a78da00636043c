import Steenrod.Proofs.Linear.Combination
import Steenrod.Milnor.Generators
/-!
The structure constants of the algebra, apart from how far its basis has been computed, and what it means that the
computed part is an associative algebra with unit. Main statement: a product that is answered has the coordinates
that the structure constants give.
-/
namespace Steenrod

open Vec

namespace Milnor

/-- The dimension in a degree. -/
def dim (p : Prime) (d : ℤ) : ℕ := if d < 0 then 0 else (basis p d.toNat).size

theorem dim_of_neg {p : Prime} {d : ℤ} (h : d < 0) : dim p d = 0 := if_pos h

/-- The basis element that an operation stands for. -/
def element? (p : Prime) (a : Operation) : Option MilnorElement :=
  if a.degree < 0 then none else (basis p a.degree.toNat)[a.index]?

def index? (p : Prime) (d : ℤ) (x : MilnorElement) : Option ℕ :=
  if d < 0 then none else (basis p d.toNat).idxOf? x

/-- The coordinate vector of a basis element in a degree, zero if it does not lie there. -/
def coordsOf (p : Prime) (d : ℤ) (x : MilnorElement) : ℕ → p.Field :=
  match index? p d x with
  | some i => Pi.single i 1
  | none => 0

/-- The coordinates of a sum of basis elements. -/
def sumCoords (p : Prime) (d : ℤ) (terms : List (ℕ × MilnorElement)) : ℕ → p.Field :=
  (terms.map fun t => (t.1 : p.Field) • coordsOf p d t.2).sum

/-- The coordinates of the product of two basis elements. -/
def mul (p : Prime) (a b : Operation) : ℕ → p.Field :=
  match element? p a, element? p b with
  | some x, some y => sumCoords p (a.degree + b.degree) (product p x y)
  | _, _ => 0

theorem takeWhile_tauDegrees (p : Prime) : p.tauDegrees.takeWhile (· ≤ (0 : ℤ)) = [] := by
  have hhead : p.tauDegrees = 1 :: Prime.tauFrom p.signed 23 (1 * p.signed) := rfl
  rw [hhead]
  rfl

theorem takeWhile_weights (p : Prime) : (weights p).takeWhile (· ≤ 0) = [] := by
  rw [weights, Prime.xiDegrees, Prime.trackedGenerators, Prime.xiFrom]
  split
  · rfl
  · rfl

theorem sequences_zero (p : Prime) : sequences p 0 = [[]] := by
  rw [sequences, exponents, exponentRow, takeWhile_weights]
  rfl

/-- In degree 0 there is the unit only, since no generator of the dual has degree 0. -/
theorem basis_zero (p : Prime) : basis p 0 = #[⟨0, []⟩] := by
  have hnone : exteriorDegree p 0 = 0 := by
    have hmembers : members 0 = [] := by decide
    rw [exteriorDegree, exteriorDegree?, hmembers]
    rfl
  rw [basis, basisRow]
  split
  · rw [Nat.cast_zero, takeWhile_tauDegrees]
    simp [hnone, sequences_zero]
  · rw [sequences_zero]
    rfl

theorem dim_zero (p : Prime) : dim p 0 = 1 := congrArg Array.size (basis_zero p)

theorem dim_sub_self_pos (p : Prime) (d : ℤ) : 0 < dim p (d - d) := by
  rw [sub_self, dim_zero]
  exact one_pos

theorem element?_zero (p : Prime) : element? p ⟨0, 0⟩ = some ⟨0, []⟩ := congrArg (·[0]?) (basis_zero p)

theorem idxOf?_eq_some {l : Array MilnorElement} {x : MilnorElement} {i : ℕ} :
    l.idxOf? x = some i ↔ ∃ h : i < l.size, l[i] = x ∧ ∀ j (_ : j < i), ¬l[j] = x := by
  obtain ⟨l⟩ := l
  simp [List.idxOf?_eq_some_iff]

theorem index?_lt {p : Prime} {d : ℤ} {x : MilnorElement} {i : ℕ} (h : index? p d x = some i) :
    i < dim p d := by
  unfold index? at h
  unfold dim
  split at h
  · simp at h
  · next hd =>
    rw [if_neg hd]
    obtain ⟨hi, _⟩ := idxOf?_eq_some.mp h
    exact hi

theorem coordsOf_mem (p : Prime) (d : ℤ) (x : MilnorElement) : coordsOf p d x ∈ p.space (dim p d) := by
  unfold coordsOf
  split
  · next i hi =>
    intro j hj
    have := index?_lt hi
    rw [Pi.single_eq_of_ne (by omega)]
  · exact Submodule.zero_mem _

theorem sumCoords_mem (p : Prime) (d : ℤ) (terms : List (ℕ × MilnorElement)) :
    sumCoords p d terms ∈ p.space (dim p d) := by
  refine list_sum_mem fun f hf => ?_
  obtain ⟨t, _, rfl⟩ := List.mem_map.mp hf
  exact Submodule.smul_mem _ _ (coordsOf_mem p d t.2)

theorem mul_mem (p : Prime) (a b : Operation) : mul p a b ∈ p.space (dim p (a.degree + b.degree)) := by
  unfold mul
  split
  · exact sumCoords_mem p _ _
  · exact Submodule.zero_mem _

end Milnor

/-- A basis element of the algebra over `p`. -/
structure Operation.IsBasis (p : Prime) (a : Operation) : Prop where
  nonneg : 0 ≤ a.degree
  index_lt : a.index < Milnor.dim p a.degree

theorem Operation.isBasis_one (p : Prime) : Operation.IsBasis p ⟨0, 0⟩ := ⟨le_rfl, one_pos.trans_eq (Milnor.dim_zero p).symm⟩

theorem Operation.IsBasis.eq_one {p : Prime} {a : Operation} (ha : a.IsBasis p) (hzero : a.degree = 0) : a = ⟨0, 0⟩ := by
  obtain ⟨d, i⟩ := a
  obtain rfl : d = 0 := hzero
  have hi := ha.index_lt
  rw [Milnor.dim_zero p] at hi
  obtain rfl : i = 0 := Nat.lt_one_iff.mp hi
  rfl

namespace Algebra

variable {A : Algebra}

theorem basisAt_of_lt {d : ℤ} (h₀ : 0 ≤ d) (h : d < A.computed) :
    A.basisAt d = .ok (Milnor.basis A.prime d.toNat) := by
  obtain ⟨n, rfl⟩ := Int.eq_ofNat_of_zero_le h₀
  have hn : n < A.computed := by exact_mod_cast h
  simpa [hn] using A.basisAt_eq n

theorem basisAt_eq_ok {d : ℤ} {row : Array MilnorElement} (h : A.basisAt d = .ok row) :
    0 ≤ d ∧ d < A.computed ∧ row = Milnor.basis A.prime d.toNat := by
  by_cases hd : d < 0
  · simp [basisAt, hd, breach] at h
  · obtain ⟨n, rfl⟩ := Int.eq_ofNat_of_zero_le (not_lt.mp hd)
    rw [A.basisAt_eq n] at h
    split at h
    · next hn =>
      refine ⟨by omega, by exact_mod_cast hn, ?_⟩
      simpa using (Except.ok.inj h).symm
    · simp [breach] at h

theorem dimension_of_lt {d : ℤ} (h : d < A.computed) : A.dimension d = .ok (Milnor.dim A.prime d) := by
  unfold dimension Milnor.dim
  split
  · rfl
  · next hd =>
    rw [basisAt_of_lt (not_lt.mp hd) h]
    rfl

theorem dimension_eq_ok {d : ℤ} {n : ℕ} (h : A.dimension d = .ok n) :
    n = Milnor.dim A.prime d ∧ (0 ≤ d → d < A.computed) := by
  by_cases hd : d < 0
  · simp only [dimension, hd, if_true, Except.ok.injEq] at h
    exact ⟨by rw [Milnor.dim_of_neg hd, h], fun h₀ => by omega⟩
  · simp only [dimension, hd, if_false] at h
    cases hrow : A.basisAt d with
    | error e => simp [hrow, Except.map] at h
    | ok row =>
      obtain ⟨_, hlt, rfl⟩ := basisAt_eq_ok hrow
      simp only [hrow, Except.map, Except.ok.injEq] at h
      exact ⟨by rw [Milnor.dim, if_neg hd, h], fun _ => hlt⟩

theorem element_eq_ok {a : Operation} {x : MilnorElement} (h : A.element a = .ok x) :
    Milnor.element? A.prime a = some x ∧ a.IsBasis A.prime ∧ a.degree < A.computed := by
  obtain ⟨row, hrow, hx⟩ := Result.bind_eq_ok.mp h
  obtain ⟨h₀, hlt, rfl⟩ := basisAt_eq_ok hrow
  have hx := Result.ofOption_eq_ok.mp hx
  obtain ⟨hi, _⟩ := Array.getElem?_eq_some_iff.mp hx
  refine ⟨by rw [Milnor.element?, if_neg (by omega), hx], ⟨h₀, ?_⟩, hlt⟩
  rwa [Milnor.dim, if_neg (by omega)]

theorem element_of_isBasis {a : Operation} (ha : a.IsBasis A.prime) (h : a.degree < A.computed) :
    ∃ x, A.element a = .ok x ∧ Milnor.element? A.prime a = some x := by
  have hi := ha.index_lt
  have h₀ := ha.nonneg
  rw [Milnor.dim, if_neg (by omega)] at hi
  refine ⟨_, ?_, by rw [Milnor.element?, if_neg (by omega), Array.getElem?_eq_getElem hi]⟩
  simp [element, basisAt_of_lt h₀ h, Array.getElem?_eq_getElem hi]

theorem indexIn_eq_ok {d : ℤ} {x : MilnorElement} {i : ℕ} (h : A.indexIn d x = .ok i) :
    Milnor.index? A.prime d x = some i ∧ d < A.computed := by
  have h := Result.ofOption_eq_ok.mp h
  unfold indexIn? at h
  split at h
  · simp at h
  · next hd =>
    obtain ⟨n, rfl⟩ := Int.eq_ofNat_of_zero_le (not_lt.mp hd)
    rw [Table.get?_eq] at h
    split at h
    · next hn =>
      refine ⟨by rw [Milnor.index?, if_neg hd]; simpa using h, ?_⟩
      exact_mod_cast hn
    · simp at h

theorem indexIn_of_index? {d : ℤ} {x : MilnorElement} {i : ℕ} (h : Milnor.index? A.prime d x = some i)
    (hd : d < A.computed) : A.indexIn d x = .ok i := by
  unfold Milnor.index? at h
  split at h
  · simp at h
  · next h₀ =>
    obtain ⟨n, rfl⟩ := Int.eq_ofNat_of_zero_le (not_lt.mp h₀)
    have hn : n < A.basis.size := by exact_mod_cast hd
    rw [indexIn, indexIn?, if_neg h₀, Table.get?_eq]
    simp only [Int.toNat_natCast] at h ⊢
    rw [if_pos hn, Option.bind_some, h]
    rfl

/-- The loop that adds up the terms of a product. -/
theorem foldlM_terms {d : ℤ} {c : ℕ} {terms : List (ℕ × MilnorElement)} {u w : Vec}
    (hw : Proper A.prime (Milnor.dim A.prime d) w)
    (h : terms.foldlM (fun v (e, z) => do
      let i ← A.indexIn d z
      (Except.ok (v.addAt A.prime i (A.prime.product c e)) : Result Vec)) w = .ok u) :
    Proper A.prime (Milnor.dim A.prime d) u ∧
      u.coords A.prime = w.coords A.prime + (c : A.prime.Field) • Milnor.sumCoords A.prime d terms := by
  induction terms generalizing w with
  | nil =>
    obtain rfl := Except.ok.inj h
    exact ⟨hw, by simp [Milnor.sumCoords]⟩
  | cons t terms ih =>
    rw [List.foldlM_cons] at h
    obtain ⟨w', hw', h⟩ := Result.bind_eq_ok.mp h
    obtain ⟨i, hi, hw'⟩ := Result.bind_eq_ok.mp hw'
    obtain rfl := Except.ok.inj hw'
    have hindex := (indexIn_eq_ok hi).1
    have hlt := Milnor.index?_lt hindex
    obtain ⟨hu, hc⟩ := ih (hw.addAt i _) h
    refine ⟨hu, ?_⟩
    rw [hc, coords_addAt (by rw [hw.size_eq]; exact hlt), Prime.cast_product, Milnor.sumCoords, Milnor.sumCoords,
      List.map_cons, List.sum_cons, smul_add, add_assoc, Milnor.coordsOf, hindex]
    congr 2
    rw [← Pi.single_smul', smul_eq_mul, ← Pi.single_smul', smul_eq_mul, mul_one]

/-- A product that is answered has the coordinates of the structure constants. -/
theorem multiply_eq_ok {a b : Operation} {c : ℕ} {u : Vec} (h : A.multiply c a b = .ok u) :
    a.IsBasis A.prime ∧ b.IsBasis A.prime ∧ a.degree + b.degree < A.computed ∧
      Proper A.prime (Milnor.dim A.prime (a.degree + b.degree)) u ∧
      u.coords A.prime = (c : A.prime.Field) • Milnor.mul A.prime a b := by
  obtain ⟨x, hx, h⟩ := Result.bind_eq_ok.mp h
  obtain ⟨y, hy, h⟩ := Result.bind_eq_ok.mp h
  obtain ⟨n, hn, h⟩ := Result.bind_eq_ok.mp h
  obtain ⟨hx, ha, _⟩ := element_eq_ok hx
  obtain ⟨hy, hb, _⟩ := element_eq_ok hy
  obtain ⟨rfl, hlt⟩ := dimension_eq_ok hn
  obtain ⟨hu, hc⟩ := foldlM_terms Proper.zero h
  refine ⟨ha, hb, hlt ?_, hu, ?_⟩
  · have := ha.nonneg
    have := hb.nonneg
    omega
  · rw [hc, coords_zero, zero_add, Milnor.mul, hx, hy]

/-- Products can be answered in the part of the algebra that is known, and multiplication is associative there. -/
structure IsAssociative (A : Algebra) : Prop where
  assoc : ∀ a b c : Operation, a.IsBasis A.prime → b.IsBasis A.prime → c.IsBasis A.prime →
    a.degree + b.degree + c.degree < A.computed →
    ∃ u v w, A.multiply 1 a b = .ok u ∧ A.multiplyBy (a.degree + b.degree) u c = .ok w ∧
      A.multiply 1 b c = .ok v ∧ A.multiplyElement 1 a (b.degree + c.degree) v = .ok w

/-- The first basis element of degree 0 is a unit for multiplication and spans that degree. -/
structure IsUnital (A : Algebra) : Prop where
  dimension_zero : 0 < A.computed → A.dimension 0 = .ok 1
  one_mul : ∀ b : Operation, b.IsBasis A.prime → b.degree < A.computed →
    A.multiply 1 ⟨0, 0⟩ b = .ok (Vec.unit (Milnor.dim A.prime b.degree) b.index)
  mul_one : ∀ b : Operation, b.IsBasis A.prime → b.degree < A.computed →
    A.multiply 1 b ⟨0, 0⟩ = .ok (Vec.unit (Milnor.dim A.prime b.degree) b.index)

theorem foldlM_congr {α β : Type} {step step' : β → α → Result β} {l : List α}
    (h : ∀ x ∈ l, ∀ w, step w x = step' w x) (w : β) : l.foldlM step w = l.foldlM step' w := by
  induction l generalizing w with
  | nil => rfl
  | cons x l ih =>
    rw [List.foldlM_cons, List.foldlM_cons, h x (by simp)]
    congr 1
    funext v
    exact ih (fun y hy => h y (by simp [hy])) v

section Restriction

variable {B : Algebra} (hp : A.prime = B.prime) (hle : A.computed ≤ B.computed)

include hp hle

/-- Products do not change as more of the algebra is computed. -/
theorem multiply_congr {a b : Operation} (ha : a.IsBasis A.prime) (hb : b.IsBasis A.prime)
    (h : a.degree + b.degree < A.computed) (c : ℕ) : A.multiply c a b = B.multiply c a b := by
  have ha₀ := ha.nonneg
  have hb₀ := hb.nonneg
  obtain ⟨x, hx, hx'⟩ := element_of_isBasis ha (by omega)
  obtain ⟨y, hy, hy'⟩ := element_of_isBasis hb (by omega)
  obtain ⟨x₁, hx₁, hx₁'⟩ := element_of_isBasis (A := B) (hp ▸ ha) (by omega)
  obtain ⟨y₁, hy₁, hy₁'⟩ := element_of_isBasis (A := B) (hp ▸ hb) (by omega)
  obtain rfl : x = x₁ := Option.some.inj (hx'.symm.trans (hp ▸ hx₁'))
  obtain rfl : y = y₁ := Option.some.inj (hy'.symm.trans (hp ▸ hy₁'))
  rw [multiply, multiply, multiplyModulo, multiplyModulo, hx, hy, hx₁, hy₁, dimension_of_lt h,
    dimension_of_lt (show a.degree + b.degree < (B.computed : ℤ) by omega), hp]
  simp only [Result.ok_bind]
  refine foldlM_congr (fun z _ w => ?_) _
  have hindex : A.indexIn (a.degree + b.degree) z.2 = B.indexIn (a.degree + b.degree) z.2 := by
    cases hi : Milnor.index? A.prime (a.degree + b.degree) z.2 with
    | some i => rw [indexIn_of_index? hi h, indexIn_of_index? (hp ▸ hi) (by omega)]
    | none =>
      have hnone : ∀ C : Algebra, C.prime = A.prime → C.indexIn (a.degree + b.degree) z.2 = breach := by
        intro C hC
        cases hj : C.indexIn? (a.degree + b.degree) z.2 with
        | none => rw [indexIn, hj]; rfl
        | some j =>
          have hok : C.indexIn (a.degree + b.degree) z.2 = .ok j := by rw [indexIn, hj]; rfl
          have := (indexIn_eq_ok hok).1
          rw [hC, hi] at this
          simp at this
      rw [hnone A rfl, hnone B hp.symm]
  rw [hindex]

theorem multiplyBy_congr {d : ℤ} {y : Vec} {b : Operation} (hy : y.size ≤ Milnor.dim A.prime d)
    (hd : 0 ≤ d) (hb : b.IsBasis A.prime) (h : d + b.degree < A.computed) : A.multiplyBy d y b = B.multiplyBy d y b := by
  rw [multiplyBy, multiplyBy, dimension_of_lt h,
    dimension_of_lt (show d + b.degree < (B.computed : ℤ) by omega), ← hp]
  simp only [Result.ok_bind]
  refine foldlM_congr (fun x hx w => ?_) _
  have hi := lt_size_of_mem_nonzero hx
  rw [multiply_congr hp hle ⟨hd, lt_of_lt_of_le hi hy⟩ hb h]

theorem multiplyElement_congr {d : ℤ} {y : Vec} {a : Operation} (hy : y.size ≤ Milnor.dim A.prime d)
    (hd : 0 ≤ d) (ha : a.IsBasis A.prime) (h : a.degree + d < A.computed) (c : ℕ) :
    A.multiplyElement c a d y = B.multiplyElement c a d y := by
  rw [multiplyElement, multiplyElement, dimension_of_lt h,
    dimension_of_lt (show a.degree + d < (B.computed : ℤ) by omega), ← hp]
  simp only [Result.ok_bind]
  refine foldlM_congr (fun x hx w => ?_) _
  have hi := lt_size_of_mem_nonzero hx
  rw [multiply_congr hp hle ha ⟨hd, lt_of_lt_of_le hi hy⟩ h]

/-- What holds of an algebra holds of the part of it that was computed before. -/
theorem IsAssociative.restrict (hB : B.IsAssociative) : A.IsAssociative where
  assoc a b c ha hb hc hd := by
    have ha₀ := ha.nonneg
    have hb₀ := hb.nonneg
    have hc₀ := hc.nonneg
    obtain ⟨u, v, w, hu, hw, hv, hw'⟩ := hB.assoc a b c (hp ▸ ha) (hp ▸ hb) (hp ▸ hc) (by omega)
    have hup := (multiply_eq_ok hu).2.2.2.1.size_eq.le
    have hvp := (multiply_eq_ok hv).2.2.2.1.size_eq.le
    rw [← hp] at hup hvp
    refine ⟨u, v, w, ?_, ?_, ?_, ?_⟩
    · rwa [multiply_congr hp hle ha hb (by omega)]
    · rwa [multiplyBy_congr hp hle hup (by omega) hc hd]
    · rwa [multiply_congr hp hle hb hc (by omega)]
    · rwa [multiplyElement_congr hp hle hvp (by omega) ha (by omega)]

theorem IsUnital.restrict (hB : B.IsUnital) : A.IsUnital where
  dimension_zero h := by
    have hdim := (dimension_eq_ok (hB.dimension_zero (by omega))).1
    rw [dimension_of_lt (by exact_mod_cast h), hp, ← hdim]
  one_mul b hb hlt := by
    have hone := hB.one_mul b (hp ▸ hb) (by omega)
    obtain ⟨ha, _⟩ := multiply_eq_ok hone
    rw [multiply_congr hp hle (hp ▸ ha) hb (by simpa using hlt), hone, hp]
  mul_one b hb hlt := by
    have hone := hB.mul_one b (hp ▸ hb) (by omega)
    obtain ⟨_, ha, _⟩ := multiply_eq_ok hone
    rw [multiply_congr hp hle hb (hp ▸ ha) (by simpa using hlt), hone, hp]

end Restriction

/-- Whether products are answered does not depend on their coefficient. -/
theorem multiply_of_multiply {a b : Operation} {c : ℕ} {u : Vec} (h : A.multiply c a b = .ok u) (e : ℕ) :
    ∃ w, A.multiply e a b = .ok w := by
  obtain ⟨x, hx, h⟩ := Result.bind_eq_ok.mp h
  obtain ⟨y, hy, h⟩ := Result.bind_eq_ok.mp h
  obtain ⟨n, hn, h⟩ := Result.bind_eq_ok.mp h
  have hloop : ∀ (terms : List (ℕ × MilnorElement)) (v w u : Vec),
      terms.foldlM (fun v (f, z) => do
        let i ← A.indexIn (a.degree + b.degree) z
        (Except.ok (v.addAt A.prime i (A.prime.product c f)) : Result Vec)) v = .ok u →
      ∃ r, terms.foldlM (fun v (f, z) => do
        let i ← A.indexIn (a.degree + b.degree) z
        (Except.ok (v.addAt A.prime i (A.prime.product e f)) : Result Vec)) w = .ok r := by
    intro terms
    induction terms with
    | nil => exact fun _ w _ _ => ⟨w, rfl⟩
    | cons t terms ih =>
      intro v w u hu
      rw [List.foldlM_cons] at hu
      obtain ⟨v', hv', hu⟩ := Result.bind_eq_ok.mp hu
      obtain ⟨i, hi, hv'⟩ := Result.bind_eq_ok.mp hv'
      obtain ⟨r, hr⟩ := ih v' (w.addAt A.prime i (A.prime.product e t.1)) u hu
      refine ⟨r, ?_⟩
      rw [List.foldlM_cons]
      exact Result.bind_eq_ok.mpr ⟨_, Result.bind_eq_ok.mpr ⟨i, hi, rfl⟩, hr⟩
  obtain ⟨w, hw⟩ := hloop _ _ (Vec.zero n) _ h
  refine ⟨w, Result.bind_eq_ok.mpr ⟨x, hx, Result.bind_eq_ok.mpr ⟨y, hy, Result.bind_eq_ok.mpr ⟨n, hn, hw⟩⟩⟩⟩

theorem multiplyBy_eq_ok {d : ℤ} {y w : Vec} {b : Operation} (hy : Proper A.prime (Milnor.dim A.prime d) y)
    (h : A.multiplyBy d y b = .ok w) :
    w.coords A.prime =
      combine (Milnor.dim A.prime d) (fun k => Milnor.mul A.prime ⟨d, k⟩ b) (y.coords A.prime) := by
  obtain ⟨n, hn, h⟩ := Result.bind_eq_ok.mp h
  obtain ⟨rfl, _⟩ := dimension_eq_ok hn
  have hloop := foldlM_nonzero_eq_ok (φ := fun k => Milnor.mul A.prime ⟨d, k⟩ b)
    (fun i x _ w r hw hr => ?_) Proper.zero h
  · rw [hloop.2, coords_zero, zero_add, hy.size_eq]
  · obtain ⟨u, hu, hr⟩ := Result.bind_eq_ok.mp hr
    obtain rfl := Except.ok.inj hr
    obtain ⟨_, _, _, hup, huc⟩ := multiply_eq_ok hu
    exact ⟨hw.add 1 u, by rw [hw.coords_add 1 hup, huc, Nat.cast_one, one_smul]⟩

theorem multiplyElement_eq_ok {d : ℤ} {y w : Vec} {a : Operation}
    (hy : Proper A.prime (Milnor.dim A.prime d) y) (h : A.multiplyElement 1 a d y = .ok w) :
    w.coords A.prime =
      combine (Milnor.dim A.prime d) (fun k => Milnor.mul A.prime a ⟨d, k⟩) (y.coords A.prime) := by
  obtain ⟨n, hn, h⟩ := Result.bind_eq_ok.mp h
  obtain ⟨rfl, _⟩ := dimension_eq_ok hn
  have hloop := foldlM_nonzero_eq_ok (φ := fun k => Milnor.mul A.prime a ⟨d, k⟩)
    (fun i x _ w r hw hr => ?_) Proper.zero h
  · rw [hloop.2, coords_zero, zero_add, hy.size_eq]
  · obtain ⟨u, hu, hr⟩ := Result.bind_eq_ok.mp hr
    obtain rfl := Except.ok.inj hr
    obtain ⟨_, _, _, hup, huc⟩ := multiply_eq_ok hu
    exact ⟨hw.add 1 u, by
      rw [hw.coords_add 1 hup, huc, Nat.cast_one, one_smul, Prime.cast_product, Nat.cast_one, one_mul]⟩

end Algebra

namespace Milnor

/-- The laws of an associative algebra with unit for products of degree below `n`. -/
structure LawfulBelow (p : Prime) (n : ℤ) : Prop where
  dim_zero : 0 < n → dim p 0 = 1
  one_mul : ∀ b : Operation, b.IsBasis p → b.degree < n → mul p ⟨0, 0⟩ b = Pi.single b.index 1
  mul_one : ∀ b : Operation, b.IsBasis p → b.degree < n → mul p b ⟨0, 0⟩ = Pi.single b.index 1
  assoc : ∀ a b c : Operation, a.IsBasis p → b.IsBasis p → c.IsBasis p → a.degree + b.degree + c.degree < n →
    combine (dim p (a.degree + b.degree)) (fun k => mul p ⟨a.degree + b.degree, k⟩ c) (mul p a b) =
      combine (dim p (b.degree + c.degree)) (fun k => mul p a ⟨b.degree + c.degree, k⟩) (mul p b c)

end Milnor

namespace Algebra

variable {A : Algebra}

/-- Products below the degree that is known are answered. -/
theorem exists_multiply (h₁ : A.IsAssociative) {a b : Operation} (ha : a.IsBasis A.prime)
    (hb : b.IsBasis A.prime) (h : a.degree + b.degree < A.computed) (c : ℕ) :
    ∃ u, A.multiply c a b = .ok u := by
  obtain ⟨u, _, _, hu, _⟩ := h₁.assoc a b ⟨0, 0⟩ ha hb (Operation.isBasis_one A.prime) (by simpa using h)
  exact multiply_of_multiply hu c

/-- Products in the part of the algebra that is known are answered, and degree 0 is spanned by one element. -/
structure Answers (A : Algebra) : Prop where
  dim_zero : 0 < A.computed → Milnor.dim A.prime 0 = 1
  exists_multiply : ∀ {a b : Operation}, a.IsBasis A.prime → b.IsBasis A.prime → a.degree + b.degree < A.computed →
    ∀ c : ℕ, ∃ u, A.multiply c a b = .ok u

theorem IsAssociative.answers (h₁ : A.IsAssociative) (h₂ : A.IsUnital) : A.Answers where
  dim_zero hpos := (dimension_eq_ok (h₂.dimension_zero hpos)).1.symm
  exists_multiply ha hb h c := exists_multiply h₁ ha hb h c

theorem Answers.restrict {B : Algebra} (hp : A.prime = B.prime) (hle : A.computed ≤ B.computed) (h : B.Answers) :
    A.Answers where
  dim_zero hpos := hp ▸ h.dim_zero (by omega)
  exists_multiply ha hb hlt c := by
    rw [multiply_congr hp hle ha hb hlt]
    exact h.exists_multiply (hp ▸ ha) (hp ▸ hb) (by omega) c

theorem lawfulBelow (h₁ : A.IsAssociative) (h₂ : A.IsUnital) : Milnor.LawfulBelow A.prime A.computed where
  dim_zero hpos := (dimension_eq_ok (h₂.dimension_zero (by exact_mod_cast hpos))).1.symm
  one_mul b hb hlt := by
    obtain ⟨_, _, _, _, hc⟩ := multiply_eq_ok (h₂.one_mul b hb hlt)
    rw [Nat.cast_one, one_smul] at hc
    rw [← hc, coords_unit hb.index_lt]
  mul_one b hb hlt := by
    obtain ⟨_, _, _, _, hc⟩ := multiply_eq_ok (h₂.mul_one b hb hlt)
    rw [Nat.cast_one, one_smul] at hc
    rw [← hc, coords_unit hb.index_lt]
  assoc a b c ha hb hc hlt := by
    obtain ⟨u, v, w, hu, hw, hv, hw'⟩ := h₁.assoc a b c ha hb hc hlt
    obtain ⟨_, _, _, hup, huc⟩ := multiply_eq_ok hu
    obtain ⟨_, _, _, hvp, hvc⟩ := multiply_eq_ok hv
    rw [Nat.cast_one, one_smul] at huc hvc
    rw [← huc, ← hvc, ← multiplyBy_eq_ok hup hw, ← multiplyElement_eq_ok hvp hw']

end Algebra
end Steenrod
