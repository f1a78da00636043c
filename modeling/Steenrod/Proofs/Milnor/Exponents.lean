import Mathlib
import Steenrod.Milnor.Basis
/-!
Sequences of exponents as functions that vanish almost everywhere, so that sequences which differ by trailing zeros
are the same.
-/
namespace Steenrod

/-- The values of a list, as a function that is zero beyond its end. -/
noncomputable def index (l : List ℕ) : ℕ →₀ ℕ :=
  Finsupp.onFinset (Finset.range l.length) (fun i => l[i]?.getD 0) fun i hi => by
    rw [Finset.mem_range]
    by_contra hle
    rw [List.getElem?_eq_none (not_lt.mp hle)] at hi
    exact hi rfl

theorem index_apply (l : List ℕ) (i : ℕ) : index l i = l[i]?.getD 0 := rfl

@[simp] theorem index_nil : index [] = 0 := rfl

/-- A sequence moved up by one place. -/
noncomputable def raise (T : ℕ →₀ ℕ) : ℕ →₀ ℕ := T.mapDomain Nat.succ

theorem raise_zero_apply (T : ℕ →₀ ℕ) : raise T 0 = 0 :=
  Finsupp.mapDomain_of_notMem_range T 0 (by simp)

theorem raise_succ_apply (T : ℕ →₀ ℕ) (i : ℕ) : raise T (i + 1) = T i :=
  Finsupp.mapDomain_apply Nat.succ_injective T i

theorem raise_add (T U : ℕ →₀ ℕ) : raise (T + U) = raise T + raise U := Finsupp.mapDomain_add

theorem index_cons (x : ℕ) (l : List ℕ) : index (x :: l) = Finsupp.single 0 x + raise (index l) := by
  ext i
  cases i with
  | zero => rw [Finsupp.add_apply, raise_zero_apply, Finsupp.single_eq_same]; rfl
  | succ i => rw [Finsupp.add_apply, raise_succ_apply, Finsupp.single_eq_of_ne (by omega), Nat.zero_add]; rfl

theorem ext_raise {T U : ℕ →₀ ℕ} (h₀ : T 0 = U 0) (h : ∀ i, T (i + 1) = U (i + 1)) : T = U := by
  ext i
  cases i with
  | zero => exact h₀
  | succ i => exact h i

theorem index_trim (l : List ℕ) : index (Milnor.trim l) = index l := by
  induction l with
  | nil => rfl
  | cons x l ih =>
    rw [index_cons, ← ih, Milnor.trim]
    split
    · next h =>
      by_cases hx : x = 0
      · simp [hx, h, raise]
      · simp [hx, h, index_cons]
    · rw [index_cons]

/-- Without trailing zeros. -/
def Trimmed (l : List ℕ) : Prop := Milnor.trim l = l

theorem trim_eq_of_index_eq {l m : List ℕ} (h : index l = index m) : Milnor.trim l = Milnor.trim m := by
  induction l generalizing m with
  | nil =>
    induction m with
    | nil => rfl
    | cons y m ih =>
      have h₀ : 0 = y := DFunLike.congr_fun h 0
      have hm : index [] = index m := Finsupp.ext fun i => DFunLike.congr_fun h (i + 1)
      rw [Milnor.trim.eq_2, ← ih hm, ← h₀]
      rfl
  | cons x l ih =>
    cases m with
    | nil =>
      have h₀ : x = 0 := DFunLike.congr_fun h 0
      have hl : index l = index [] := Finsupp.ext fun i => DFunLike.congr_fun h (i + 1)
      rw [Milnor.trim.eq_2, ih hl, h₀]
      rfl
    | cons y m =>
      have h₀ : x = y := DFunLike.congr_fun h 0
      have hl : index l = index m := Finsupp.ext fun i => DFunLike.congr_fun h (i + 1)
      rw [Milnor.trim.eq_2, Milnor.trim.eq_2, ih hl, h₀]

theorem trimmed_trim (l : List ℕ) : Trimmed (Milnor.trim l) := trim_eq_of_index_eq (index_trim l)

theorem Trimmed.eq {l m : List ℕ} (hl : Trimmed l) (hm : Trimmed m) (h : index l = index m) : l = m := by
  rw [← hl, ← hm, trim_eq_of_index_eq h]

theorem index_injective {l m : List ℕ} (hlen : l.length = m.length) (h : index l = index m) : l = m := by
  refine List.ext_getElem hlen fun i hl hm => ?_
  have hi := DFunLike.congr_fun h i
  rwa [index_apply, index_apply, List.getElem?_eq_getElem hl, List.getElem?_eq_getElem hm] at hi

theorem index_of_length_le {l : List ℕ} {i : ℕ} (h : l.length ≤ i) : index l i = 0 := by
  rw [index_apply, List.getElem?_eq_none h, Option.getD_none]

theorem exists_index_eq {n : ℕ} {T : ℕ →₀ ℕ} (h : ∀ i, n ≤ i → T i = 0) : ∃ l : List ℕ, l.length = n ∧ index l = T := by
  refine ⟨(List.range n).map T, by simp, Finsupp.ext fun i => ?_⟩
  by_cases hi : i < n
  · simp [index_apply, hi]
  · rw [h i (not_lt.mp hi), index_of_length_le (by simpa using hi)]

/-- `Σ_j w p^j x_j`. -/
noncomputable def weigh (p w : ℕ) (T : ℕ →₀ ℕ) : ℕ := T.sum fun j x => w * p ^ j * x

theorem weigh_add (p w : ℕ) (T U : ℕ →₀ ℕ) : weigh p w (T + U) = weigh p w T + weigh p w U :=
  Finsupp.sum_add_index' (fun _ => Nat.mul_zero _) fun _ _ _ => Nat.mul_add _ _ _

theorem weigh_eq_mul (p w : ℕ) (T : ℕ →₀ ℕ) : weigh p w T = w * weigh p 1 T := by
  rw [weigh, weigh, Finsupp.mul_sum]
  exact Finset.sum_congr rfl fun i _ => by ring

theorem weigh_index_cons (p w x : ℕ) (l : List ℕ) :
    weigh p w (index (x :: l)) = w * x + weigh p (w * p) (index l) := by
  have hsingle : weigh p w (Finsupp.single 0 x) = w * p ^ 0 * x := Finsupp.sum_single_index (Nat.mul_zero _)
  have hraise : weigh p w (raise (index l)) = (index l).sum fun j x => w * p ^ (j + 1) * x :=
    Finsupp.sum_mapDomain_index (fun _ => Nat.mul_zero _) fun _ _ _ => Nat.mul_add _ _ _
  rw [index_cons, weigh_add, hsingle, hraise, pow_zero, Nat.mul_one, weigh]
  congr 1
  refine Finset.sum_congr rfl fun j _ => ?_
  change w * p ^ (j + 1) * _ = w * p * p ^ j * _
  rw [pow_succ', ← Nat.mul_assoc w]

end Steenrod
