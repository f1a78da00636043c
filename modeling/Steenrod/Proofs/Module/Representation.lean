import Steenrod.Proofs.Linear.Parts
import Steenrod.Proofs.Milnor.Structure
/-!
Graded modules apart from how far they are known: dimensions, and for each operation a linear map. Free ones are
sums of shifted copies of the algebra. Main statements: free modules satisfy the laws of a module, and a map out
of one that is given by the images of generators is linear over the algebra.
-/
namespace Steenrod

structure Representation (p : Prime) where
  dim : ℤ → ℕ
  act : Operation → ℤ → (ℕ → p.Field) →ₗ[p.Field] (ℕ → p.Field)

theorem combine_comm {K V : Type} [CommRing K] [AddCommGroup V] [Module K V] (n m : ℕ) (φ : ℕ → ℕ → V)
    (f g : ℕ → K) :
    combine n (fun k => combine m (fun l => φ l k) g) f = combine m (fun l => combine n (φ l) f) g := by
  simp only [combine_apply, Finset.smul_sum]
  rw [Finset.sum_comm]
  refine Finset.sum_congr rfl fun l _ => Finset.sum_congr rfl fun k _ => ?_
  rw [smul_smul, smul_smul, mul_comm]

/-- Only the first coordinates enter a combination. -/
theorem combine_cut {p : Prime} {V : Type} [AddCommGroup V] [Module p.Field V] (n : ℕ) (φ : ℕ → V)
    (f : ℕ → p.Field) : combine n φ (cut p n f) = combine n φ f :=
  combine_congr (fun _ _ => rfl) fun i hi => by rw [cut_apply, if_pos hi]

namespace Representation

variable {p : Prime}

/-- The laws of a module, for results in degrees up to `top`. -/
structure LawfulThrough (X : Representation p) (top : ℤ) : Prop where
  act_mem : ∀ {a : Operation} {d : ℤ} {v : ℕ → p.Field}, a.IsBasis p → d + a.degree ≤ top →
    v ∈ p.space (X.dim d) → X.act a d v ∈ p.space (X.dim (d + a.degree))
  one_act : ∀ {d : ℤ} {v : ℕ → p.Field}, d ≤ top → v ∈ p.space (X.dim d) → X.act ⟨0, 0⟩ d v = v
  mul_act : ∀ {a b : Operation} {d : ℤ} {v : ℕ → p.Field}, a.IsBasis p → b.IsBasis p →
    d + b.degree + a.degree ≤ top → v ∈ p.space (X.dim d) →
    X.act a (d + b.degree) (X.act b d v) =
      combine (Milnor.dim p (a.degree + b.degree)) (fun k => X.act ⟨a.degree + b.degree, k⟩ d v)
        (Milnor.mul p a b)

/-- The algebra as a module over itself. -/
def regular (p : Prime) : Representation p where
  dim := Milnor.dim p
  act a d := combine (Milnor.dim p d) fun k => Milnor.mul p a ⟨d, k⟩

/-- The module with all degrees raised by `g`. -/
def shift (g : ℤ) (X : Representation p) : Representation p where
  dim d := X.dim (d - g)
  act a d := X.act a (d - g)

/-- The direct sum. -/
def sum (X Y : Representation p) : Representation p where
  dim d := X.dim d + Y.dim d
  act a d :=
    { toFun := fun v => glue (X.dim (d + a.degree)) (X.act a d (cut p (X.dim d) v)) (Y.act a d (rest p (X.dim d) v))
      map_add' := fun v w => by simp only [map_add, glue_add]
      map_smul' := fun c v => by simp only [map_smul, glue_smul, RingHom.id_apply] }

/-- The module that is zero. -/
def zero (p : Prime) : Representation p := ⟨fun _ => 0, fun _ _ => 0⟩

/-- The free module on generators of the given degrees. -/
def free (p : Prime) : List ℤ → Representation p
  | [] => zero p
  | g :: gens => ((regular p).shift g).sum (free p gens)

theorem sum_act (X Y : Representation p) (a : Operation) (d : ℤ) (v : ℕ → p.Field) :
    (X.sum Y).act a d v =
      glue (X.dim (d + a.degree)) (X.act a d (cut p (X.dim d) v)) (Y.act a d (rest p (X.dim d) v)) := rfl

theorem isBasis_of_lt {d : ℤ} {k : ℕ} (h : k < Milnor.dim p d) : Operation.IsBasis p ⟨d, k⟩ := by
  refine ⟨?_, h⟩
  by_contra hneg
  rw [Milnor.dim_of_neg (by simpa using hneg)] at h
  omega

theorem regular_lawful {n : ℤ} (h : Milnor.LawfulBelow p n) : (regular p).LawfulThrough (n - 1) where
  act_mem {a d v} _ _ _ := by
    refine combine_mem (fun k _ => ?_) v
    have hm := Milnor.mul_mem p a ⟨d, k⟩
    rwa [Int.add_comm] at hm
  one_act {d v} hd hv := by
    have hunit : ∀ k < Milnor.dim p d, Milnor.mul p ⟨0, 0⟩ ⟨d, k⟩ = Pi.single k 1 := fun k hk =>
      h.one_mul _ (isBasis_of_lt hk) (by simp only; omega)
    exact (combine_congr hunit fun _ _ => rfl).trans (combine_units hv)
  mul_act {a b d v} ha hb hd _ := by
    change combine (Milnor.dim p (d + b.degree)) (fun l => Milnor.mul p a ⟨d + b.degree, l⟩)
      (combine (Milnor.dim p d) (fun k => Milnor.mul p b ⟨d, k⟩) v) = _
    rw [map_combine]
    have hassoc : ∀ k < Milnor.dim p d,
        combine (Milnor.dim p (d + b.degree)) (fun l => Milnor.mul p a ⟨d + b.degree, l⟩)
          (Milnor.mul p b ⟨d, k⟩) =
        combine (Milnor.dim p (a.degree + b.degree)) (fun l => Milnor.mul p ⟨a.degree + b.degree, l⟩ ⟨d, k⟩)
          (Milnor.mul p a b) := by
      intro k hk
      have := h.assoc a b ⟨d, k⟩ ha hb (isBasis_of_lt hk) (by simp only; omega)
      rw [this, Int.add_comm d b.degree]
    rw [combine_congr hassoc fun _ _ => rfl]
    exact combine_comm _ _ _ _ _

theorem LawfulThrough.shift {X : Representation p} {top : ℤ} (h : X.LawfulThrough top) (g : ℤ) :
    (X.shift g).LawfulThrough (top + g) where
  act_mem {a d v} ha hd hv := by
    have hm := h.act_mem (d := d - g) ha (by omega) hv
    rwa [(by omega : d - g + a.degree = d + a.degree - g)] at hm
  one_act {d v} hd hv := h.one_act (d := d - g) (by omega) hv
  mul_act {a b d v} ha hb hd hv := by
    have hm := h.mul_act (d := d - g) ha hb (by omega) hv
    rwa [(by omega : d - g + b.degree = d + b.degree - g)] at hm

theorem LawfulThrough.mono {X : Representation p} {top low : ℤ} (h : X.LawfulThrough top) (hle : low ≤ top) :
    X.LawfulThrough low where
  act_mem ha hd hv := h.act_mem ha (by omega) hv
  one_act hd hv := h.one_act (by omega) hv
  mul_act ha hb hd hv := h.mul_act ha hb (by omega) hv

/-- Where a module is zero there is nothing to check. -/
theorem lawful_of_dim_eq_zero {X : Representation p} {top : ℤ} (h : ∀ d ≤ top, X.dim d = 0) :
    X.LawfulThrough top := by
  have hzero : ∀ {d : ℤ} {v : ℕ → p.Field}, d ≤ top → v ∈ p.space (X.dim d) → v = 0 := by
    intro d v hd hv
    rw [h d hd] at hv
    exact funext fun i => hv i (Nat.zero_le i)
  refine ⟨fun {a d v} ha hd hv => ?_, fun {d v} hd hv => ?_, fun {a b d v} ha hb hd hv => ?_⟩
  · rw [hzero (by have := ha.nonneg; omega) hv, map_zero]
    exact Submodule.zero_mem _
  · rw [hzero hd hv, map_zero]
  · have hv := hzero (by have := ha.nonneg; have := hb.nonneg; omega) hv
    rw [hv, map_zero, map_zero, combine_apply]
    simp

theorem zero_lawful (top : ℤ) : (zero p).LawfulThrough top where
  act_mem _ _ _ := Submodule.zero_mem _
  one_act {d v} _ hv := funext fun i => (hv i (Nat.zero_le i)).symm
  mul_act {a b d v} _ _ _ _ := by
    have hz : (fun k => (zero p).act ⟨a.degree + b.degree, k⟩ d v) = fun _ => 0 := rfl
    rw [hz, combine_apply]
    simp [zero]

theorem combine_glue {n m : ℕ} (φ ψ : ℕ → ℕ → p.Field) (f : ℕ → p.Field) :
    combine m (fun i => glue n (φ i) (ψ i)) f = glue n (combine m φ f) (combine m ψ f) := by
  funext j
  simp only [combine_apply, Finset.sum_apply, Pi.smul_apply, glue]
  split <;> simp

theorem LawfulThrough.sum {X Y : Representation p} {top : ℤ} (hX : X.LawfulThrough top)
    (hY : Y.LawfulThrough top) : (X.sum Y).LawfulThrough top where
  act_mem ha hd hv := glue_mem (hY.act_mem ha hd (rest_mem hv))
  one_act {d v} hd hv := by
    rw [sum_act, hX.one_act hd (cut_mem _ _), hY.one_act hd (rest_mem hv)]
    simpa using glue_cut_rest v
  mul_act {a b d v} ha hb hd hv := by
    have hX' := hX.act_mem (v := cut p (X.dim d) v) hb (by have := ha.nonneg; omega) (cut_mem _ _)
    rw [sum_act X Y b, sum_act X Y a, cut_glue hX', rest_glue, hX.mul_act ha hb hd (cut_mem _ _),
      hY.mul_act ha hb hd (rest_mem hv)]
    rw [(by omega : d + b.degree + a.degree = d + (a.degree + b.degree))]
    exact (combine_glue _ _ _).symm

/-- Free modules on generators from degree `low` on are modules as far as the algebra is one. -/
theorem free_lawful {n low : ℤ} (h : Milnor.LawfulBelow p n) {gens : List ℤ} (hlow : ∀ g ∈ gens, low ≤ g) :
    (free p gens).LawfulThrough (n - 1 + low) := by
  induction gens with
  | nil => exact zero_lawful _
  | cons g gens ih =>
    have hg := hlow g (by simp)
    exact (((regular_lawful h).shift g).mono (by omega)).sum (ih fun x hx => hlow x (by simp [hx]))

theorem dim_free_cons (g : ℤ) (gens : List ℤ) (d : ℤ) :
    (free p (g :: gens)).dim d = Milnor.dim p (d - g) + (free p gens).dim d := rfl

theorem dim_free_append (gens more : List ℤ) (d : ℤ) :
    (free p (gens ++ more)).dim d = (free p gens).dim d + (free p more).dim d := by
  induction gens with
  | nil => simp [free, zero]
  | cons g gens ih => rw [List.cons_append, dim_free_cons, dim_free_cons, ih, Nat.add_assoc]

theorem dim_free_eq_zero {gens : List ℤ} {d : ℤ} (h : ∀ g ∈ gens, d < g) : (free p gens).dim d = 0 := by
  induction gens with
  | nil => rfl
  | cons g gens ih =>
    have hg := h g (by simp)
    rw [dim_free_cons, Milnor.dim_of_neg (by omega), Nat.zero_add, ih fun x hx => h x (by simp [hx])]

/-- The map of shift `k` out of a free module that sends generators of the given degrees to the given values. -/
def freeMap (T : Representation p) (k : ℤ) : List (ℤ × (ℕ → p.Field)) → ℤ → (ℕ → p.Field) →ₗ[p.Field] (ℕ → p.Field)
  | [], _ => 0
  | (g, y) :: gens, d =>
    combine (Milnor.dim p (d - g)) (fun i => T.act ⟨d - g, i⟩ (g - k) y) +
      (freeMap T k gens d).comp (rest p (Milnor.dim p (d - g)))

theorem freeMap_cons (T : Representation p) (k g : ℤ) (y : ℕ → p.Field) (gens : List (ℤ × (ℕ → p.Field))) (d : ℤ)
    (v : ℕ → p.Field) : freeMap T k ((g, y) :: gens) d v =
      combine (Milnor.dim p (d - g)) (fun i => T.act ⟨d - g, i⟩ (g - k) y) v +
        freeMap T k gens d (rest p (Milnor.dim p (d - g)) v) := rfl

/-- The values of generators lie in the target. -/
def ValuesIn (T : Representation p) (k : ℤ) (gens : List (ℤ × (ℕ → p.Field))) : Prop :=
  ∀ x ∈ gens, x.2 ∈ p.space (T.dim (x.1 - k))

theorem freeMap_mem {T : Representation p} {k top : ℤ} (hT : T.LawfulThrough top)
    {gens : List (ℤ × (ℕ → p.Field))} (hval : ValuesIn T k gens) {d : ℤ} (hd : d - k ≤ top) (v : ℕ → p.Field) :
    freeMap T k gens d v ∈ p.space (T.dim (d - k)) := by
  induction gens generalizing v with
  | nil => exact Submodule.zero_mem _
  | cons x gens ih =>
    obtain ⟨g, y⟩ := x
    rw [freeMap_cons]
    refine Submodule.add_mem _ (combine_mem (fun i hi => ?_) v) (ih (fun z hz => hval z (by simp [hz])) _)
    have hm := hT.act_mem (d := g - k) (isBasis_of_lt hi) (by simp only; omega) (hval (g, y) (by simp))
    rwa [(by simp only; omega : g - k + (⟨d - g, i⟩ : Operation).degree = d - k)] at hm

/-- Maps out of free modules are linear over the algebra. -/
theorem freeMap_act {T : Representation p} {k top : ℤ} (hT : T.LawfulThrough top)
    {gens : List (ℤ × (ℕ → p.Field))} (hval : ValuesIn T k gens) {a : Operation} (ha : a.IsBasis p) {d : ℤ}
    (hd : d + a.degree - k ≤ top) (v : ℕ → p.Field) :
    freeMap T k gens (d + a.degree) ((free p (gens.map (·.1))).act a d v) =
      T.act a (d - k) (freeMap T k gens d v) := by
  induction gens generalizing v with
  | nil => exact (map_zero _).symm
  | cons x gens ih =>
    obtain ⟨g, y⟩ := x
    have hy := hval (g, y) (by simp)
    rw [List.map_cons, free, sum_act, freeMap_cons, freeMap_cons, map_add, map_combine]
    change combine (Milnor.dim p (d + a.degree - g)) _ (glue (Milnor.dim p (d + a.degree - g)) _ _) +
      freeMap T k gens (d + a.degree) (rest p (Milnor.dim p (d + a.degree - g))
        (glue (Milnor.dim p (d + a.degree - g)) _ _)) = _
    rw [rest_glue, ← combine_cut, cut_glue]
    · congr 1
      · change combine _ _ (combine (Milnor.dim p (d - g)) (fun i => Milnor.mul p a ⟨d - g, i⟩)
          (cut p (Milnor.dim p (d - g)) v)) = _
        rw [combine_cut, map_combine]
        refine combine_congr (fun i hi => ?_) fun _ _ => rfl
        have hmul := hT.mul_act (d := g - k) ha (isBasis_of_lt hi) (by simp only; omega) hy
        simp only at hmul
        rw [(by omega : g - k + (d - g) = d - k), (by omega : a.degree + (d - g) = d + a.degree - g)] at hmul
        exact hmul.symm
      · exact ih (fun z hz => hval z (by simp [hz])) _
    · refine combine_mem (fun i _ => ?_) _
      have hm := Milnor.mul_mem p a ⟨d - g, i⟩
      rwa [(by simp only; omega : a.degree + (⟨d - g, i⟩ : Operation).degree = d + a.degree - g)] at hm

theorem freeMap_append (T : Representation p) (k : ℤ) (gens more : List (ℤ × (ℕ → p.Field))) (d : ℤ)
    (v : ℕ → p.Field) : freeMap T k (gens ++ more) d v =
      freeMap T k gens d v + freeMap T k more d (rest p ((free p (gens.map (·.1))).dim d) v) := by
  induction gens generalizing v with
  | nil =>
    have hrest : rest p ((free p []).dim d) v = v := funext fun i => by simp [free, zero]
    rw [List.map_nil, hrest]
    exact (zero_add _).symm
  | cons x gens ih =>
    obtain ⟨g, y⟩ := x
    have hrest : ∀ n m : ℕ, rest p m (rest p n v) = rest p (n + m) v := fun n m =>
      funext fun i => by simp [Nat.add_assoc]
    rw [List.cons_append, freeMap_cons, freeMap_cons, ih, List.map_cons, dim_free_cons, hrest, add_assoc]

/-- A family of linear maps of shift `k` commutes with the action. -/
structure Commutes (X T : Representation p) (k top : ℤ) (φ : ℤ → (ℕ → p.Field) →ₗ[p.Field] (ℕ → p.Field)) :
    Prop where
  map_act : ∀ {a : Operation} {d : ℤ} {v : ℕ → p.Field}, a.IsBasis p → d + a.degree - k ≤ top → v ∈ p.space (X.dim d) →
    φ (d + a.degree) (X.act a d v) = T.act a (d - k) (φ d v)

theorem Commutes.mono {X T : Representation p} {k top low : ℤ} {φ : ℤ → (ℕ → p.Field) →ₗ[p.Field] (ℕ → p.Field)}
    (h : Commutes X T k top φ) (hle : low ≤ top) : Commutes X T k low φ :=
  ⟨fun ha hd hv => h.map_act ha (hd.trans hle) hv⟩

theorem freeMap_commutes {T : Representation p} {k top : ℤ} (hT : T.LawfulThrough top)
    {gens : List (ℤ × (ℕ → p.Field))} (hval : ValuesIn T k gens) :
    Commutes (free p (gens.map (·.1))) T k top (freeMap T k gens) :=
  ⟨fun ha hd _ => freeMap_act hT hval ha hd _⟩

/-- A map out of a free module followed by another one is given by what becomes of the generators. -/
theorem freeMap_comp {X T : Representation p} {k l top : ℤ} {φ : ℤ → (ℕ → p.Field) →ₗ[p.Field] (ℕ → p.Field)}
    (hφ : Commutes X T l top φ) {gens : List (ℤ × (ℕ → p.Field))} (hval : ValuesIn X k gens) {d : ℤ}
    (hd : d - k - l ≤ top) (v : ℕ → p.Field) :
    φ (d - k) (freeMap X k gens d v) =
      freeMap T (k + l) (gens.map fun x => (x.1, φ (x.1 - k) x.2)) d v := by
  induction gens generalizing v with
  | nil => exact map_zero _
  | cons x gens ih =>
    obtain ⟨g, y⟩ := x
    rw [List.map_cons, freeMap_cons, freeMap_cons, map_add, map_combine, ih fun z hz => hval z (by simp [hz])]
    congr 1
    refine combine_congr (fun i hi => ?_) fun _ _ => rfl
    have hcomm := hφ.map_act (isBasis_of_lt hi) (by simp only; omega) (hval (g, y) (by simp))
    simp only at hcomm
    rwa [(by omega : g - k + (d - g) = d - k), (by omega : g - k - l = g - (k + l))] at hcomm

theorem freeMap_zero (T : Representation p) (k : ℤ) {gens : List (ℤ × (ℕ → p.Field))} (h : ∀ x ∈ gens, x.2 = 0)
    (d : ℤ) : freeMap T k gens d = 0 := by
  induction gens with
  | nil => rfl
  | cons x gens ih =>
    obtain ⟨g, y⟩ := x
    obtain rfl : y = 0 := h (g, y) (by simp)
    refine LinearMap.ext fun v => ?_
    rw [freeMap_cons, ih fun z hz => h z (by simp [hz]), combine_apply]
    simp

/-- Only the values of generators up to a degree matter there. -/
theorem freeMap_congr_values {α : Type} (T : Representation p) (k : ℤ) (deg : α → ℤ) (y z : α → ℕ → p.Field) {l : List α}
    {d : ℤ} (h : ∀ x ∈ l, deg x ≤ d → y x = z x) :
    freeMap T k (l.map fun x => (deg x, y x)) d = freeMap T k (l.map fun x => (deg x, z x)) d := by
  induction l with
  | nil => rfl
  | cons x l ih =>
    refine LinearMap.ext fun v => ?_
    rw [List.map_cons, List.map_cons, freeMap_cons, freeMap_cons, ih fun w hw => h w (by simp [hw])]
    by_cases hd : deg x ≤ d
    · rw [h x (by simp) hd]
    · have hdim : Milnor.dim p (d - deg x) = 0 := Milnor.dim_of_neg (by omega)
      rw [hdim, combine_apply, combine_apply, Finset.range_zero, Finset.sum_empty, Finset.sum_empty]

/-- Only the coordinates inside the free module enter the map. -/
theorem freeMap_cut (T : Representation p) (k : ℤ) (gens : List (ℤ × (ℕ → p.Field))) (d : ℤ) (v : ℕ → p.Field) :
    freeMap T k gens d (cut p ((free p (gens.map (·.1))).dim d) v) = freeMap T k gens d v := by
  induction gens generalizing v with
  | nil => rfl
  | cons x gens ih =>
    obtain ⟨g, y⟩ := x
    rw [List.map_cons, dim_free_cons, freeMap_cons, freeMap_cons, ← ih (rest p (Milnor.dim p (d - g)) v)]
    congr 1
    · refine combine_congr (fun _ _ => rfl) fun i hi => ?_
      rw [cut_apply, if_pos (Nat.lt_add_right _ hi)]
    · congr 1
      funext i
      simp [cut_apply]

/-- Generators above a degree do not matter there. -/
theorem freeMap_eq_zero (T : Representation p) (k : ℤ) {gens : List (ℤ × (ℕ → p.Field))} {d : ℤ}
    (h : ∀ x ∈ gens, d < x.1) : freeMap T k gens d = 0 := by
  induction gens with
  | nil => rfl
  | cons x gens ih =>
    obtain ⟨g, y⟩ := x
    have hg := h (g, y) (by simp)
    refine LinearMap.ext fun v => ?_
    rw [freeMap_cons, Milnor.dim_of_neg (by simp only at hg; omega), ih fun z hz => h z (by simp [hz]), combine_apply]
    simp

theorem freeMap_eq_zero_add (T : Representation p) (k : ℤ) {gens more : List (ℤ × (ℕ → p.Field))} {d : ℤ}
    (h : ∀ x ∈ more, d < x.1) : freeMap T k (gens ++ more) d = freeMap T k gens d := by
  refine LinearMap.ext fun v => ?_
  rw [freeMap_append, freeMap_eq_zero T k h]
  exact add_zero _

/-- In the degree of the generators themselves the map combines their values. -/
theorem freeMap_replicate {T : Representation p} {k top : ℤ} (hT : T.LawfulThrough top)
    {d : ℤ} (hd : d - k ≤ top) (ys : List (ℕ → p.Field)) (hval : ∀ y ∈ ys, y ∈ p.space (T.dim (d - k)))
    (v : ℕ → p.Field) :
    freeMap T k (ys.map fun y => (d, y)) d v = combine ys.length (fun i => ys[i]?.getD 0) v := by
  induction ys generalizing v with
  | nil => rw [List.map_nil, List.length_nil, combine_apply, Finset.range_zero, Finset.sum_empty]; rfl
  | cons y ys ih =>
    rw [List.map_cons, freeMap_cons, sub_self, Milnor.dim_zero, ih fun z hz => hval z (by simp [hz])]
    have hone := hT.one_act hd (hval y (by simp))
    rw [combine_apply 1, Finset.sum_range_one, hone, combine_apply, combine_apply, List.length_cons,
      Finset.sum_range_succ', add_comm]
    congr 1
    refine Finset.sum_congr rfl fun i _ => ?_
    rw [rest_apply, Nat.add_comm 1 i, List.getElem?_cons_succ]

theorem dim_free_replicate (d : ℤ) (k : ℕ) :
    (free p (List.replicate k d)).dim d = k := by
  induction k with
  | zero => rfl
  | succ k ih => rw [List.replicate_succ, dim_free_cons, sub_self, Milnor.dim_zero, ih, Nat.add_comm]

/-- Two representations that are the same in degrees below `t`. -/
structure AgreeBelow (X Y : Representation p) (t : ℤ) : Prop where
  dim_eq : ∀ d < t, X.dim d = Y.dim d
  act_eq : ∀ (a : Operation) (d : ℤ), 0 ≤ a.degree → d + a.degree < t → X.act a d = Y.act a d

theorem free_act_eq_zero {gens : List ℤ} {a : Operation} {d : ℤ}
    (h : ∀ g ∈ gens, d + a.degree < g) : (free p gens).act a d = 0 := by
  induction gens with
  | nil => rfl
  | cons g gens ih =>
    have hg := h g (by simp)
    refine LinearMap.ext fun v => ?_
    have hzero : ((regular p).shift g).dim (d + a.degree) = 0 := Milnor.dim_of_neg (by omega)
    rw [free, sum_act, hzero, ih fun x hx => h x (by simp [hx])]
    funext i
    simp [glue]

/-- More generators in higher degrees change nothing below. -/
theorem agreeBelow_append {gens more : List ℤ} {t : ℤ} (h : ∀ g ∈ more, t ≤ g) :
    (free p (gens ++ more)).AgreeBelow (free p gens) t where
  dim_eq d hd := by
    have hmore : ∀ g ∈ more, d < g := fun g hg => lt_of_lt_of_le hd (h g hg)
    rw [dim_free_append, dim_free_eq_zero hmore, Nat.add_zero]
  act_eq a d ha hd := by
    induction gens with
    | nil => exact free_act_eq_zero fun g hg => lt_of_lt_of_le hd (h g hg)
    | cons g gens ih =>
      refine LinearMap.ext fun v => ?_
      rw [List.cons_append, free, free, sum_act, sum_act, ih]

theorem AgreeBelow.refl (X : Representation p) (t : ℤ) : X.AgreeBelow X t :=
  ⟨fun _ _ => rfl, fun _ _ _ _ => rfl⟩

theorem AgreeBelow.mono {X Y : Representation p} {t u : ℤ} (h : X.AgreeBelow Y t) (hle : u ≤ t) : X.AgreeBelow Y u :=
  ⟨fun d hd => h.dim_eq d (by omega), fun a d ha hd => h.act_eq a d ha (by omega)⟩

theorem AgreeBelow.trans {X Y Z : Representation p} {t u : ℤ} (h : X.AgreeBelow Y t) (h' : Y.AgreeBelow Z u)
    (hle : u ≤ t) : X.AgreeBelow Z u :=
  ⟨fun d hd => (h.dim_eq d (by omega)).trans (h'.dim_eq d hd),
    fun a d ha hd => (h.act_eq a d ha (by omega)).trans (h'.act_eq a d ha hd)⟩

theorem AgreeBelow.symm {X Y : Representation p} {t : ℤ} (h : X.AgreeBelow Y t) : Y.AgreeBelow X t :=
  ⟨fun d hd => (h.dim_eq d hd).symm, fun a d ha hd => (h.act_eq a d ha hd).symm⟩

/-- A map into a target depends only on the degrees of the target that it reaches. -/
theorem freeMap_congr {X Y : Representation p} {t : ℤ} (h : X.AgreeBelow Y t) (k : ℤ)
    (gens : List (ℤ × (ℕ → p.Field))) {d : ℤ} (hd : d - k < t) : freeMap X k gens d = freeMap Y k gens d := by
  induction gens with
  | nil => rfl
  | cons x gens ih =>
    obtain ⟨g, y⟩ := x
    refine LinearMap.ext fun v => ?_
    rw [freeMap_cons, freeMap_cons, ih]
    congr 1
    refine combine_congr (fun i hi => ?_) fun _ _ => rfl
    have hnonneg : 0 ≤ d - g := (isBasis_of_lt hi).nonneg
    rw [h.act_eq _ _ hnonneg (by simp only; omega)]

end Representation
end Steenrod
