import Steenrod.Proofs.Module.Closing
/-!
Modules that are cut off above a degree. Main statement: where the module is known, cutting it off is answered, and what is stored are
its dimensions, its names and the images of its basis elements.
-/
namespace Steenrod
namespace FiniteModule

open Vec Growing

/-- Store the images of the basis elements of a degree under the first operations of degree `x.2 - x.1`. -/
def cutActions (A : Algebra) (N : GradedModule) (x : ℤ × ℤ) (M : FiniteModule) (count : ℕ) : Result FiniteModule :=
  (List.range (M.dimension x.1)).foldlM (fun M i =>
    (List.range count).foldlM (fun M k => do
      let v ← N.actOnBasis A.prime 1 ⟨x.2 - x.1, k⟩ x.1 i
      .ok (M.setAction ⟨x.2 - x.1, k⟩ x.1 i ((Vec.zero (M.dimension x.2)).add A.prime 1 v))) M) M

/-- Store the images of the basis elements of one degree in another. -/
def cutStep (A : Algebra) (N : GradedModule) (M : FiniteModule) (x : ℤ × ℤ) : Result FiniteModule :=
  if M.dimension x.2 = 0 then .ok M
  else if M.dimension x.1 = 0 then cutActions A N x M 0
  else A.dimension (x.2 - x.1) >>= cutActions A N x M

variable {p : Prime} {N : GradedModule} {M : FiniteModule} {A A' : Algebra} {D : ℤ → ℕ} {names : ℤ → List String} {top d : ℤ}

theorem truncate_eq (N : GradedModule) (top : ℤ) : truncate N top = (do
    let dims ← Growing.read fun _ => (GradedModule.degreesBetween N.minDegree top).mapM N.dimension
    let M ← zeroAction N.name (Graded.ofList N.minDegree dims)
    let names ← Growing.read fun _ => (GradedModule.degreesBetween N.minDegree top).mapM N.names
    let M : FiniteModule := { M with names := Graded.ofList N.minDegree names }
    Growing.read fun A => M.closingOrder.foldlM (cutStep A N) M) := rfl

theorem keeps_cutActions {M' : FiniteModule} {x : ℤ × ℤ} {count : ℕ} (hM : M.Stores p) (hp : A.prime = p)
    (h : cutActions A N x M count = .ok M') : M'.dims = M.dims ∧ M'.names = M.names ∧ M'.Stores p := by
  subst hp
  have htarget : x.1 + (x.2 - x.1) = x.2 := by omega
  refine Result.foldlM_invariant (I := fun s => s.dims = M.dims ∧ s.names = M.names ∧ s.Stores A.prime) (fun i _ s s' hs h => ?_)
    ⟨rfl, rfl, hM⟩ h
  refine Result.foldlM_invariant (I := fun s => s.dims = M.dims ∧ s.names = M.names ∧ s.Stores A.prime) (fun k _ s s' hs h => ?_) hs h
  obtain ⟨v, _, h⟩ := Result.bind_eq_ok.mp h
  obtain rfl := Except.ok.inj h
  exact ⟨hs.1, hs.2.1, hs.2.2.setAction (by simp only; rw [htarget]; exact Proper.zero.add 1 v)⟩

theorem keeps_cutStep {M' : FiniteModule} {x : ℤ × ℤ} (hM : M.Stores p) (hp : A.prime = p) (h : cutStep A N M x = .ok M') :
    M'.dims = M.dims ∧ M'.names = M.names ∧ M'.Stores p := by
  unfold cutStep at h
  split at h
  · obtain rfl := Except.ok.inj h
    exact ⟨rfl, rfl, hM⟩
  · split at h
    · exact keeps_cutActions hM hp h
    · obtain ⟨count, _, h⟩ := Result.bind_eq_ok.mp h
      exact keeps_cutActions hM hp h

/-- Whatever is cut off has the dimensions and the names of the module, and a complete table. -/
theorem of_run_truncate (h : (truncate N top).run A = (.ok M, A')) :
    ∃ dims names, (GradedModule.degreesBetween N.minDegree top).mapM N.dimension = .ok dims ∧
      (GradedModule.degreesBetween N.minDegree top).mapM N.names = .ok names ∧ M.dims = Graded.ofList N.minDegree dims ∧
      M.names = Graded.ofList N.minDegree names ∧ M.Stores A.prime := by
  obtain ⟨dims, B, hread, h₁⟩ := run_bind_eq_ok.mp ((congrArg (·.run A) (truncate_eq N top)).symm.trans h)
  obtain ⟨hdims, rfl⟩ := run_read_eq_ok.mp hread
  obtain ⟨M₀, C, hzero, h₂⟩ := run_bind_eq_ok.mp h₁
  obtain ⟨names, D, hread', h₃⟩ := run_bind_eq_ok.mp h₂
  obtain ⟨hnames, rfl⟩ := run_read_eq_ok.mp hread'
  obtain ⟨hcut, _⟩ := run_read_eq_ok.mp h₃
  obtain ⟨rfl, hfollows, _⟩ := of_run_zeroAction hzero
  refine ⟨dims, names, hdims, hnames, ?_⟩
  let M₀ : FiniteModule := { zeroTable B.prime N.name (Graded.ofList N.minDegree dims) with names := Graded.ofList N.minDegree names }
  refine Result.foldlM_invariant (s := M₀) (I := fun s : FiniteModule => s.dims = Graded.ofList N.minDegree dims ∧
    s.names = Graded.ofList N.minDegree names ∧ s.Stores B.prime) (fun x _ s s' hs hstep => ?_)
    ⟨rfl, rfl, stores_zeroTable B.prime N.name (Graded.ofList N.minDegree dims)⟩ hcut
  obtain ⟨h₁, h₂, hstores⟩ := keeps_cutStep hs.2.2 hfollows.prime_eq.symm hstep
  exact ⟨h₁.trans hs.1, h₂.trans hs.2.1, hstores⟩

/-- The image of a basis element in coordinates. -/
def imageOf (p : Prime) (N : GradedModule) (a : Operation) (d : ℤ) (i : ℕ) : ℕ → p.Field :=
  match N.actOnBasis p 1 a d i with
  | .ok v => v.coords p
  | .error _ => 0

theorem imageOf_eq {a : Operation} {i : ℕ} {v : Vec} (h : N.actOnBasis p 1 a d i = .ok v) : imageOf p N a d i = v.coords p := by
  rw [imageOf, h]

/-- What the module `N` is in degrees up to `top`, where it has the dimensions `D` and those names. -/
structure IsCut (p : Prime) (N : GradedModule) (D : ℤ → ℕ) (names : ℤ → List String) (top : ℤ) (M : FiniteModule) : Prop where
  dims_eq : M.dims = Graded.ofList N.minDegree ((GradedModule.degreesBetween N.minDegree top).map D)
  names_eq : M.names = Graded.ofList N.minDegree ((GradedModule.degreesBetween N.minDegree top).map names)
  stores : M.Stores p
  stored_eq : ∀ {a : Operation} {d : ℤ} {i : ℕ}, a.IsBasis p → 0 < a.degree → i < M.dimension d → 0 < M.dimension (d + a.degree) →
    M.stored p a d i = imageOf p N a d i

theorem get?_ofList_degrees {α : Type} (f : ℤ → α) (low high : ℤ) (d : ℤ) :
    (Graded.ofList low ((GradedModule.degreesBetween low high).map f)).get? d = if low ≤ d ∧ d ≤ high then some (f d) else none := by
  rw [Graded.get?_ofList]
  by_cases hlow : d < low
  · rw [if_pos hlow, if_neg (by omega)]
  · have hplace : low + ((d - low).toNat : ℤ) = d := by omega
    rw [if_neg hlow, List.getElem?_map, GradedModule.getElem?_degreesBetween, hplace]
    by_cases hhigh : d ≤ high
    · rw [if_pos hhigh, if_pos ⟨not_lt.mp hlow, hhigh⟩, Option.map_some]
    · rw [if_neg hhigh, if_neg fun h => hhigh h.2, Option.map_none]

theorem IsCut.dimension_eq (h : IsCut p N D names top M) (d : ℤ) :
    M.dimension d = if N.minDegree ≤ d ∧ d ≤ top then D d else 0 := by
  rw [dimension, h.dims_eq, get?_ofList_degrees]
  split <;> rfl

theorem IsCut.minDegree_eq (h : IsCut p N D names top M) : M.minDegree = N.minDegree := by
  rw [minDegree, h.dims_eq]
  rfl

theorem IsCut.maxDegree_eq (h : IsCut p N D names top M) : M.maxDegree = max top (N.minDegree - 1) := by
  rw [maxDegree, h.dims_eq]
  simp only [Graded.maxDegree, Graded.nextDegree, Graded.ofList, List.size_toArray, List.length_map, GradedModule.length_degreesBetween]
  omega

/-- Degrees with basis elements are those that are kept. -/
theorem IsCut.of_lt_dimension (h : IsCut p N D names top M) {i : ℕ} (hi : i < M.dimension d) :
    N.minDegree ≤ d ∧ d ≤ top ∧ M.dimension d = D d := by
  rw [h.dimension_eq] at hi
  split at hi
  · next hd => exact ⟨hd.1, hd.2, by rw [h.dimension_eq, if_pos hd]⟩
  · exact absurd hi (Nat.not_lt_zero i)

theorem stored_setAction_of_ne {a b : Operation} {e : ℤ} {i j : ℕ} (h : ¬(b = a ∧ e = d ∧ j = i)) (v : Vec) :
    (M.setAction a d i v).stored p b e j = M.stored p b e j := by
  rw [stored, stored, dimension_setAction, action?_setAction, if_neg h]

/-- Storing an image keeps the images that are stored. -/
theorem stored_setAction_image {a b : Operation} {e : ℤ} {i j : ℕ} {v : Vec} (hM : M.Stores p) (ha : a.IsBasis p) (hpos : 0 < a.degree)
    (hi : i < M.dimension d) (hdim : 0 < M.dimension (d + a.degree)) (hv : v.coords p = imageOf p N a d i)
    (h : M.stored p b e j = imageOf p N b e j) : (M.setAction a d i v).stored p b e j = imageOf p N b e j := by
  by_cases hsame : b = a ∧ e = d ∧ j = i
  · obtain ⟨rfl, rfl, rfl⟩ := hsame
    rw [stored_setAction hM ha hpos hi hdim, hv]
  · rw [stored_setAction_of_ne hsame, h]

/-- The images of a degree are stored. -/
theorem exists_cutActions (hp : A.prime = p) (hM : M.Stores p) {x : ℤ × ℤ} (hlt : x.1 < x.2) (hroom : 0 < M.dimension x.2) {count : ℕ}
    (hcount : count ≤ Milnor.dim p (x.2 - x.1)) (hact : ∀ k < count, ∀ i < M.dimension x.1,
      ∃ v, N.actOnBasis p 1 ⟨x.2 - x.1, k⟩ x.1 i = .ok v ∧ Proper p (M.dimension x.2) v) :
    ∃ M', cutActions A N x M count = .ok M' ∧ (M'.dims = M.dims ∧ M'.names = M.names ∧ M'.Stores p) ∧
      (∀ k < count, ∀ i < M.dimension x.1, M'.stored p ⟨x.2 - x.1, k⟩ x.1 i = imageOf p N ⟨x.2 - x.1, k⟩ x.1 i) ∧
      ∀ y : Operation × ℤ × ℕ, M.stored p y.1 y.2.1 y.2.2 = imageOf p N y.1 y.2.1 y.2.2 →
        M'.stored p y.1 y.2.1 y.2.2 = imageOf p N y.1 y.2.1 y.2.2 := by
  subst hp
  have htarget : x.1 + (x.2 - x.1) = x.2 := by omega
  have hstep : ∀ k < count, ∀ i < M.dimension x.1, ∀ s : FiniteModule, s.dims = M.dims ∧ s.names = M.names ∧ s.Stores A.prime →
      ∃ s', (do
          let v ← N.actOnBasis A.prime 1 ⟨x.2 - x.1, k⟩ x.1 i
          .ok (s.setAction ⟨x.2 - x.1, k⟩ x.1 i ((Vec.zero (s.dimension x.2)).add A.prime 1 v)) : Result FiniteModule) = .ok s' ∧
        (s'.dims = M.dims ∧ s'.names = M.names ∧ s'.Stores A.prime) ∧
        s'.stored A.prime ⟨x.2 - x.1, k⟩ x.1 i = imageOf A.prime N ⟨x.2 - x.1, k⟩ x.1 i ∧
        ∀ y : Operation × ℤ × ℕ, s.stored A.prime y.1 y.2.1 y.2.2 = imageOf A.prime N y.1 y.2.1 y.2.2 →
          s'.stored A.prime y.1 y.2.1 y.2.2 = imageOf A.prime N y.1 y.2.1 y.2.2 := by
    intro k hk i hi s ⟨hdims, hnames, hstores⟩
    obtain ⟨v, hv, hproper⟩ := hact k hk i hi
    have hdim : s.dimension = M.dimension := by
      unfold dimension
      rw [hdims]
    rw [← hdim] at hproper hi hroom
    have hnew := Proper.zero.add (n := s.dimension x.2) (p := A.prime) 1 v
    have hcoords : ((Vec.zero (s.dimension x.2)).add A.prime 1 v).coords A.prime = imageOf A.prime N ⟨x.2 - x.1, k⟩ x.1 i := by
      rw [imageOf_eq hv, Proper.zero.coords_add 1 hproper, coords_zero, zero_add, Nat.cast_one, one_smul]
    have hbasis : (⟨x.2 - x.1, k⟩ : Operation).IsBasis A.prime := ⟨by simp only; omega, lt_of_lt_of_le hk hcount⟩
    have hroom' : 0 < s.dimension (x.1 + (x.2 - x.1)) := by rwa [htarget]
    refine ⟨_, Result.bind_eq_ok.mpr ⟨v, hv, rfl⟩, ⟨hdims, hnames, hstores.setAction (by simp only; rwa [htarget])⟩, ?_, fun y hy => ?_⟩
    · rw [stored_setAction hstores hbasis (by simp only; omega) hi hroom', hcoords]
    · exact stored_setAction_image hstores hbasis (by simp only; omega) hi hroom' hcoords hy
  let Q : Operation × ℤ × ℕ → FiniteModule → Prop := fun y s => s.stored A.prime y.1 y.2.1 y.2.2 = imageOf A.prime N y.1 y.2.1 y.2.2
  obtain ⟨M', hM', hI, hnew, hold⟩ := Result.exists_foldlM (s := M) (l := List.range (M.dimension x.1))
    (I := fun s : FiniteModule => s.dims = M.dims ∧ s.names = M.names ∧ s.Stores A.prime) (Q := Q)
    (R := fun i y => ∃ k < count, y = (⟨x.2 - x.1, k⟩, x.1, i)) (fun i hi s hs => by
      obtain ⟨s', hs', hI, hnew, hold⟩ := Result.exists_foldlM (Q := Q) (R := fun k y => y = (⟨x.2 - x.1, k⟩, x.1, i))
        (fun k hk s hs => by
          obtain ⟨s', hs', hI, hnew, hold⟩ := hstep k (List.mem_range.mp hk) i (List.mem_range.mp hi) s hs
          exact ⟨s', hs', hI, fun y hy => hy ▸ hnew, hold⟩) hs
      exact ⟨s', hs', hI, fun y ⟨k, hk, hy⟩ => hnew k (List.mem_range.mpr hk) y hy, hold⟩) ⟨rfl, rfl, hM⟩
  exact ⟨M', hM', hI, fun k hk i hi => hnew i (List.mem_range.mpr hi) _ ⟨k, hk, rfl⟩, hold⟩

/-- The images of a degree in another one are stored. -/
theorem exists_cutStep (hp : A.prime = p) (hM : M.Stores p) {x : ℤ × ℤ} (hlt : x.1 < x.2) (hA : x.2 - x.1 < A.computed)
    (hact : ∀ k < Milnor.dim p (x.2 - x.1), ∀ i < M.dimension x.1,
      ∃ v, N.actOnBasis p 1 ⟨x.2 - x.1, k⟩ x.1 i = .ok v ∧ Proper p (M.dimension x.2) v) :
    ∃ M', cutStep A N M x = .ok M' ∧ (M'.dims = M.dims ∧ M'.names = M.names ∧ M'.Stores p) ∧
      (∀ a i, a.IsBasis p → a.degree = x.2 - x.1 → i < M.dimension x.1 → 0 < M.dimension x.2 →
        M'.stored p a x.1 i = imageOf p N a x.1 i) ∧
      ∀ y : Operation × ℤ × ℕ, M.stored p y.1 y.2.1 y.2.2 = imageOf p N y.1 y.2.1 y.2.2 →
        M'.stored p y.1 y.2.1 y.2.2 = imageOf p N y.1 y.2.1 y.2.2 := by
  rw [cutStep]
  by_cases hroom : M.dimension x.2 = 0
  · exact ⟨M, if_pos hroom, ⟨rfl, rfl, hM⟩, fun _ _ _ _ _ hpos => absurd hroom hpos.ne', fun _ hy => hy⟩
  by_cases hempty : M.dimension x.1 = 0
  · obtain ⟨M', hM', hI, _, hold⟩ := exists_cutActions hp hM hlt (Nat.pos_of_ne_zero hroom) (Nat.zero_le _)
      fun k hk => absurd hk (Nat.not_lt_zero k)
    exact ⟨M', by rw [if_neg hroom, if_pos hempty, hM'], hI, fun _ _ _ _ hi => by omega, hold⟩
  · obtain ⟨M', hM', hI, hnew, hold⟩ := exists_cutActions hp hM hlt (Nat.pos_of_ne_zero hroom) le_rfl hact
    refine ⟨M', ?_, hI, fun a i ha hdegree hi _ => ?_, hold⟩
    · rw [if_neg hroom, if_neg hempty, Algebra.dimension_of_lt hA, hp, Result.ok_bind, hM']
    · obtain ⟨e, k⟩ := a
      obtain rfl : e = x.2 - x.1 := hdegree
      exact hnew k ha.index_lt i hi

/-- Cutting off a module that is known so far. -/
theorem exists_run_truncate (hp : A.prime.val < 1073741824) (htop : top + 1 - N.minDegree ≤ maxSigned)
    (hdim : ∀ d, N.minDegree ≤ d → d ≤ top → N.dimension d = .ok (D d))
    (hnames : ∀ d, N.minDegree ≤ d → d ≤ top → N.names d = .ok (names d))
    (hact : ∀ a d i, a.IsBasis A.prime → 0 < a.degree → N.minDegree ≤ d → d + a.degree ≤ top → i < D d →
      ∃ v, N.actOnBasis A.prime 1 a d i = .ok v ∧ Proper A.prime (D (d + a.degree)) v) :
    ∃ M A', (truncate N top).run A = (.ok M, A') ∧ IsCut A.prime N D names top M := by
  have hdims : (GradedModule.degreesBetween N.minDegree top).mapM N.dimension =
      .ok ((GradedModule.degreesBetween N.minDegree top).map D) := Result.mapM_eq_ok fun d hd =>
    hdim d (GradedModule.mem_degreesBetween.mp hd).1 (GradedModule.mem_degreesBetween.mp hd).2
  have hallNames : (GradedModule.degreesBetween N.minDegree top).mapM N.names =
      .ok ((GradedModule.degreesBetween N.minDegree top).map names) := Result.mapM_eq_ok fun d hd =>
    hnames d (GradedModule.mem_degreesBetween.mp hd).1 (GradedModule.mem_degreesBetween.mp hd).2
  let dims := Graded.ofList N.minDegree ((GradedModule.degreesBetween N.minDegree top).map D)
  have hnext : dims.nextDegree - dims.minDegree = ((top + 1 - N.minDegree).toNat : ℤ) := by
    simp [dims, Graded.nextDegree, Graded.ofList]
  have hmin : dims.minDegree = N.minDegree := rfl
  have hcompute : (compute (dims.nextDegree - dims.minDegree)).run A = (.ok (), A.extend (dims.nextDegree - dims.minDegree)) :=
    run_compute_of_le hp (by rw [hnext]; unfold maxSigned at htop ⊢; omega)
  have hlt : dims.nextDegree - dims.minDegree < (A.extend (dims.nextDegree - dims.minDegree)).computed := by
    rw [A.computed_extend]
    split <;> omega
  have hzero := run_zeroAction N.name hcompute hlt
  generalize hB : A.extend (dims.nextDegree - dims.minDegree) = B at hzero hlt
  have hprime : B.prime = A.prime := by rw [← hB, A.prime_extend]
  rw [hprime] at hzero
  let M₀ : FiniteModule := { zeroTable A.prime N.name dims with
    names := Graded.ofList N.minDegree ((GradedModule.degreesBetween N.minDegree top).map names) }
  have hstores : M₀.Stores A.prime := stores_zeroTable A.prime N.name dims
  have hdimension : ∀ d, N.minDegree ≤ d → d ≤ top → M₀.dimension d = D d := fun d hlow hhigh => by
    change (dims.get? d).getD 0 = D d
    rw [get?_ofList_degrees, if_pos ⟨hlow, hhigh⟩, Option.getD_some]
  have horder : ∀ x ∈ M₀.closingOrder, N.minDegree ≤ x.1 ∧ x.1 < x.2 ∧ x.2 ≤ top := fun x hx => by
    obtain ⟨hlow, hlt, hhigh⟩ := mem_closingOrder.mp hx
    have hmax : M₀.maxDegree = dims.nextDegree - 1 := rfl
    have hlow : N.minDegree ≤ x.1 := hlow
    omega
  let Q : Operation × ℤ × ℕ → FiniteModule → Prop := fun y s => s.stored A.prime y.1 y.2.1 y.2.2 = imageOf A.prime N y.1 y.2.1 y.2.2
  obtain ⟨M, hM, ⟨hMdims, hMnames, hMstores⟩, hnew, _⟩ := Result.exists_foldlM (s := M₀) (l := M₀.closingOrder)
    (I := fun s : FiniteModule => s.dims = M₀.dims ∧ s.names = M₀.names ∧ s.Stores A.prime) (Q := Q)
    (R := fun x y => y.1.IsBasis A.prime ∧ y.1.degree = x.2 - x.1 ∧ y.2.1 = x.1 ∧ y.2.2 < M₀.dimension x.1 ∧ 0 < M₀.dimension x.2)
    (fun x hx s hs => by
      obtain ⟨hsdims, hsnames, hsstores⟩ := hs
      obtain ⟨hlow, hbetween, hhigh⟩ := horder x hx
      have hsdim : s.dimension = M₀.dimension := by
        unfold dimension
        rw [hsdims]
      have htarget : x.1 + (x.2 - x.1) = x.2 := by omega
      obtain ⟨s', hs', ⟨h₁, h₂, h₃⟩, hnew, hold⟩ := exists_cutStep (A := B) (N := N) hprime hsstores hbetween (by omega)
        fun k hk i hi => by
          rw [hsdim, hdimension x.1 hlow (by omega)] at hi
          have hanswer := hact ⟨x.2 - x.1, k⟩ x.1 i ⟨by simp only; omega, hk⟩ (by simp only; omega) hlow (by simp only; omega) hi
          simp only [htarget] at hanswer
          rwa [hsdim, hdimension x.2 (by omega) hhigh]
      refine ⟨s', hs', ⟨h₁.trans hsdims, h₂.trans hsnames, h₃⟩, fun y hy => ?_, hold⟩
      obtain ⟨hbasis, hdegree, hinput, hi, hroom⟩ := hy
      rw [← hsdim] at hi hroom
      have hstored := hnew y.1 y.2.2 hbasis hdegree hi hroom
      rw [← hinput] at hstored
      exact hstored) ⟨rfl, rfl, hstores⟩
  refine ⟨M, B, ?_, ⟨hMdims, hMnames, hMstores, fun {a d i} ha hpos hi hroom => ?_⟩⟩
  · rw [truncate_eq, run_bind, run_read, hdims]
    simp only
    rw [run_bind, hzero]
    simp only
    rw [run_bind, run_read, hallNames]
    simp only
    rw [run_read, hM]
  · have hMdim : M.dimension = M₀.dimension := by
      unfold dimension
      rw [hMdims]
    rw [hMdim] at hi hroom
    obtain ⟨hlow, _⟩ := degrees_of_lt_dimension hi
    obtain ⟨_, hhigh⟩ := degrees_of_lt_dimension hroom
    exact hnew (d, d + a.degree) (mem_closingOrder.mpr ⟨hlow, by omega, hhigh⟩) (a, d, i)
      ⟨ha, by simp only; omega, rfl, hi, hroom⟩

end FiniteModule
end Steenrod
