import Steenrod.Proofs.Resolution.Exactness
import Steenrod.Resolution.Lift
/-!
What is true of a lift at every moment: on the generators that it has reached, going down after the lift is lifting
after going down. Main statements: the same then holds on all elements, the images of boundaries are cycles of the
target, so that the quasi-inverse finds preimages of them, and extending the lift keeps this.
-/
namespace Steenrod
namespace Lift

open Vec

variable {p : Prime} {X Y : Representation p} {m m' k t : ℤ} {φ : ℤ → (ℕ → p.Field) →ₗ[p.Field] (ℕ → p.Field)}
variable {S T : Resolution} {L L' : Lift} {s : ℕ}

/-- The map of stage `s`; one that does not exist yet is taken as it will be when it is made. -/
def freeMapAt (S T : Resolution) (L : Lift) (s : ℕ) : FreeMap :=
  L.maps[s]?.getD (FreeMap.new S.minDegree T.minDegree L.shift)

/-- The first degree that stage `s` of the lift has not reached. -/
def next (S T : Resolution) (L : Lift) (s : ℕ) : ℤ := (L.freeMapAt S T s).nextDegree

/-- The map of stage `s` in degree `t` of the source. -/
def linear (p : Prime) (S T : Resolution) (L : Lift) (s : ℕ) (t : ℤ) : (ℕ → p.Field) →ₗ[p.Field] (ℕ → p.Field) :=
  (L.freeMapAt S T s).linear p (S.mappedAt s).1 ((T.mappedAt s).1.rep p) t

/-- What stage `s` of the lift has to be compatible with: the homomorphism `φ` of modules, or the stage below. -/
def lower (φ : ℤ → (ℕ → p.Field) →ₗ[p.Field] (ℕ → p.Field)) (S T : Resolution) (L : Lift) :
    ℕ → ℤ → (ℕ → p.Field) →ₗ[p.Field] (ℕ → p.Field)
  | 0, t => φ t
  | s + 1, t => L.linear p S T s t

/-- `L` lifts the homomorphism `φ` of shift `k` to resolutions `S` of `X` and `T` of `Y` as far as it has got. -/
structure Lifts (X Y : Representation p) (k : ℤ) (φ : ℤ → (ℕ → p.Field) →ₗ[p.Field] (ℕ → p.Field))
    (S T : Resolution) (L : Lift) : Prop where
  shift_eq : L.shift = k
  size_le_source : L.maps.size ≤ S.stages.size
  size_le_target : L.maps.size ≤ T.stages.size
  map_shift : ∀ s, (L.freeMapAt S T s).shift = k
  map_min : ∀ s, (L.freeMapAt S T s).minDegree = max S.minDegree (T.minDegree + k)
  next_le : ∀ s, max S.minDegree (T.minDegree + k) < L.next S T s →
    L.next S T s ≤ S.next s ∧ L.next S T s - k ≤ T.next s
  next_succ_le : ∀ s, L.next S T (s + 1) ≤ L.next S T s
  defined : ∀ s, (L.freeMapAt S T s).DefinedThrough p (S.mappedAt s).1 ((T.mappedAt s).1.rep p) (L.next S T s - 1)
  comm : ∀ s, ∀ g ∈ (S.mappedAt s).1.generatorList, max S.minDegree (T.minDegree + k) ≤ g.degree →
    g.degree < L.next S T s →
    Mapped.PreimageAt (T.target Y s) (T.mappedAt s) (g.degree - k)
      (L.lower φ S T s g.degree ((S.mappedAt s).2.value p g)) ((L.freeMapAt S T s).value p g)

/-- A linear map of shift `k` between two modules over the algebra, through degree `top` of the target. -/
structure Homomorphism (X Y : Representation p) (k top : ℤ) (φ : ℤ → (ℕ → p.Field) →ₗ[p.Field] (ℕ → p.Field)) :
    Prop where
  commutes : Representation.Commutes X Y k top φ
  mem : ∀ d v, φ d v ∈ p.space (Y.dim (d - k))

/-- What a lift is computed from: both resolutions, through a degree that the algebra is known for. -/
structure Between (X Y : Representation p) (k n : ℤ) (φ : ℤ → (ℕ → p.Field) →ₗ[p.Field] (ℕ → p.Field))
    (S T : Resolution) : Prop where
  source : S.Resolves X S.minDegree
  target : T.Resolves Y T.minDegree
  algebra : Milnor.LawfulBelow p n
  source_known : S.next 0 - S.minDegree ≤ n
  target_known : T.next 0 - T.minDegree ≤ n
  source_zero : ∀ d < S.minDegree, X.dim d = 0
  target_zero : ∀ d < T.minDegree, Y.dim d = 0
  hom : Homomorphism X Y k (min (T.next 0 - 1) (S.next 0 - 1 - k)) φ

namespace Lifts

variable {n : ℤ} (h : Lifts X Y k φ S T L) (hb : Between X Y k n φ S T)

include h

/-- The map of a stage vanishes below its least degree. -/
theorem linear_eq_zero (s : ℕ) (ht : t < max S.minDegree (T.minDegree + k)) : L.linear p S T s t = 0 := by
  refine (Representation.freeMap_congr_values _ _ Generator.degree _ (fun _ => 0) fun g _ hg => ?_).trans ?_
  · rw [FreeMap.value, if_pos (by rw [h.map_min]; omega)]
  · refine Representation.freeMap_zero _ _ (fun x hx => ?_) _
    obtain ⟨g, _, rfl⟩ := List.mem_map.mp hx
    rfl

theorem valuesIn (s : ℕ) : Representation.ValuesIn ((T.mappedAt s).1.rep p) k
    ((L.freeMapAt S T s).values p (S.mappedAt s).1) := by
  intro x hx
  obtain ⟨g, hg, rfl⟩ := List.mem_map.mp hx
  by_cases hd : g.degree < L.next S T s
  · have := FreeMap.value_mem (h.defined s) hg (by omega)
    rwa [h.map_shift] at this
  · have hnone : (L.freeMapAt S T s).outputs.get? g.degree = none := by
      by_contra hsome
      have := ((Graded.get?_isSome_iff _ _).mp (Option.isSome_iff_ne_none.mpr hsome)).2
      exact hd this
    have hzero : (L.freeMapAt S T s).value p g = 0 := by
      rw [FreeMap.value, hnone]
      split
      · rfl
      · exact coords_zero 0
    simp only
    rw [hzero]
    exact Submodule.zero_mem _

omit h in
theorem target_lawful (hb : Between X Y k n φ S T) (s : ℕ) : (T.target Y s).LawfulThrough (T.next 0 - 1) :=
  hb.target.target_lawful hb.algebra hb.target.lawful (by have := hb.target_known; omega) s

theorem linear_mem (hb : Between X Y k n φ S T) (s : ℕ) (ht : t - k < T.next 0) (v : ℕ → p.Field) :
    L.linear p S T s t v ∈ p.space (((T.mappedAt s).1.rep p).dim (t - k)) := by
  have hm := Representation.freeMap_mem (target_lawful hb (s + 1)) (h.valuesIn s) (d := t) (by omega) v
  rwa [← h.map_shift s] at hm ⊢

include hb

theorem lower_commutes (s : ℕ) :
    Representation.Commutes (S.target X s) (T.target Y s) k (min (T.next 0 - 1) (S.next 0 - 1 - k))
      (L.lower φ S T s) := by
  cases s with
  | zero => exact hb.hom.commutes
  | succ s =>
    have hcomm := Representation.freeMap_commutes (target_lawful hb (s + 1)) (h.valuesIn s)
    rw [FreeMap.values_fst] at hcomm
    have hlower : L.lower φ S T (s + 1) =
        ((T.mappedAt s).1.rep p).freeMap k ((L.freeMapAt S T s).values p (S.mappedAt s).1) := by
      funext t
      exact congrArg (fun j => ((T.mappedAt s).1.rep p).freeMap j ((L.freeMapAt S T s).values p (S.mappedAt s).1) t)
        (h.map_shift s)
    rw [hlower]
    exact hcomm.mono (min_le_left _ _)

theorem lower_mem (s : ℕ) (ht : t - k < T.next 0) (v : ℕ → p.Field) :
    L.lower φ S T s t v ∈ p.space ((T.target Y s).dim (t - k)) := by
  cases s with
  | zero => exact hb.hom.mem t v
  | succ s => exact h.linear_mem hb s ht v

/-- Below the least degree there is nothing to lift. -/
theorem lower_eq_zero (s : ℕ) (ht : t < max S.minDegree (T.minDegree + k)) {v : ℕ → p.Field}
    (hv : v ∈ p.space ((S.target X s).dim t)) : L.lower φ S T s t v = 0 := by
  cases s with
  | succ s =>
    rw [show L.lower φ S T (s + 1) t = L.linear p S T s t from rfl, h.linear_eq_zero s ht, LinearMap.zero_apply]
  | zero =>
    by_cases hm : t < S.minDegree
    · have hzero : v = 0 := by
        rw [show (S.target X 0).dim t = 0 from hb.source_zero t hm] at hv
        exact funext fun i => hv i (Nat.zero_le i)
      rw [hzero, map_zero]
    · have hmem := hb.hom.mem t v
      rw [hb.target_zero (t - k) (by omega)] at hmem
      exact funext fun i => hmem i (Nat.zero_le i)

theorem comm_value (s : ℕ) {g : Generator} (hg : g ∈ (S.mappedAt s).1.generatorList) (hd : g.degree < L.next S T s) :
    Mapped.linear (T.target Y s) (T.mappedAt s) (g.degree - k) ((L.freeMapAt S T s).value p g) =
      L.lower φ S T s g.degree ((S.mappedAt s).2.value p g) := by
  by_cases hlow : max S.minDegree (T.minDegree + k) ≤ g.degree
  · exact (h.comm s g hg hlow hd).linear_eq
  · have hs := hb.source.computed s
    have hmem := hs.valuesIn _ (List.mem_map_of_mem hg)
    rw [hs.shift_eq] at hmem
    simp only [sub_zero] at hmem
    rw [FreeMap.value, if_pos (by rw [h.map_min]; omega), map_zero, h.lower_eq_zero hb s (not_le.mp hlow) hmem]

/-- On all elements of a degree that the lift has reached, going down after the lift is lifting after going down. -/
theorem comm_linear (s : ℕ) (ht : t < L.next S T s) (hS : t < S.next 0) (hT : t - k < T.next 0) (v : ℕ → p.Field) :
    Mapped.linear (T.target Y s) (T.mappedAt s) (t - k) (L.linear p S T s t v) =
      L.lower φ S T s t (Mapped.linear (S.target X s) (S.mappedAt s) t v) := by
  have hs := hb.source.computed s
  have hs' := hb.target.computed s
  have hdown := Representation.freeMap_comp (Mapped.commutes (target_lawful hb s) hs'.shift_eq hs'.valuesIn)
    (h.valuesIn s) (d := t) (by omega) v
  have hval := hs.valuesIn
  rw [hs.shift_eq] at hval
  have hlift := Representation.freeMap_comp (h.lower_commutes hb s) hval (d := t) (by omega) v
  rw [sub_zero] at hlift
  have hleft : L.linear p S T s t v =
      ((T.mappedAt s).1.rep p).freeMap k ((L.freeMapAt S T s).values p (S.mappedAt s).1) t v := by
    rw [linear, FreeMap.linear, h.map_shift]
  have hright : Mapped.linear (S.target X s) (S.mappedAt s) t v =
      (S.target X s).freeMap 0 ((S.mappedAt s).2.values p (S.mappedAt s).1) t v := by
    rw [Mapped.linear, FreeMap.linear, hs.shift_eq]
  rw [hleft, hright, hdown, hlift, add_zero, zero_add, FreeMap.values, FreeMap.values, List.map_map, List.map_map]
  refine LinearMap.congr_fun (Representation.freeMap_congr_values _ _ Generator.degree _ _ fun g hg hd => ?_) v
  simp only [sub_zero]
  exact h.comm_value hb s hg (by omega)

/-- The lift of a boundary is a cycle of the target. -/
theorem lower_value_mem_cycles (s : ℕ) {g : Generator} (hg : g ∈ (S.mappedAt s).1.generatorList)
    (hT : g.degree - k < T.next 0) (hprev : ∀ i, s = i + 1 → g.degree < L.next S T i) :
    L.lower φ S T s g.degree ((S.mappedAt s).2.value p g) ∈ T.cycles Y s (g.degree - k) := by
  have hmem := h.lower_mem hb s hT ((S.mappedAt s).2.value p g)
  cases s with
  | zero => exact hmem
  | succ s =>
    obtain ⟨_, hzero⟩ := Mapped.mem_kernel.mp (hb.source.value_mem_cycles hb.algebra hb.source_known hg)
    refine Mapped.mem_kernel.mpr ⟨hmem, ?_⟩
    change Mapped.linear _ _ _ (L.linear p S T s g.degree _) = 0
    have hlt : g.degree < S.next (s + 1) := FreeModule.degree_lt_nextDegree hg
    rw [h.comm_linear hb s (hprev s rfl) (lt_of_lt_of_le hlt (Resolution.next_le_zero hb.source _)) hT, hzero, map_zero]

end Lifts

/-- `L'` is `L` with the images `rows` of the generators of stage `s` in the next degree `t`. -/
structure Raised (S T : Resolution) (s : ℕ) (t : ℤ) (rows : List Vec) (L L' : Lift) : Prop where
  shift_eq : L'.shift = L.shift
  size_eq : L'.maps.size = L.maps.size
  next_eq : t = L.next S T s
  length_eq : rows.length = (S.mappedAt s).1.count t
  self_eq : L'.freeMapAt S T s =
    { L.freeMapAt S T s with outputs := (L.freeMapAt S T s).outputs.push rows }
  other_eq : ∀ i, i ≠ s → L'.freeMapAt S T i = L.freeMapAt S T i

theorem addRows_eq_ok {B : Algebra} {rows : List Vec} (h : L.addRows B S T s t rows = .ok L') :
    Raised S T s t rows L L' := by
  obtain ⟨F, hF, h⟩ := Result.bind_eq_ok.mp h
  obtain ⟨G, hG, h⟩ := Result.bind_eq_ok.mp h
  obtain ⟨g, hg, h⟩ := Result.bind_eq_ok.mp h
  obtain ⟨g', hg', h⟩ := Result.bind_eq_ok.mp h
  obtain rfl := Except.ok.inj h
  obtain ⟨_, rfl⟩ := Resolution.stage_eq_ok hF
  have hg := Result.ofOption_eq_ok.mp hg
  have hsize := (Array.getElem?_eq_some_iff.mp hg).1
  have hat : L.freeMapAt S T s = g := by rw [freeMapAt, hg, Option.getD_some]
  obtain ⟨ht, hlen, rfl⟩ := Mapped.addRows_eq_ok hg'
  refine ⟨rfl, Array.size_setIfInBounds, by rw [next, hat, ht], hlen, ?_, fun i hi => ?_⟩
  · rw [hat, freeMapAt, Array.getElem?_setIfInBounds_self_of_lt hsize, Option.getD_some]
  · rw [freeMapAt, freeMapAt, Array.getElem?_setIfInBounds_ne (Ne.symm hi)]

namespace Raised

variable {rows : List Vec} {n : ℤ} (h : Raised S T s t rows L L')

include h

theorem next_self : L'.next S T s = t + 1 := by
  rw [next, h.self_eq, FreeMap.nextDegree, Graded.nextDegree_push, h.next_eq]
  rfl

theorem next_other {i : ℕ} (hi : i ≠ s) : L'.next S T i = L.next S T i := by rw [next, h.other_eq i hi, next]

theorem value_eq {g : Generator} (hg : g.degree ≠ t) (i : ℕ) :
    (L'.freeMapAt S T i).value p g = (L.freeMapAt S T i).value p g := by
  by_cases hi : i = s
  · subst hi
    rw [h.self_eq, FreeMap.value_push fun hd => hg (hd.trans h.next_eq.symm)]
  · rw [h.other_eq i hi]

theorem shift_same (i : ℕ) : (L'.freeMapAt S T i).shift = (L.freeMapAt S T i).shift := by
  by_cases hi : i = s
  · subst hi
    rw [h.self_eq]
  · rw [h.other_eq i hi]

/-- Lower degrees are as before. -/
theorem linear_eq {d : ℤ} (hd : d < t) (i : ℕ) : L'.linear p S T i d = L.linear p S T i d := by
  rw [linear, linear, FreeMap.linear, FreeMap.linear, h.shift_same i]
  exact Representation.freeMap_congr_values _ _ Generator.degree _ _ fun g _ hg => h.value_eq (by omega) i

theorem lower_eq {d : ℤ} (i : ℕ) (hd : i = s + 1 → d < t) : L'.lower φ S T i d = L.lower φ S T i d := by
  cases i with
  | zero => rfl
  | succ i =>
    by_cases hi : i = s
    · exact h.linear_eq (hd (by omega)) i
    · rw [lower, lower, linear, linear, h.other_eq i hi]

/-- If the new images are the preimages of the lifts of the boundaries, the lift is one still. -/
theorem lifts (hL : Lifts X Y k φ S T L) (hS : t < S.next s) (hT : t - k < T.next s)
    (hprev : ∀ i, s = i + 1 → t < L.next S T i)
    (hrows : ∀ i, ∀ hi : i < rows.length, Proper p (((T.mappedAt s).1.rep p).dim (t - k)) rows[i] ∧
      Mapped.PreimageAt (T.target Y s) (T.mappedAt s) (t - k)
        (L.lower φ S T s t ((S.mappedAt s).2.value p ⟨t, i⟩)) (rows[i].coords p)) :
    Lifts X Y k φ S T L' := by
  have hnew : ∀ i, ∀ hi : i < rows.length,
      (L'.freeMapAt S T s).output (S.mappedAt s).1 ⟨t, i⟩ = .ok rows[i] := by
    intro i hi
    have hout := FreeMap.output_push_new (f := L.freeMapAt S T s) hi (by rw [h.length_eq, h.next_eq]; rfl)
    rw [h.self_eq, h.next_eq]
    exact hout
  have hmin : ∀ i, (L'.freeMapAt S T i).minDegree = (L.freeMapAt S T i).minDegree := by
    intro i
    by_cases hi : i = s
    · subst hi
      rw [h.self_eq]
      exact Graded.minDegree_push _ _
    · rw [h.other_eq i hi]
  have hplace : ∀ {g : Generator}, g ∈ (S.mappedAt s).1.generatorList → g.degree = t → g.index < rows.length := by
    rintro g hg rfl
    rw [h.length_eq]
    exact FreeModule.mem_generatorList.mp hg
  have hmem : ∀ {i : ℕ} {g : Generator}, g.degree < L'.next S T i → g.degree < L.next S T i ∨ i = s ∧ g.degree = t := by
    intro i g hd
    by_cases hi : i = s
    · subst hi
      have := h.next_eq
      rw [h.next_self] at hd
      omega
    · exact .inl (h.next_other hi ▸ hd)
  refine ⟨h.shift_eq.trans hL.shift_eq, h.size_eq.trans_le hL.size_le_source, h.size_eq.trans_le hL.size_le_target,
    fun i => (h.shift_same i).trans (hL.map_shift i), fun i => (hmin i).trans (hL.map_min i), fun i hi => ?_,
    fun i => ?_, fun i g hg hd hlow => ?_, fun i g hg hlow hd => ?_⟩
  · by_cases his : i = s
    · subst his
      rw [h.next_self]
      omega
    · rw [h.next_other his] at hi ⊢
      exact hL.next_le i hi
  · by_cases his : i + 1 = s
    · rw [his, h.next_self, h.next_other (by omega)]
      exact hprev i his.symm
    · rw [h.next_other his]
      refine (hL.next_succ_le i).trans ?_
      by_cases hi : i = s
      · subst hi
        rw [h.next_self, ← h.next_eq]
        omega
      · rw [h.next_other hi]
  · rw [(h.shift_same i).trans (hL.map_shift i)]
    rcases hmem (i := i) (g := g) (by omega) with hlt | ⟨rfl, hgt⟩
    · have hold := hL.defined i g hg (by omega) (hmin i ▸ hlow)
      rw [hL.map_shift i] at hold
      by_cases his : i = s
      · subst his
        rw [h.self_eq, FreeMap.output_push (ne_of_lt hlt)]
        exact hold
      · rw [h.other_eq i his]
        exact hold
    · have hi := hplace hg hgt
      obtain ⟨d, j⟩ := g
      obtain rfl : d = t := hgt
      exact ⟨_, hnew j hi, (hrows j hi).1⟩
  · rcases hmem hd with hlt | ⟨rfl, hgt⟩
    · have hne : i = s → g.degree < t := fun his => by
        subst his
        exact h.next_eq ▸ hlt
      have hsucc : i = s + 1 → g.degree < t := fun his => by
        subst his
        have := hL.next_succ_le s
        have := h.next_eq
        omega
      rw [h.lower_eq i hsucc]
      by_cases his : i = s
      · rw [h.value_eq (ne_of_lt (hne his))]
        exact hL.comm i g hg hlow hlt
      · rw [h.other_eq i his]
        exact hL.comm i g hg hlow hlt
    · have hi := hplace hg hgt
      obtain ⟨d, j⟩ := g
      obtain rfl : d = t := hgt
      rw [h.lower_eq i (fun his => absurd his (by omega)), FreeMap.value_of_output (hnew j hi)]
      exact (hrows j hi).2

end Raised

end Lift
end Steenrod
