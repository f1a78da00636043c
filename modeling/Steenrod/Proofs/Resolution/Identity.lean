import Steenrod.Proofs.Resolution.ChainMap
import Steenrod.Proofs.Resolution.Minimality
import Steenrod.Proofs.Module.Maps
/-!
The lift of the identity from a resolution to itself. A generator is zero in the first positions of the kernel of the
map out of its stage, so the quasi-inverse finds the generator itself when it is asked for a preimage of its boundary.
Main statement: every generator that the lift reaches goes to itself.
-/
namespace Steenrod
namespace Lift

open Vec

variable {p : Prime} {X : Representation p} {t n : ℤ} {φ : ℤ → (ℕ → p.Field) →ₗ[p.Field] (ℕ → p.Field)}
variable {S S' : Resolution} {L : Lift} {s : ℕ} {A A' C : Algebra} {M : FiniteModule}

/-- A generator is the preimage of its boundary that the quasi-inverse finds. -/
theorem expand_boundary (hS : S.Resolves X S.minDegree) (hp : Milnor.LawfulBelow p n) (hn : S.next 0 - S.minDegree ≤ n)
    {g : Generator} (hg : g ∈ (S.mappedAt s).1.generatorList) {N : Matrix}
    (hN : FreeMap.IsMatrixOf p N (Mapped.dim p (S.mappedAt s) g.degree) ((S.target X s).dim g.degree)
      (Mapped.linear (S.target X s) (S.mappedAt s) g.degree)) :
    Subspace.expand p (Augmented.leadingRows p N) ((S.mappedAt s).2.value p g) = (S.mappedAt s).1.generator p g := by
  have hs := hS.computed s
  have hle := Resolution.next_le_zero hS s
  have hlow : S.minDegree ≤ g.degree := hs.source_min ▸ FreeModule.minDegree_le hg
  have hlt : g.degree < S.next s := FreeModule.degree_lt_nextDegree hg
  have hT := hS.target_lawful hp (hS.lawful.mono (by omega : g.degree ≤ _)) (by omega) s
  obtain ⟨i, hi, hloc, hvalue⟩ := FreeMap.exists_generator hT (hs.definedThrough g.degree) hg (le_refl _)
    (by rw [hs.shift_eq]; omega)
  obtain rfl : i = (S.mappedAt s).1.placeOf p g.degree g := FreeModule.eq_placeOf_add hloc
  have hmem : (S.mappedAt s).1.generator p g ∈ p.space (Mapped.dim p (S.mappedAt s) g.degree) :=
    FreeModule.generator_mem p hg
  rw [← hvalue]
  refine hN.expand_linear hmem fun j hj => ?_
  -- Elements of the kernel have no coefficient on generators, by minimality.
  obtain ⟨f, hf, hfj, _⟩ := hj
  obtain ⟨hspace, hker⟩ := Submodule.mem_inf.mp hf
  have hlower := (hs.solved g.degree hlow hlt).mem_lower f hspace
    ((LinearMap.mem_ker.mp hker).symm ▸ Submodule.zero_mem _)
  refine Pi.single_eq_of_ne (fun hji => hfj (hlower j ?_)) _
  rw [hji]
  exact (FreeModule.degree_eq_iff_of_locate? hloc).mp rfl

/-- A lift of the identity is the identity: on generators, and with them on all elements. -/
theorem Lifts.identity (h : Lifts X X 0 φ S S L) (hb : Between X X 0 n φ S S)
    (hφ : ∀ d, ∀ v ∈ p.space (X.dim d), φ d v = v) (s : ℕ) :
    (∀ g ∈ (S.mappedAt s).1.generatorList, g.degree < L.next S S s →
      (L.freeMapAt S S s).value p g = (S.mappedAt s).1.generator p g) ∧
    ∀ t < L.next S S s, ∀ v ∈ p.space (Mapped.dim p (S.mappedAt s) t), L.linear p S S s t v = v := by
  have hs := hb.source.computed s
  have hknown := hb.source_known
  have hnext : ∀ {t : ℤ}, t < L.next S S s → S.minDegree ≤ t → t < S.next s := fun ht hlow => by
    have := (h.next_le s (by omega)).1
    omega
  have hvalue : (∀ t < L.next S S s, ∀ v ∈ p.space ((S.target X s).dim t), L.lower φ S S s t v = v) →
      ∀ g ∈ (S.mappedAt s).1.generatorList, g.degree < L.next S S s →
        (L.freeMapAt S S s).value p g = (S.mappedAt s).1.generator p g := by
    intro hlower g hg hd
    have hlow : S.minDegree ≤ g.degree := hs.source_min ▸ FreeModule.minDegree_le hg
    have hpre := h.comm s g hg (by omega) hd
    obtain ⟨N, hN, _⟩ := (hs.solved g.degree hlow (hnext hd hlow)).inverse_eq
    have hmem : (S.mappedAt s).2.value p g ∈ p.space ((S.target X s).dim (g.degree - (S.mappedAt s).2.shift)) :=
      hs.valuesIn _ (List.mem_map_of_mem hg)
    rw [hs.shift_eq, sub_zero] at hmem
    rw [sub_zero, hlower g.degree hd _ hmem] at hpre
    rw [← hpre.found N hN]
    exact expand_boundary hb.source hb.algebra hknown hg hN
  have hall : (∀ g ∈ (S.mappedAt s).1.generatorList, g.degree < L.next S S s →
        (L.freeMapAt S S s).value p g = (S.mappedAt s).1.generator p g) →
      ∀ t < L.next S S s, ∀ v ∈ p.space (Mapped.dim p (S.mappedAt s) t), L.linear p S S s t v = v := by
    intro hvalue t ht v hv
    by_cases hlow : S.minDegree ≤ t
    · have hlt := hnext ht hlow
      have hle := Resolution.next_le_zero hb.source s
      have hmin := hs.source_min
      rw [linear, FreeMap.linear, h.map_shift]
      exact FreeModule.freeMap_placeOf hb.algebra (by omega) (fun g hg hd => hvalue g hg (by omega)) hv
    · rw [show Mapped.dim p (S.mappedAt s) t = 0 from Representation.dim_free_eq_zero fun d hd => by
        obtain ⟨g, hg, rfl⟩ := List.mem_map.mp hd
        have := FreeModule.minDegree_le hg
        have := hs.source_min
        omega] at hv
      rw [(funext fun i => hv i (Nat.zero_le i) : v = 0), map_zero]
  have hlower : ∀ t < L.next S S s, ∀ v ∈ p.space ((S.target X s).dim t), L.lower φ S S s t v = v := by
    cases s with
    | zero => exact fun t _ v hv => hφ t v hv
    | succ s =>
      have hle := h.next_succ_le s
      exact fun t ht v hv => (Lifts.identity h hb hφ s).2 t (by omega) v hv
  exact ⟨hvalue hlower, hall (hvalue hlower)⟩

/-- What happens to a resolution that is source and target at once. -/
theorem Reachable.both {L : Option Lift} (h : Reachable p (FiniteMap.identity M) A A S S L)
    (move : Resolution.Moves M.toGraded (fun _ _ => True) A S A' S') :
    Reachable p (FiniteMap.identity M) A' A' S' S' L :=
  .target (.source h move) move

/-- In every state the lift of the identity, from a resolution to itself, sends each generator that it has reached to
the basis element which is that generator. -/
theorem Reachable.act_identity (h : Reachable C.prime (FiniteMap.identity M) A A S S (some L))
    (hg : Given C (FiniteMap.identity M) A A) {f : FreeMap} {x : Stage} {i : ℕ} (hf : L.mapAt s t = .ok f)
    (hx : S.stage s = .ok x) (hi : i < x.module.count t) :
    ∃ n j, x.module.dimension A t = .ok n ∧ x.module.indexOf A ⟨0, 0⟩ ⟨t, i⟩ = .ok j ∧
      L.act S s ⟨t, i⟩ = .ok (Vec.unit n j) := by
  have h := h.sound hg
  have hb := h.between hg
  have hL := h.lifts L rfl
  have hmap := mapAt_eq_ok hf
  obtain ⟨hsize, rfl⟩ := Resolution.stage_eq_ok hx
  have hat : L.freeMapAt S S s = f := by rw [freeMapAt, hmap.1, Option.getD_some]
  have hreached : t < L.next S S s := by
    rw [next, hat]
    exact hmap.2
  have hs := hb.source.computed s
  have hmem : (⟨t, i⟩ : Generator) ∈ (S.mappedAt s).1.generatorList := FreeModule.mem_generatorList.mpr hi
  have hlow : S.minDegree ≤ t := hs.source_min ▸ FreeModule.minDegree_le hmem
  have hlt : t < S.next s := FreeModule.degree_lt_nextDegree hmem
  have hsource := hb.source_known
  have hle := Resolution.next_le_zero hb.source s
  have hmin : f.minDegree = max S.minDegree (S.minDegree + 0) := hat ▸ hL.map_min s
  have hknown := hb.source.knownThrough (h.seenThrough hg).source_known hlt
  have hdimension := hknown.dimension_of_prime_eq h.source_prime (le_refl t)
  obtain ⟨start, hstart, hindex⟩ := hknown.indexOf_eq (a := ⟨0, 0⟩) (le_refl 0) hmem (by simp only; omega)
  simp only [zero_add, h.source_prime, FreeModule.startOf?_eq_placeOf hmem, Option.some.injEq] at hstart
  obtain ⟨v, hv, hproper⟩ := hL.defined s ⟨t, i⟩ hmem (by simp only; omega) (by rw [hat, hmin]; simp only; omega)
  simp only [hL.map_shift, FiniteMap.identity, sub_zero] at hproper
  have hvalue := (hL.identity hb (fun d v hv => FiniteMap.linear_identity hv) s).1 ⟨t, i⟩ hmem hreached
  rw [FreeMap.value_of_output hv] at hvalue
  have hplace : (S.mappedAt s).1.placeOf C.prime t ⟨t, i⟩ < Mapped.dim C.prime (S.mappedAt s) t :=
    FreeModule.placeOf_lt hmem
  have hunit : v = Vec.unit (Mapped.dim C.prime (S.mappedAt s) t) start :=
    hproper.ext (proper_unit _ _) (by rw [hvalue, ← hstart, coords_unit hplace]; rfl)
  refine ⟨_, start, hdimension, hindex, ?_⟩
  have hindex : i < (S.stageAt s).module.count t := hi
  rw [act, hf, Result.ok_bind, hx, Result.ok_bind, if_neg (not_le.mpr hindex), if_neg (by rw [hmin]; simp only; omega),
    ← hat]
  exact hunit ▸ hv

/-- The generator of stage 1 goes to itself under the lift of the identity of the sphere. -/
theorem act_identity_ofSphere : ∃ x n j, Resolution.ofSphere.stage 1 = .ok x ∧ x.module.count 1 = 1 ∧
    x.module.dimension Algebra.first 1 = .ok n ∧ x.module.indexOf Algebra.first ⟨0, 0⟩ ⟨1, 0⟩ = .ok j ∧
      ofSphere.act Resolution.ofSphere 1 ⟨1, 0⟩ = .ok (Vec.unit n j) := by
  obtain ⟨f, hf⟩ : ∃ f, ofSphere.mapAt 1 1 = .ok f :=
    ⟨(ofSphere.mapAt 1 1).toOption.getD (FreeMap.new 0 0 0), by decide +kernel⟩
  obtain ⟨x, hx, hcount⟩ : ∃ x, Resolution.ofSphere.stage 1 = .ok x ∧ x.module.count 1 = 1 :=
    ⟨(Resolution.ofSphere.stage 1).toOption.getD (Resolution.newStage 1 0), by decide +kernel, by decide +kernel⟩
  obtain ⟨n, j, hn, hj, hact⟩ := Reachable.act_identity reachable_ofSphere given_ofSphere hf hx (i := 0) (by omega)
  exact ⟨x, n, j, hx, hcount, hn, hj, hact⟩

end Lift
end Steenrod
