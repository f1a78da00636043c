import Steenrod.Proofs.Resolution.Lifting
import Steenrod.Proofs.Module.Finite
/-!
Runs of a lift of a homomorphism of finite modules, between resolutions that are computed further in the meantime.
Main statement: in every state that a run leads to, what the maps of the lift answer is a chain map over the homomorphism.
-/
namespace Steenrod
namespace Lift

open Vec

variable {p : Prime} {X Y : Representation p} {k t : ℤ} {φ : ℤ → (ℕ → p.Field) →ₗ[p.Field] (ℕ → p.Field)}
variable {S S' T T' : Resolution} {L L' : Lift} {s : ℕ} {A A' B B' C : Algebra} {f : FiniteMap}

section Extending

variable (hS : Resolution.Extends X S S') (hT : Resolution.Extends Y T T')

include hS hT

theorem freeMapAt_extends : L.freeMapAt S' T' = L.freeMapAt S T := by
  funext i
  rw [freeMapAt, freeMapAt, hS.minDegree_eq, hT.minDegree_eq]

theorem next_extends : L.next S' T' = L.next S T := by
  funext i
  rw [next, next, freeMapAt_extends hS hT]

/-- The map of a stage is as it was, where both resolutions were computed. -/
theorem linear_extends (hs : t < S.next s) (ht : t - (L.freeMapAt S T s).shift < T.next s) :
    L.linear p S' T' s t = L.linear p S T s t := by
  obtain ⟨more, hmore, hdeg⟩ := hS.grows s
  rw [linear, linear, freeMapAt_extends hS hT, FreeMap.linear, FreeMap.linear,
    Representation.freeMap_congr (hT.grows s).agree _ _ ht, FreeMap.values, hmore, List.map_append]
  refine Representation.freeMap_eq_zero_add _ _ fun x hx => ?_
  obtain ⟨g, hg, rfl⟩ := List.mem_map.mp hx
  exact lt_of_lt_of_le hs (hdeg g hg)

omit hT in
theorem mem_of_extends {g : Generator} (hg : g ∈ (S'.mappedAt s).1.generatorList) (hd : g.degree < S.next s) :
    g ∈ (S.mappedAt s).1.generatorList := by
  obtain ⟨more, hmore, hdeg⟩ := hS.grows s
  rw [hmore, List.mem_append] at hg
  exact hg.resolve_right fun h => absurd (hdeg g h) (not_le.mpr hd)

/-- A lift is one still when the resolutions are computed further. -/
theorem Lifts.extended (hL : Lifts X Y k φ S T L) : Lifts X Y k φ S' T' L := by
  have hmap := freeMapAt_extends (L := L) hS hT
  have hnext := next_extends (L := L) hS hT
  refine ⟨hL.shift_eq, hL.size_le_source.trans hS.size_le, hL.size_le_target.trans hT.size_le, ?_, ?_, fun s hs => ?_,
    ?_, fun s g hg hd hlow => ?_, fun s g hg hlow hd => ?_⟩
  · exact hmap ▸ hL.map_shift
  · rw [hmap, hS.minDegree_eq, hT.minDegree_eq]
    exact hL.map_min
  · rw [hS.minDegree_eq, hT.minDegree_eq, hnext] at hs
    rw [hnext]
    obtain ⟨h₁, h₂⟩ := hL.next_le s hs
    exact ⟨h₁.trans (hS.next_le s), h₂.trans (hT.next_le s)⟩
  · exact hnext ▸ hL.next_succ_le
  · rw [hmap] at hlow ⊢
    rw [hnext] at hd
    have hmin := hL.map_min s
    obtain ⟨h₁, h₂⟩ := hL.next_le s (by omega)
    have hold := mem_of_extends hS hg (by omega)
    obtain ⟨v, hv, hproper⟩ := hL.defined s g hold hd hlow
    rw [hL.map_shift] at hproper ⊢
    have hdim : ((T'.mappedAt s).1.rep p).dim (g.degree - k) = ((T.mappedAt s).1.rep p).dim (g.degree - k) :=
      (hT.same s _ (by omega)).dim_eq
    refine ⟨v, ?_, hdim.symm ▸ hproper⟩
    -- Only the number of generators is read from the module.
    obtain ⟨_, _, hget⟩ := FreeMap.output_eq_ok hv
    rw [FreeMap.output, decide_eq_true ⟨hlow, FreeModule.mem_generatorList.mp hg⟩, hget]
    rfl
  · rw [hS.minDegree_eq, hT.minDegree_eq] at hlow
    rw [hnext] at hd
    obtain ⟨h₁, h₂⟩ := hL.next_le s (by omega)
    have hold := mem_of_extends hS hg (by omega)
    have hlower : L.lower φ S' T' s g.degree = L.lower φ S T s g.degree := by
      cases s with
      | zero => rfl
      | succ s =>
        have := hL.next_succ_le s
        obtain ⟨h₃, h₄⟩ := hL.next_le s (by omega)
        exact linear_extends hS hT (by omega) (by rw [hL.map_shift]; omega)
    rw [hmap, hlower, hS.value_eq s g (by omega)]
    exact (hT.same s _ (by omega)).preimageAt (hL.comm s g hold hlow hd)

end Extending

/-- The states of the algebras, of resolutions of source and target of `f`, and of a lift once there is one. A
lift is only started when stage 0 is computed as far as the source of `f` goes. -/
inductive Reachable (p : Prime) (f : FiniteMap) : Algebra → Algebra → Resolution → Resolution → Option Lift → Prop
  | new (A B : Algebra) (name name' : String) (budget budget' : Option ℤ) (source_prime : A.prime = p)
      (target_prime : B.prime = p) :
      Reachable p f A B (Resolution.new name f.source.minDegree budget)
        (Resolution.new name' f.target.minDegree budget') none
  | source {A A' B : Algebra} {S S' T : Resolution} {L : Option Lift} (earlier : Reachable p f A B S T L)
      (move : Resolution.Moves f.source.toGraded (fun _ _ => True) A S A' S') : Reachable p f A' B S' T L
  | target {A B B' : Algebra} {S T T' : Resolution} {L : Option Lift} (earlier : Reachable p f A B S T L)
      (move : Resolution.Moves f.target.toGraded (fun _ _ => True) B T B' T') : Reachable p f A B' S T' L
  | start (name : String) {A B : Algebra} {S T : Resolution} {L : Option Lift} {L' : Lift}
      (earlier : Reachable p f A B S T L) (source_known : S.hasComputed 0 f.source.maxDegree = true)
      (target_known : T.hasComputed 0 (f.source.maxDegree - f.shift) = true)
      (met : start A B S T (f.toMap (f.source.toGraded A) (f.target.toGraded B)) name f.source.maxDegree = .ok L') :
      Reachable p f A B S T (some L')
  | extend (s : ℕ) (t : ℤ) {A B : Algebra} {S T : Resolution} {L L' : Lift}
      (earlier : Reachable p f A B S T (some L)) (met : L.extend A B S T s t = .ok L') :
      Reachable p f A B S T (some L')
  | extendAll {A B : Algebra} {S T : Resolution} {L L' : Lift} (earlier : Reachable p f A B S T (some L))
      (met : L.extendAll A B S T = .ok L') : Reachable p f A B S T (some L')

/-- What a lift is a lift of, over an algebra that is known at least as far as `A` and `B`. -/
structure Given (C : Algebra) (f : FiniteMap) (A B : Algebra) : Prop where
  assoc : C.IsAssociative
  unital : C.IsUnital
  source : f.source.IsModule C
  target : f.target.IsModule C
  linear : f.IsLinear C
  source_le : A.computed ≤ C.computed
  target_le : B.computed ≤ C.computed

theorem Given.mono (h : Given C f A' B') (hA : A.computed ≤ A'.computed) (hB : B.computed ≤ B'.computed) :
    Given C f A B :=
  ⟨h.assoc, h.unital, h.source, h.target, h.linear, hA.trans h.source_le, hB.trans h.target_le⟩

/-- What is true in every state. -/
structure Sound (C : Algebra) (f : FiniteMap) (A B : Algebra) (S T : Resolution) (L : Option Lift) : Prop where
  source_prime : A.prime = C.prime
  target_prime : B.prime = C.prime
  source : S.Resolves (f.source.rep C.prime) f.source.minDegree
  target : T.Resolves (f.target.rep C.prime) f.target.minDegree
  source_known : S.next 0 - f.source.minDegree ≤ A.computed
  target_known : T.next 0 - f.target.minDegree ≤ B.computed
  lifts : ∀ L' ∈ L, Lifts (f.source.rep C.prime) (f.target.rep C.prime) f.shift (f.linear C.prime) S T L'

theorem hasComputed_of_request {M : FiniteModule} (hR : S.Resolves (M.rep C.prime) M.minDegree) (hM : M.IsModule C)
    (h₁ : C.IsAssociative) (h₂ : C.IsUnital) (hp : A.prime = C.prime) (hle : A'.computed ≤ C.computed)
    (hn : S.next 0 - M.minDegree ≤ A.computed) (hrun : (S.request M.toGraded s t).run A = (.ok S', A')) :
    S'.hasComputed s t = true := by
  have hp' := (Resolution.run_request_follows hrun).prime_eq.symm.trans hp
  have hlt := Resolution.lt_computed_of_request hrun
  rw [hR.minDegree_eq] at hlt
  obtain ⟨hshows, hlawful⟩ := FiniteModule.shows_of_isModule hM hp' hle hlt
  exact (Resolution.request_eq_ok hR hrun hp' (h₁.restrict hp' hle) (h₂.restrict hp' hle) hn hshows hlawful).2.2.2

namespace Sound

variable {L : Option Lift} (h : Sound C f A B S T L) (hg : Given C f A B)

include h hg

theorem between : Between (f.source.rep C.prime) (f.target.rep C.prime) f.shift C.computed (f.linear C.prime) S T := by
  have hS := h.source.minDegree_eq
  have hT := h.target.minDegree_eq
  have := h.source_known
  have := h.target_known
  have := hg.source_le
  have := hg.target_le
  refine ⟨hS ▸ h.source, hT ▸ h.target, C.lawfulBelow hg.assoc hg.unital, by omega, by omega, fun d hd => ?_,
    fun d hd => ?_, hg.linear.commutes hg.source hg.target (by omega), fun d v => ?_⟩
  · exact FiniteModule.dimension_of_lt (hS ▸ hd)
  · exact FiniteModule.dimension_of_lt (hT ▸ hd)
  · exact FiniteMap.linear_mem hg.linear.rows C.prime d v

theorem seenThrough : SeenThrough C.prime S T A B where
  source_prime := h.source_prime
  target_prime := h.target_prime
  source_known := h.source.minDegree_eq.symm ▸ h.source_known
  target_known := h.target.minDegree_eq.symm ▸ h.target_known
  target_assoc := hg.assoc.restrict h.target_prime hg.target_le
  target_unital := hg.unital.restrict h.target_prime hg.target_le

theorem resolves_source (move : Resolution.Moves f.source.toGraded (fun _ _ => True) A S A' S') (hg' : Given C f A' B) :
    S'.Resolves (f.source.rep C.prime) f.source.minDegree ∧ Resolution.Extends (f.source.rep C.prime) S S' ∧
      S'.next 0 - f.source.minDegree ≤ A'.computed := by
  have hp := move.follows.prime_eq.symm.trans h.source_prime
  have hkept : Resolution.Moves f.source.toGraded (fun A t => (f.source.toGraded A).Shows (f.source.rep C.prime) A t ∧
      (f.source.rep C.prime).LawfulThrough t) A S A' S' :=
    move.promised fun t _ ht => FiniteModule.shows_of_isModule hg.source hp hg'.source_le (h.source.minDegree_eq ▸ ht)
  exact hkept.resolves h.source hp (hg.assoc.restrict hp hg'.source_le) (hg.unital.restrict hp hg'.source_le) h.source_known

theorem resolves_target (move : Resolution.Moves f.target.toGraded (fun _ _ => True) B T B' T') (hg' : Given C f A B') :
    T'.Resolves (f.target.rep C.prime) f.target.minDegree ∧ Resolution.Extends (f.target.rep C.prime) T T' ∧
      T'.next 0 - f.target.minDegree ≤ B'.computed := by
  have hp := move.follows.prime_eq.symm.trans h.target_prime
  have hkept : Resolution.Moves f.target.toGraded (fun A t => (f.target.toGraded A).Shows (f.target.rep C.prime) A t ∧
      (f.target.rep C.prime).LawfulThrough t) B T B' T' :=
    move.promised fun t _ ht => FiniteModule.shows_of_isModule hg.target hp hg'.target_le (h.target.minDegree_eq ▸ ht)
  exact hkept.resolves h.target hp (hg.assoc.restrict hp hg'.target_le) (hg.unital.restrict hp hg'.target_le) h.target_known

theorem moveSource (move : Resolution.Moves f.source.toGraded (fun _ _ => True) A S A' S') (hg' : Given C f A' B) :
    Sound C f A' B S' T L := by
  have hp := move.follows.prime_eq.symm.trans h.source_prime
  obtain ⟨hS', hext, hn⟩ := h.resolves_source hg move hg'
  exact ⟨hp, h.target_prime, hS', h.target, hn, h.target_known,
    fun L' hL' => (h.lifts L' hL').extended hext (Resolution.Extends.refl _ T)⟩

theorem moveTarget (move : Resolution.Moves f.target.toGraded (fun _ _ => True) B T B' T') (hg' : Given C f A B') :
    Sound C f A B' S T' L := by
  have hp := move.follows.prime_eq.symm.trans h.target_prime
  obtain ⟨hT', hext, hn⟩ := h.resolves_target hg move hg'
  exact ⟨h.source_prime, hp, h.source, hT', h.source_known, hn,
    fun L' hL' => (h.lifts L' hL').extended (Resolution.Extends.refl _ S) hext⟩

omit hg in
theorem withLift {L' : Lift}
    (hL' : Lifts (f.source.rep C.prime) (f.target.rep C.prime) f.shift (f.linear C.prime) S T L') :
    Sound C f A B S T (some L') :=
  ⟨h.source_prime, h.target_prime, h.source, h.target, h.source_known, h.target_known,
    fun _ hmem => Option.some.inj hmem ▸ hL'⟩

theorem answers : Answers (f.source.rep C.prime) (f.target.rep C.prime) f.shift (f.linear C.prime)
    (f.toMap (f.source.toGraded A) (f.target.toGraded B)) := by
  intro d v hv
  obtain ⟨w, hw, hwp, hwc⟩ := FiniteMap.apply_of_prime_eq hg.linear.rows h.source_prime B hv 1
  rw [Nat.cast_one, one_smul] at hwc
  exact ⟨w, hw, hwp, hwc⟩

end Sound

theorem sound_new (name name' : String) (budget budget' : Option ℤ) (hA : A.prime = C.prime) (hB : B.prime = C.prime) :
    Sound C f A B (Resolution.new name f.source.minDegree budget) (Resolution.new name' f.target.minDegree budget')
      none := by
  have hnext : ∀ (name : String) (m : ℤ) (budget : Option ℤ), (Resolution.new name m budget).next 0 = m :=
    fun _ m _ => Int.add_zero m
  refine ⟨hA, hB, Resolution.resolves_new (fun d hd => FiniteModule.dimension_of_lt hd) name budget,
    Resolution.resolves_new (fun d hd => FiniteModule.dimension_of_lt hd) name' budget', ?_, ?_, fun L' hL' => ?_⟩
  · rw [hnext]
    omega
  · rw [hnext]
    omega
  · exact absurd hL' (Option.not_mem_none L')

theorem Reachable.sound {L : Option Lift} (h : Reachable C.prime f A B S T L) (hg : Given C f A B) :
    Sound C f A B S T L := by
  induction h with
  | new A B name name' budget budget' hA hB => exact sound_new name name' budget budget' hA hB
  | source earlier move ih =>
    have hg₀ := hg.mono move.follows.computed_le (le_refl _)
    exact (ih hg₀).moveSource hg₀ move hg
  | target earlier move ih =>
    have hg₀ := hg.mono (le_refl _) move.follows.computed_le
    exact (ih hg₀).moveTarget hg₀ move hg
  | start name earlier source_known target_known met ih =>
    have h := ih hg
    exact h.withLift (start_eq_ok (h.between hg) (h.seenThrough hg) (h.answers hg) rfl source_known target_known met).1
  | extend s t earlier met ih =>
    have h := ih hg
    exact h.withLift (extend_eq_ok (h.between hg) (h.seenThrough hg) (h.lifts _ rfl) met).1
  | extendAll earlier met ih =>
    have h := ih hg
    exact h.withLift (extendAll_eq_ok (h.between hg) (h.seenThrough hg) (h.lifts _ rfl) met).1

/-- The condition for starting a lift is what the two requests that are made before achieve. -/
theorem Reachable.start_of_requests {L : Option Lift} (name : String) (h : Reachable C.prime f A B S T L)
    (hg : Given C f A' B') (hS : (S.request f.source.toGraded 0 f.source.maxDegree).run A = (.ok S', A'))
    (hT : (T.request f.target.toGraded 0 (f.source.maxDegree - f.shift)).run B = (.ok T', B'))
    (met : Lift.start A' B' S' T' (f.toMap (f.source.toGraded A') (f.target.toGraded B')) name f.source.maxDegree =
      .ok L') : Reachable C.prime f A' B' S' T' (some L') := by
  have hsource := h.source (.request 0 _ hS trivial)
  have htarget := hsource.target (.request 0 _ hT trivial)
  have hs := h.sound (hg.mono (Resolution.run_request_follows hS).computed_le
    (Resolution.run_request_follows hT).computed_le)
  exact .start name htarget (hasComputed_of_request hs.source hg.source hg.assoc hg.unital hs.source_prime
    hg.source_le hs.source_known hS) (hasComputed_of_request hs.target hg.target hg.assoc hg.unital hs.target_prime
    hg.target_le hs.target_known hT) met

/-- What the map of stage `s` lies over: the homomorphism for stage 0, the map of the stage below for a later one. -/
def mapBelow (A B : Algebra) (S T : Resolution) (f : FiniteMap) (L : Lift) : ℕ → Option ModuleMap
  | 0 => some (f.toMap (f.source.toGraded A) (f.target.toGraded B))
  | s + 1 => L.toMap? A B S T s

/-- The map of a stage is given out in the degrees that it has reached. -/
theorem mapAt_eq_ok {g : FreeMap} (h : L.mapAt s t = .ok g) : L.maps[s]? = some g ∧ t < g.nextDegree := by
  unfold mapAt at h
  split at h
  · next g' hfilter =>
    obtain rfl := Except.ok.inj h
    obtain ⟨hget, hlt⟩ := Option.filter_eq_some_iff.mp hfilter
    exact ⟨hget, of_decide_eq_true hlt⟩
  · cases h

theorem toMap?_eq (hL : Lifts X Y k φ S T L) (hs : s < L.maps.size) : L.toMap? A B S T s =
    some ((L.freeMapAt S T s).toMap A (S.mappedAt s).1 ((T.mappedAt s).1.toGraded B)) := by
  have hS := Resolution.getElem?_stages (hs.trans_le hL.size_le_source)
  have hT := Resolution.getElem?_stages (hs.trans_le hL.size_le_target)
  rw [toMap?, hS, hT, freeMapAt, Array.getElem?_eq_getElem hs]
  rfl

/-- In every state, in every stage and degree that the lift has reached, and on every element of the stage: going
down after the lift is lifting after going down, and at the bottom it is the homomorphism. Below the least degree of
the map there is nothing to reach, and only the resolutions have to be computed. -/
theorem Reachable.chain_map (h : Reachable C.prime f A B S T (some L)) (hg : Given C f A B) {g : FreeMap}
    (hs : L.maps[s]? = some g) (ht : t < g.nextDegree)
    (hlow : g.minDegree ≤ t ∨ S.hasComputed s t = true ∧ T.hasComputed s (t - f.shift) = true) :
    ∃ lift below down down', L.toMap? A B S T s = some lift ∧ L.mapBelow A B S T f s = some below ∧
      S.mapOut A (f.source.toGraded A) s = .ok down ∧ T.mapOut B (f.target.toGraded B) s = .ok down' ∧
      ∀ x ∈ lift.source.elements C.prime t, ∃ y z w, lift.apply 1 t x = .ok y ∧
        down'.apply 1 (t - f.shift) y = .ok w ∧ down.apply 1 t x = .ok z ∧ below.apply 1 t z = .ok w := by
  have h := h.sound hg
  have hb := h.between hg
  have hAB := h.seenThrough hg
  have hL := h.lifts L rfl
  have hsize := (Array.getElem?_eq_some_iff.mp hs).1
  have hsizeS := hsize.trans_le hL.size_le_source
  have hsizeT := hsize.trans_le hL.size_le_target
  have hat : L.freeMapAt S T s = g := by rw [freeMapAt, hs, Option.getD_some]
  have hreached : t < L.next S T s := by rwa [next, hat]
  obtain ⟨hnextS, hnextT⟩ : t < S.next s ∧ t - f.shift < T.next s := by
    rcases hlow with hlow | ⟨hcS, hcT⟩
    · have hmin := hL.map_min s
      rw [hat] at hmin
      obtain ⟨h₁, h₂⟩ := hL.next_le s (by omega)
      omega
    · exact ⟨((Resolution.hasComputed_iff h.source).mp hcS).2, ((Resolution.hasComputed_iff h.target).mp hcT).2⟩
  have hzeroS := Resolution.next_le_zero h.source s
  have hzeroT := Resolution.next_le_zero h.target s
  have hknownS := h.source_known
  have hknownT := h.target_known
  have hshowS := (FiniteModule.shows_of_isModule hg.source h.source_prime hg.source_le (t := t) (by omega)).1
  have hshowT := (FiniteModule.shows_of_isModule hg.target h.target_prime hg.target_le (t := t - f.shift) (by omega)).1
  have hassocS := hg.assoc.restrict h.source_prime hg.source_le
  have hunitS := hg.unital.restrict h.source_prime hg.source_le
  have hbelow : ∃ below, L.mapBelow A B S T f s = some below ∧
      ∀ z, Proper C.prime ((S.target (f.source.rep C.prime) s).dim t) z → ∃ w, below.apply 1 t z = .ok w ∧
        Proper C.prime ((T.target (f.target.rep C.prime) s).dim (t - f.shift)) w ∧
        w.coords C.prime = L.lower (f.linear C.prime) S T s t (z.coords C.prime) := by
    cases s with
    | zero => exact ⟨_, rfl, fun z hz => h.answers hg t z hz⟩
    | succ s =>
      have := hL.next_succ_le s
      have := hb.source.next_succ_le s
      have := hb.target.next_succ_le s
      exact ⟨_, toMap?_eq hL (by omega), fun z hz => apply_eq hb hAB hL (by omega) (by omega) (by omega) hz⟩
  obtain ⟨below, hbelow, hanswer⟩ := hbelow
  refine ⟨_, below, _, _, toMap?_eq hL hsize, hbelow, Resolution.mapOut_eq hsizeS, Resolution.mapOut_eq hsizeT,
    fun x hx => ?_⟩
  have hx := (Resolution.Resolves.mem_elements h.source_prime h.source hknownS hnextS).mp hx
  obtain ⟨y, hy, hyp, hyc⟩ := apply_eq hb hAB hL hreached hnextS hnextT hx
  obtain ⟨w, hw, hwp, hwc⟩ := Resolution.Resolves.apply_of_prime_eq h.target_prime h.target hAB.target_assoc
    hAB.target_unital hknownT hshowT hnextT hyp
  obtain ⟨z, hz, hzp, hzc⟩ := Resolution.Resolves.apply_of_prime_eq h.source_prime h.source hassocS hunitS hknownS
    hshowS hnextS hx
  obtain ⟨w', hw', hwp', hwc'⟩ := hanswer z hzp
  have heq : w = w' := hwp.ext hwp' <| by
    rw [hwc, hyc, hwc', hzc]
    exact hL.comm_linear hb s hreached (by omega) (by omega) _
  exact ⟨y, z, w, hy, hw, hz, heq ▸ hw'⟩

/-- The homomorphism that is lifted in the smallest case. -/
def identityOfSphere : ModuleMap :=
  (FiniteMap.identity FiniteModule.sphere).toMap (FiniteModule.sphere.toGraded Algebra.first)
    (FiniteModule.sphere.toGraded Algebra.first)

def startOfSphere : Lift :=
  (start Algebra.first Algebra.first Resolution.ofSphere Resolution.ofSphere identityOfSphere "f" 0).toOption.getD
    ⟨"f", 0, #[]⟩

/-- The lift of the identity of the sphere through stage 1 and degree 1. -/
def ofSphere : Lift :=
  (startOfSphere.extend Algebra.first Algebra.first Resolution.ofSphere Resolution.ofSphere 1 1).toOption.getD
    startOfSphere

theorem reachable_startOfSphere : Reachable Algebra.first.prime (FiniteMap.identity FiniteModule.sphere) Algebra.first
    Algebra.first Resolution.ofSphere Resolution.ofSphere (some startOfSphere) := by
  have hmove : Resolution.Moves FiniteModule.sphere.toGraded (fun _ _ => True) Algebra.first
      (Resolution.new "S" 0 none) Algebra.first Resolution.ofSphere :=
    .request 1 1 Resolution.run_request_ofSphere trivial
  have hstart : start Algebra.first Algebra.first Resolution.ofSphere Resolution.ofSphere identityOfSphere "f" 0 =
      .ok startOfSphere := by decide +kernel
  exact .start "f" (.target (.source (.new _ _ "S" "S" none none rfl rfl) hmove) hmove)
    (by decide +kernel) (by decide +kernel) hstart

theorem reachable_ofSphere : Reachable Algebra.first.prime (FiniteMap.identity FiniteModule.sphere) Algebra.first
    Algebra.first Resolution.ofSphere Resolution.ofSphere (some ofSphere) := by
  have hextend : startOfSphere.extend Algebra.first Algebra.first Resolution.ofSphere Resolution.ofSphere 1 1 =
      .ok ofSphere := by decide +kernel
  exact .extend 1 1 reachable_startOfSphere hextend

theorem given_ofSphere : Given Algebra.first (FiniteMap.identity FiniteModule.sphere) Algebra.first Algebra.first where
  assoc := Algebra.isAssociative_first
  unital := Algebra.isUnital_first
  source := FiniteModule.isModule_sphere
  target := FiniteModule.isModule_sphere
  linear := FiniteMap.isLinear_identity FiniteModule.isModule_sphere.stored
  source_le := le_refl _
  target_le := le_refl _

/-- On the generator of stage 1 the lift of the identity is a chain map. -/
theorem chain_map_ofSphere : ∃ lift below down down',
    ofSphere.toMap? Algebra.first Algebra.first Resolution.ofSphere Resolution.ofSphere 1 = some lift ∧
      ofSphere.toMap? Algebra.first Algebra.first Resolution.ofSphere Resolution.ofSphere 0 = some below ∧
      Resolution.ofSphere.differentialMap Algebra.first 1 = .ok down ∧
      Resolution.ofSphere.differentialMap Algebra.first 1 = .ok down' ∧
      Vec.unit 1 0 ∈ lift.source.elements Algebra.first.prime 1 ∧
      ∀ x ∈ lift.source.elements Algebra.first.prime 1, ∃ y z w, lift.apply 1 1 x = .ok y ∧
        down'.apply 1 1 y = .ok w ∧ down.apply 1 1 x = .ok z ∧ below.apply 1 1 z = .ok w := by
  obtain ⟨g, hg, hnext, hmin⟩ : ∃ g, ofSphere.maps[1]? = some g ∧ 1 < g.nextDegree ∧ g.minDegree ≤ 1 :=
    ⟨ofSphere.maps[1]?.getD (FreeMap.new 0 0 0), by decide +kernel, by decide +kernel, by decide +kernel⟩
  obtain ⟨lift, below, down, down', hlift, hbelow, hdown, hdown', hall⟩ :=
    Reachable.chain_map reachable_ofSphere given_ofSphere hg hnext (.inl hmin)
  have hdimension : ofSphere.toMap? Algebra.first Algebra.first Resolution.ofSphere Resolution.ofSphere 1 = some lift →
      lift.source.dimension 1 = .ok 1 := by
    intro h
    have hdim : ((ofSphere.toMap? Algebra.first Algebra.first Resolution.ofSphere Resolution.ofSphere 1).map
        (·.source.dimension 1)) = some (.ok 1) := by decide +kernel
    rw [h] at hdim
    exact Option.some.inj hdim
  exact ⟨lift, below, down, down', hlift, hbelow, hdown, hdown', ⟨1, hdimension hlift, proper_unit 1 0⟩, hall⟩

end Lift
end Steenrod
