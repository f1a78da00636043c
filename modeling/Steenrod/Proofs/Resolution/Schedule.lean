import Steenrod.Proofs.Resolution.Composition
import Steenrod.Proofs.Resolution.Extending
import Steenrod.Proofs.Resolution.Tables
/-!
A lift does not depend on the order in which resolutions and lift are computed. Main statement: in any two states that
runs lead to, the maps of the lifts have the same outputs in every bidegree that both lifts have reached.
-/
namespace Steenrod

/-- The place of a generator depends on those of no greater degree. -/
theorem FreeModule.placeOf_congr {F F' : FreeModule} {d : ℤ} (p : Prime) (h : F'.below (d + 1) = F.below (d + 1))
    {g : Generator} (hg : g.degree ≤ d) : F'.placeOf p d g = F.placeOf p d g := by
  have hfilter : ∀ G : FreeModule, G.below (d + 1) = G.generatorList.filter fun g => g.degree ≤ d := fun G =>
    List.filter_congr fun g _ => decide_eq_decide.mpr Int.lt_add_one_iff
  rw [placeOf, placeOf, ← startOf?_filter hg, ← startOf?_filter hg F.generatorList, ← hfilter, ← hfilter, h]

namespace Lift

open Vec

variable {p : Prime} {X Y : Representation p} {k t n : ℤ} {φ : ℤ → (ℕ → p.Field) →ₗ[p.Field] (ℕ → p.Field)}
variable {m m' : ℤ} {S S' T T' : Resolution} {L L' : Lift} {s : ℕ} {A A' B B' C : Algebra} {f : FiniteMap}

/-- The lift has reached bidegree `(s, t)` of its source. -/
def Reaches (S : Resolution) (L : Lift) (s : ℕ) (t : ℤ) : Prop := S.hasComputed s t = true ∧ ∃ g, L.mapAt s t = .ok g

/-- In every state the tables of both resolutions hold what the steps have recorded. -/
theorem Reachable.built {L : Option Lift} (h : Reachable C.prime f A B S T L) (hg : Given C f A B) :
    S.Built (f.source.rep C.prime) f.source.minDegree ∧ T.Built (f.target.rep C.prime) f.target.minDegree := by
  induction h with
  | new A B name name' budget budget' hA hB => exact ⟨Resolution.built_new _ _ _ _, Resolution.built_new _ _ _ _⟩
  | @source A A' B S S' T L earlier move ih =>
    have hg₀ := hg.mono move.follows.computed_le (le_refl _)
    obtain ⟨hS, hT⟩ := ih hg₀
    have hp := move.follows.prime_eq.symm.trans (earlier.sound hg₀).source_prime
    have hshows : Resolution.Moves f.source.toGraded (fun A t => (f.source.toGraded A).Shows (f.source.rep C.prime) A t)
        A S A' S' := move.promised fun t _ ht =>
      (FiniteModule.shows_of_isModule hg.source hp hg.source_le (hS.minDegree_eq ▸ ht)).1
    exact ⟨hshows.built hS hp ((hg.assoc.answers hg.unital).restrict hp hg.source_le)
      fun d hd => FiniteModule.dimension_of_lt hd, hT⟩
  | @target A B B' S T T' L earlier move ih =>
    have hg₀ := hg.mono (le_refl _) move.follows.computed_le
    obtain ⟨hS, hT⟩ := ih hg₀
    have hp := move.follows.prime_eq.symm.trans (earlier.sound hg₀).target_prime
    have hshows : Resolution.Moves f.target.toGraded (fun A t => (f.target.toGraded A).Shows (f.target.rep C.prime) A t)
        B T B' T' := move.promised fun t _ ht =>
      (FiniteModule.shows_of_isModule hg.target hp hg.target_le (hT.minDegree_eq ▸ ht)).1
    exact ⟨hS, hshows.built hT hp ((hg.assoc.answers hg.unital).restrict hp hg.target_le)
      fun d hd => FiniteModule.dimension_of_lt hd⟩
  | start name earlier _ _ _ ih => exact ih hg
  | extend s t earlier _ ih => exact ih hg
  | extendAll earlier _ ih => exact ih hg

/-- Two lifts of one homomorphism, each between resolutions of its source and target as far as they are computed. -/
structure Twins (X Y : Representation p) (m m' k n : ℤ) (φ : ℤ → (ℕ → p.Field) →ₗ[p.Field] (ℕ → p.Field))
    (S T S' T' : Resolution) (L L' : Lift) : Prop where
  source : S.Built X m
  target : T.Built Y m'
  source' : S'.Built X m
  target' : T'.Built Y m'
  between : Between X Y k n φ S T
  between' : Between X Y k n φ S' T'
  lifts : Lifts X Y k φ S T L
  lifts' : Lifts X Y k φ S' T' L'
  dim_zero : 0 < n → Milnor.dim p 0 = 1

namespace Twins

variable (h : Twins X Y m m' k n φ S T S' T' L L')

include h

theorem map_min (s : ℕ) : (L.freeMapAt S T s).minDegree = max m (m' + k) := by
  rw [h.lifts.map_min, h.source.minDegree_eq, h.target.minDegree_eq]

theorem map_min' (s : ℕ) : (L'.freeMapAt S' T' s).minDegree = max m (m' + k) := by
  rw [h.lifts'.map_min, h.source'.minDegree_eq, h.target'.minDegree_eq]

theorem next_le (hlow : max m (m' + k) ≤ t) (hL : t < L.next S T s) : t < S.next s ∧ t - k < T.next s := by
  have hle := h.lifts.next_le s
  rw [h.source.minDegree_eq, h.target.minDegree_eq] at hle
  obtain ⟨h₁, h₂⟩ := hle (by omega)
  omega

theorem symm : Twins X Y m m' k n φ S' T' S T L' L :=
  ⟨h.source', h.target', h.source, h.target, h.between', h.between, h.lifts', h.lifts, h.dim_zero⟩

/-- Maps with the same values on the generators that both have reached are the same where both have reached. -/
theorem linear_eq (hvalue : ∀ g ∈ (S.mappedAt s).1.generatorList, g.degree < L.next S T s → g.degree < L'.next S' T' s →
      (L'.freeMapAt S' T' s).value p g = (L.freeMapAt S T s).value p g)
    (hL : t < L.next S T s) (hL' : t < L'.next S' T' s) : L'.linear p S' T' s t = L.linear p S T s t := by
  by_cases hlow : max m (m' + k) ≤ t
  · obtain ⟨hS, hT⟩ := h.next_le hlow hL
    obtain ⟨hS', hT'⟩ := h.symm.next_le hlow hL'
    have hbelow := h.source.below_eq h.source' (t := t + 1) (s := s) (by omega) (by omega)
    have hagree := h.target.rep_agreeBelow h.target' (t := t - k + 1) (s := s) (by omega) (by omega)
    have hleft := Mapped.linear_eq_freeMap_below ((T'.mappedAt s).1.rep p) ((S'.mappedAt s).1, L'.freeMapAt S' T' s)
      (lt_add_one t)
    have hright := Mapped.linear_eq_freeMap_below ((T.mappedAt s).1.rep p) ((S.mappedAt s).1, L.freeMapAt S T s)
      (lt_add_one t)
    refine hleft.trans (Eq.trans ?_ hright.symm)
    simp only
    rw [hbelow, h.lifts'.map_shift, h.lifts.map_shift, Representation.freeMap_congr hagree _ _ (by omega)]
    exact Representation.freeMap_congr_values _ _ Generator.degree _ _ fun g hg hd =>
      hvalue g (List.mem_filter.mp hg).1 (by omega) (by omega)
  · rw [h.lifts'.linear_eq_zero s (by rw [h.source'.minDegree_eq, h.target'.minDegree_eq]; omega),
      h.lifts.linear_eq_zero s (by rw [h.source.minDegree_eq, h.target.minDegree_eq]; omega)]

theorem mem_generatorList {g : Generator} (hS : g.degree < S.next s) (hS' : g.degree < S'.next s) :
    g ∈ (S'.mappedAt s).1.generatorList ↔ g ∈ (S.mappedAt s).1.generatorList := by
  rw [FreeModule.mem_generatorList, FreeModule.mem_generatorList]
  exact iff_of_eq (congrArg (g.index < ·) (h.source.count_eq h.source' (fun _ => hS) fun _ => hS'))

/-- A generator has one image, if its boundary has one in the stage below. The quasi-inverses of the targets find one preimage
of it. -/
theorem value_eq_of_lower {g : Generator} (hg : g ∈ (S.mappedAt s).1.generatorList) (hL : g.degree < L.next S T s)
    (hL' : g.degree < L'.next S' T' s) (hlower : L'.lower φ S' T' s g.degree = L.lower φ S T s g.degree) :
    (L'.freeMapAt S' T' s).value p g = (L.freeMapAt S T s).value p g := by
  by_cases hlow : max m (m' + k) ≤ g.degree
  · obtain ⟨hS, hT⟩ := h.next_le hlow hL
    obtain ⟨hS', hT'⟩ := h.symm.next_le hlow hL'
    have hfound := h.lifts.comm s g hg (by rw [h.source.minDegree_eq, h.target.minDegree_eq]; exact hlow) hL
    have hfound' := h.lifts'.comm s g ((h.mem_generatorList hS hS').mpr hg)
      (by rw [h.source'.minDegree_eq, h.target'.minDegree_eq]; exact hlow) hL'
    rw [hlower, h.source.value_eq h.source' (by omega) hS hS'] at hfound'
    have hsame := h.target.sameAt h.target' (by omega) hT hT'
    obtain ⟨N, hN, _⟩ := ((h.between'.target.computed s).solved _ (by rw [h.target'.minDegree_eq]; omega) hT').inverse_eq
    exact (hfound'.found N hN).symm.trans ((hsame.preimageAt hfound).found N hN)
  · rw [FreeMap.value, FreeMap.value, if_pos (by rw [h.map_min']; omega), if_pos (by rw [h.map_min]; omega)]

/-- A generator that both lifts have reached has one image, by induction on the stage. -/
theorem value_eq {g : Generator} (hg : g ∈ (S.mappedAt s).1.generatorList) (hL : g.degree < L.next S T s)
    (hL' : g.degree < L'.next S' T' s) : (L'.freeMapAt S' T' s).value p g = (L.freeMapAt S T s).value p g := by
  induction s generalizing g with
  | zero => exact h.value_eq_of_lower hg hL hL' rfl
  | succ s ih =>
    have hle := h.lifts.next_succ_le s
    have hle' := h.lifts'.next_succ_le s
    exact h.value_eq_of_lower hg hL hL' (h.linear_eq (fun x hx hd hd' => ih hx hd hd') (by omega) (by omega))

/-- In a bidegree that both lifts have reached they answer the same for every index. -/
theorem act_eq (hL : L.Reaches S s t) (hL' : L'.Reaches S' s t) (i : ℕ) : L.act S s ⟨t, i⟩ = L'.act S' s ⟨t, i⟩ := by
  obtain ⟨hcomputed, g, hat⟩ := hL
  obtain ⟨hcomputed', g', hat'⟩ := hL'
  obtain ⟨hmap, hlt⟩ := mapAt_eq_ok hat
  obtain ⟨hmap', hlt'⟩ := mapAt_eq_ok hat'
  have hg : L.freeMapAt S T s = g := by rw [freeMapAt, hmap, Option.getD_some]
  have hg' : L'.freeMapAt S' T' s = g' := by rw [freeMapAt, hmap', Option.getD_some]
  obtain ⟨hsize, hS⟩ := (Resolution.hasComputed_iff h.between.source).mp hcomputed
  obtain ⟨hsize', hS'⟩ := (Resolution.hasComputed_iff h.between'.source).mp hcomputed'
  have hcount := h.source.count_eq h.source' (fun _ => hS) fun _ => hS'
  have hmin := h.map_min s
  have hmin' := h.map_min' s
  rw [hg] at hmin
  rw [hg'] at hmin'
  rw [act, act, hat, hat', Resolution.stage_eq hsize, Resolution.stage_eq hsize']
  simp only [Result.ok_bind]
  rw [hcount, hmin, hmin']
  by_cases hi : (S.stageAt s).module.count t ≤ i
  · rw [if_pos hi, if_pos hi]
  rw [if_neg hi, if_neg hi]
  by_cases hlow : t < max m (m' + k)
  · rw [if_pos hlow, if_pos hlow]
  rw [if_neg hlow, if_neg hlow]
  have hmem : (⟨t, i⟩ : Generator) ∈ (S.mappedAt s).1.generatorList := FreeModule.mem_generatorList.mpr (not_le.mp hi)
  have hmem' : (⟨t, i⟩ : Generator) ∈ (S'.mappedAt s).1.generatorList := (h.mem_generatorList hS hS').mpr hmem
  have hnext : t < L.next S T s := by rwa [next, hg]
  have hnext' : t < L'.next S' T' s := by rwa [next, hg']
  obtain ⟨v, hv, hproper⟩ := h.lifts.defined s ⟨t, i⟩ hmem (Int.le_sub_one_of_lt hnext) (by rw [hg, hmin]; exact not_lt.mp hlow)
  obtain ⟨v', hv', hproper'⟩ := h.lifts'.defined s ⟨t, i⟩ hmem' (Int.le_sub_one_of_lt hnext')
    (by rw [hg', hmin']; exact not_lt.mp hlow)
  have hvalue := h.value_eq hmem hnext hnext'
  rw [FreeMap.value_of_output hv, FreeMap.value_of_output hv'] at hvalue
  rw [h.lifts.map_shift] at hproper
  rw [h.lifts'.map_shift] at hproper'
  have hdim := (h.target.rep_agreeBelow h.target' (t := t - k + 1) (s := s)
    (by have := (h.next_le (not_lt.mp hlow) hnext).2; omega)
    (by have := (h.symm.next_le (not_lt.mp hlow) hnext').2; omega)).dim_eq (t - k) (lt_add_one _)
  obtain rfl : v = v' := hproper.ext (hdim ▸ hproper') hvalue.symm
  rw [hg] at hv
  rw [hg'] at hv'
  exact hv.trans hv'.symm

/-- The induced maps on Ext answer the same where both answer. -/
theorem actOnExt_eq (hAB : SeenThrough p S T A B) (hAB' : SeenThrough p S' T' A' B') {y : Generator} {row row' : List ℕ}
    (hrow : L.actOnExt B S T s y = .ok row) (hrow' : L'.actOnExt B' S' T' s y = .ok row') : row = row' := by
  obtain ⟨_, hy, hL, hlen, hentry⟩ := Lift.actOnExt_eq_ok h.between hAB h.lifts hrow
  obtain ⟨_, hy', hL', hlen', hentry'⟩ := Lift.actOnExt_eq_ok h.between' hAB' h.lifts' hrow'
  have hT : y.degree < T.next s := FreeModule.degree_lt_nextDegree hy
  have hT' : y.degree < T'.next s := FreeModule.degree_lt_nextDegree hy'
  have hlow : m' ≤ y.degree := (h.target.stage s).source_min ▸ FreeModule.minDegree_le hy
  have hcount : (S'.free s).count (y.degree + k) = (S.free s).count (y.degree + k) :=
    h.source.count_eq h.source' (fun hm => (h.next_le (by omega) hL).1) fun hm => (h.symm.next_le (by omega) hL').1
  have hplace : (T'.free s).placeOf p y.degree y = (T.free s).placeOf p y.degree y :=
    FreeModule.placeOf_congr p (h.target.below_eq h.target' (by omega) (by omega)) (le_refl _)
  have hnext := Resolution.next_le_zero h.between.target s
  have hnext' := Resolution.next_le_zero h.between'.target s
  refine List.ext_getElem (by omega) fun i hi hi' => Prime.eq_of_cast_eq _ (hentry i hi).1 (hentry' i hi').1 ?_
  have hx : (⟨y.degree + k, i⟩ : Generator) ∈ (S.free s).generatorList := FreeModule.mem_generatorList.mpr (hlen ▸ hi)
  have hx' : (⟨y.degree + k, i⟩ : Generator) ∈ (S'.free s).generatorList := FreeModule.mem_generatorList.mpr (hlen' ▸ hi')
  have hvalue := linear_generator h.between h.lifts hx hL (by simp only; omega)
  have hvalue' := linear_generator h.between' h.lifts' hx' hL' (by simp only; omega)
  simp only at hvalue hvalue'
  rw [(hentry i hi).2, (hentry' i hi').2, hvalue, hvalue', hplace, h.value_eq hx hL hL']

end Twins

theorem size_step (h : L.step A B S T s t = .ok L') : L'.maps.size = L.maps.size := by
  obtain ⟨needed, _, h⟩ := Result.bind_eq_ok.mp h
  cases needed with
  | false =>
    obtain ⟨_, _, h⟩ := Result.bind_eq_ok.mp h
    obtain ⟨_, _, h⟩ := Result.bind_eq_ok.mp h
    obtain ⟨_, _, h⟩ := Result.bind_eq_ok.mp h
    exact (addRows_eq_ok h).size_eq
  | true =>
    obtain ⟨_, _, h⟩ := Result.bind_eq_ok.mp h
    obtain ⟨_, _, h⟩ := Result.bind_eq_ok.mp h
    obtain ⟨_, _, h⟩ := Result.bind_eq_ok.mp h
    obtain ⟨_, _, h⟩ := Result.bind_eq_ok.mp h
    obtain ⟨_, _, h⟩ := Result.bind_eq_ok.mp h
    obtain ⟨_, _, h⟩ := Result.bind_eq_ok.mp h
    obtain ⟨_, _, h⟩ := Result.bind_eq_ok.mp h
    exact (addRows_eq_ok h).size_eq

theorem size_extendStage (h : L.extendStage A B S T s t = .ok L') : L'.maps.size = max L.maps.size (s + 1) := by
  obtain ⟨_, _, h⟩ := Result.bind_eq_ok.mp h
  rw [← size_reach S T L s]
  refine Result.foldlM_invariant (I := fun L₁ => L₁.maps.size = (L.reach S T s).maps.size) ?_ rfl h
  exact fun d _ L₁ L₂ h₁ h₂ => (size_step h₂).trans h₁

theorem lt_size_of_extend (h : L.extend A B S T s t = .ok L') : s < L'.maps.size := by
  unfold extend at h
  split at h
  · cases h
  split at h
  · cases h
  rw [List.range_succ, List.foldlM_append] at h
  obtain ⟨L₁, _, h⟩ := Result.bind_eq_ok.mp h
  obtain ⟨L₂, h₂, h⟩ := Result.bind_eq_ok.mp h
  obtain rfl := Except.ok.inj h
  have := size_extendStage h₂
  omega

/-- A call to extend the lift that is met reaches all bidegrees up to the one it asks for. -/
theorem Reachable.reaches_of_extend (h : Reachable C.prime f A B S T (some L)) (hg : Given C f A B)
    (hok : L.extend A B S T s t = .ok L') : ∀ s' ≤ s, ∀ t' ≤ t, L'.Reaches S s' t' := by
  have hs := h.sound hg
  have hcomputed : S.hasComputed s t = true := by
    by_contra hnot
    rw [Lift.extend, Bool.not_eq_true _ |>.mp hnot] at hok
    cases hok
  have hsize := lt_size_of_extend hok
  obtain ⟨hS, hlt⟩ := (Resolution.hasComputed_iff hs.source).mp hcomputed
  intro s' hs' t' ht'
  have hnext := (extend_eq_ok (hs.between hg) (hs.seenThrough hg) (hs.lifts L rfl) hok).2 s'
  rw [if_pos (by omega)] at hnext
  refine ⟨(Resolution.hasComputed_iff hs.source).mpr ⟨by omega, ?_⟩, L'.freeMapAt S T s', ?_⟩
  · exact lt_of_le_of_lt ht' (hlt.trans_le (Resolution.next_anti hs.source hs'))
  · rw [mapAt, getElem?_maps (S := S) (T := T) (by omega), Option.filter_some, if_pos]
    rw [next] at hnext
    exact decide_eq_true (by omega)

end Lift

namespace Growing

variable {d : ℤ} {A : Algebra}

theorem exists_extend_compute (d : ℤ) (A : Algebra) : ∃ e, ((compute d).run A).2 = A.extend e := by
  have hnone : A = A.extend (-1) := (if_pos (by omega)).symm
  unfold compute
  rw [run_bind, run_get]
  simp only
  split
  · exact ⟨-1, hnone⟩
  · split
    · exact ⟨-1, hnone⟩
    · exact ⟨d, rfl⟩

theorem exists_extend_ensure (d : ℤ) (A : Algebra) : ∃ e, ((ensure d).run A).2 = A.extend e := by
  unfold ensure
  rw [run_bind, run_get]
  simp only
  split
  · split
    · exact ⟨-1, (if_pos (by omega)).symm⟩
    · exact exists_extend_compute d A
  · exact exists_extend_compute d A

end Growing

/-- A request leaves the algebra computed through some degree, whether or not it is met. -/
theorem Resolution.exists_extend_request (M : Algebra → GradedModule) (R : Resolution) (s : ℕ) (t : ℤ) (A : Algebra) :
    ∃ e, ((R.request M s t).run A).2 = A.extend e := by
  have hprepare : ∃ e, ((R.prepare t).run A).2 = A.extend e := by
    unfold prepare
    split
    · split
      · exact ⟨-1, (if_pos (by omega)).symm⟩
      · exact Growing.exists_extend_ensure _ A
    · exact Growing.exists_extend_ensure _ A
  obtain ⟨e, he⟩ := hprepare
  refine ⟨e, ?_⟩
  unfold request
  rw [Growing.run_bind]
  split
  · next u B hrun =>
    rw [Growing.run_read]
    rw [hrun] at he
    exact he
  · next hrun =>
    rw [hrun] at he
    exact he

namespace Lift

variable {p : Prime} {s : ℕ} {t : ℤ} {f : FiniteMap}

/-- Resolutions of source and target over one algebra, and a lift between them. -/
structure State where
  algebra : Algebra
  source : Resolution
  target : Resolution
  lift : Lift

/-- A call that computes a resolution or the lift further. -/
inductive Call
  | resolveSource (s : ℕ) (t : ℤ)
  | resolveTarget (s : ℕ) (t : ℤ)
  | extend (s : ℕ) (t : ℤ)
  | extendAll
  | extendResolving (s : ℕ) (t : ℤ)
  deriving DecidableEq, Repr

namespace State

/-- Compute the resolution of the source. A request that is refused leaves it as it was. -/
def resolveSource (f : FiniteMap) (x : State) (s : ℕ) (t : ℤ) : Bool × State :=
  match (x.source.request f.source.toGraded s t).run x.algebra with
  | (.ok source, algebra) => (true, { x with source, algebra })
  | (.error _, algebra) => (false, { x with algebra })

def resolveTarget (f : FiniteMap) (x : State) (s : ℕ) (t : ℤ) : Bool × State :=
  match (x.target.request f.target.toGraded s t).run x.algebra with
  | (.ok target, algebra) => (true, { x with target, algebra })
  | (.error _, algebra) => (false, { x with algebra })

def extend (x : State) (s : ℕ) (t : ℤ) : State :=
  { x with lift := (x.lift.extend x.algebra x.algebra x.source x.target s t).toOption.getD x.lift }

def extendAll (x : State) : State :=
  { x with lift := (x.lift.extendAll x.algebra x.algebra x.source x.target).toOption.getD x.lift }

/-- The state after a call. Of a call with several parts, those before the first that fails stay done. -/
def serve (f : FiniteMap) (x : State) : Call → State
  | .resolveSource s t => (x.resolveSource f s t).2
  | .resolveTarget s t => (x.resolveTarget f s t).2
  | .extend s t => x.extend s t
  | .extendAll => x.extendAll
  | .extendResolving s t =>
    let (met, y) := x.resolveSource f s t
    if met then
      let (met, z) := y.resolveTarget f s (t - y.lift.shift)
      if met then z.extend s t else z
    else y

/-- What runs can lead to. -/
def Reachable (p : Prime) (f : FiniteMap) (x : State) : Prop :=
  Lift.Reachable p f x.algebra x.algebra x.source x.target (some x.lift)

variable {x : State} {s : ℕ} {t : ℤ}

theorem Reachable.resolveSource (h : x.Reachable p f) (s : ℕ) (t : ℤ) : (x.resolveSource f s t).2.Reachable p f := by
  obtain ⟨d, hd⟩ := Resolution.exists_extend_request f.source.toGraded x.source s t x.algebra
  unfold State.resolveSource
  split
  · next source algebra hrun =>
    rw [hrun] at hd
    have hmoved := Lift.Reachable.source h (.request s t hrun trivial)
    exact .target hmoved ((show algebra = _ from hd) ▸ .extend d x.algebra x.target)
  · next e algebra hrun =>
    rw [hrun] at hd
    have hmoved := Lift.Reachable.source h (.refused s t e hrun)
    exact .target hmoved ((show algebra = _ from hd) ▸ .extend d x.algebra x.target)

theorem Reachable.resolveTarget (h : x.Reachable p f) (s : ℕ) (t : ℤ) : (x.resolveTarget f s t).2.Reachable p f := by
  obtain ⟨d, hd⟩ := Resolution.exists_extend_request f.target.toGraded x.target s t x.algebra
  unfold State.resolveTarget
  split
  · next target algebra hrun =>
    rw [hrun] at hd
    have hmoved := Lift.Reachable.target h (.request s t hrun trivial)
    exact .source hmoved ((show algebra = _ from hd) ▸ .extend d x.algebra x.source)
  · next e algebra hrun =>
    rw [hrun] at hd
    have hmoved := Lift.Reachable.target h (.refused s t e hrun)
    exact .source hmoved ((show algebra = _ from hd) ▸ .extend d x.algebra x.source)

theorem Reachable.extend (h : x.Reachable p f) (s : ℕ) (t : ℤ) : (x.extend s t).Reachable p f := by
  unfold State.extend
  cases hmet : x.lift.extend x.algebra x.algebra x.source x.target s t with
  | error e => exact h
  | ok L => exact Lift.Reachable.extend s t h hmet

theorem Reachable.extendAll (h : x.Reachable p f) : x.extendAll.Reachable p f := by
  unfold State.extendAll
  cases hmet : x.lift.extendAll x.algebra x.algebra x.source x.target with
  | error e => exact h
  | ok L => exact Lift.Reachable.extendAll h hmet

/-- A call leads from one state to another, whether or not it fails. -/
theorem Reachable.serve (h : x.Reachable p f) (c : Call) : (x.serve f c).Reachable p f := by
  cases c with
  | resolveSource s t => exact h.resolveSource s t
  | resolveTarget s t => exact h.resolveTarget s t
  | extend s t => exact h.extend s t
  | extendAll => exact h.extendAll
  | extendResolving s t =>
    have hsource := h.resolveSource s t
    have htarget := hsource.resolveTarget s (t - (x.resolveSource f s t).2.lift.shift)
    simp only [State.serve]
    split
    · split
      · exact htarget.extend s t
      · exact htarget
    · exact hsource

/-- A schedule of calls leads from one state to another. -/
theorem Reachable.serveAll (h : x.Reachable p f) (calls : List Call) : (calls.foldl (State.serve f) x).Reachable p f := by
  induction calls generalizing x with
  | nil => exact h
  | cons c calls ih => exact ih (h.serve c)

end State

/-- The lift does not depend on the schedule. In any two states that runs lead to, each from new resolutions of source and
target: in every bidegree that the lift has reached in both, it answers the same for every index, and the induced map on Ext
answers the same wherever it does so in both. -/
theorem Reachable.independent_of_schedule (h : Reachable C.prime f A B S T (some L)) (hg : Given C f A B)
    (h' : Reachable C.prime f A' B' S' T' (some L')) (hg' : Given C f A' B') :
    (∀ s t, L.Reaches S s t → L'.Reaches S' s t → ∀ i, L.act S s ⟨t, i⟩ = L'.act S' s ⟨t, i⟩) ∧
      ∀ s y row row', L.actOnExt B S T s y = .ok row → L'.actOnExt B' S' T' s y = .ok row' → row = row' := by
  have hs := h.sound hg
  have hs' := h'.sound hg'
  obtain ⟨hS, hT⟩ := h.built hg
  obtain ⟨hS', hT'⟩ := h'.built hg'
  have htwins : Twins (f.source.rep C.prime) (f.target.rep C.prime) f.source.minDegree f.target.minDegree f.shift
      C.computed (f.linear C.prime) S T S' T' L L' :=
    ⟨hS, hT, hS', hT', hs.between hg, hs'.between hg', hs.lifts L rfl, hs'.lifts L' rfl,
      (C.lawfulBelow hg.assoc hg.unital).dim_zero⟩
  exact ⟨fun s t hL hL' i => htwins.act_eq hL hL' i,
    fun s y row row' hrow hrow' => htwins.actOnExt_eq (hs.seenThrough hg) (hs'.seenThrough hg') hrow hrow'⟩

/-- On the sphere: a call that fails and one that extends the lift of the identity as far as possible lead to the same image of
the generator of stage 1 as one call that resolves and extends. -/
theorem independent_of_schedule_ofSphere :
    let start : State := ⟨Algebra.first, Resolution.ofSphere, Resolution.ofSphere, startOfSphere⟩
    let x := [Call.extend 1 5, .extendAll].foldl (State.serve (FiniteMap.identity FiniteModule.sphere)) start
    let y := [Call.extendResolving 1 1].foldl (State.serve (FiniteMap.identity FiniteModule.sphere)) start
    x.lift.Reaches x.source 1 1 ∧ y.lift.Reaches y.source 1 1 ∧ x.lift.act x.source 1 ⟨1, 0⟩ = y.lift.act y.source 1 ⟨1, 0⟩ := by
  intro start x y
  have hstart : start.Reachable Algebra.first.prime (FiniteMap.identity FiniteModule.sphere) := reachable_startOfSphere
  have hx := hstart.serveAll [Call.extend 1 5, .extendAll]
  have hy := hstart.serveAll [Call.extendResolving 1 1]
  have hgiven : ∀ z : State, z.algebra.computed ≤ Algebra.first.computed →
      Given Algebra.first (FiniteMap.identity FiniteModule.sphere) z.algebra z.algebra := fun z hz => given_ofSphere.mono hz hz
  have hreach : ∀ z : State, z.source.hasComputed 1 1 = true → (z.lift.mapAt 1 1).toOption.isSome = true →
      z.lift.Reaches z.source 1 1 := by
    intro z hz hmap
    refine ⟨hz, ?_⟩
    cases hg : z.lift.mapAt 1 1 with
    | ok g => exact ⟨g, rfl⟩
    | error e => rw [hg] at hmap; cases hmap
  have hxr : x.lift.Reaches x.source 1 1 := hreach x (by decide +kernel) (by decide +kernel)
  have hyr : y.lift.Reaches y.source 1 1 := hreach y (by decide +kernel) (by decide +kernel)
  obtain ⟨hact, _⟩ := Lift.Reachable.independent_of_schedule hx (hgiven x (by decide +kernel)) hy (hgiven y (by decide +kernel))
  exact ⟨hxr, hyr, hact 1 1 hxr hyr 0⟩

end Lift
end Steenrod
