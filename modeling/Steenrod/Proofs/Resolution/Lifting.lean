import Steenrod.Proofs.Resolution.Lift
/-!
The steps by which a lift is extended. Main statement: each step that succeeds leaves a lift, where the
quasi-inverses of the target are only ever asked for preimages of elements that have them.
-/
namespace Steenrod
namespace Lift

open Vec

variable {p : Prime} {X Y : Representation p} {k t n : ℤ} {φ : ℤ → (ℕ → p.Field) →ₗ[p.Field] (ℕ → p.Field)}
variable {S T : Resolution} {L L' : Lift} {s : ℕ} {A B : Algebra} {rows : List Vec}

/-- The algebras that source and target are seen through are known far enough. -/
structure SeenThrough (p : Prime) (S T : Resolution) (A B : Algebra) : Prop where
  source_prime : A.prime = p
  target_prime : B.prime = p
  source_known : S.next 0 - S.minDegree ≤ A.computed
  target_known : T.next 0 - T.minDegree ≤ B.computed
  target_assoc : B.IsAssociative
  target_unital : B.IsUnital

/-- The bidegree is computed in both resolutions, and the stage below has been lifted. -/
structure Ready (k : ℤ) (S T : Resolution) (L : Lift) (s : ℕ) (t : ℤ) : Prop where
  source : t < S.next s
  target : t - k < T.next s
  below : ∀ i, s = i + 1 → t < L.next S T i

/-- What `f` answers is `φ`. -/
def Answers (X Y : Representation p) (k : ℤ) (φ : ℤ → (ℕ → p.Field) →ₗ[p.Field] (ℕ → p.Field)) (f : ModuleMap) :
    Prop :=
  ∀ d v, Proper p (X.dim d) v →
    ∃ w, f.apply 1 d v = .ok w ∧ Proper p (Y.dim (d - k)) w ∧ w.coords p = φ d (v.coords p)

theorem le_next_of_lifts (hL : Lifts X Y k φ S T L) (s : ℕ) : max S.minDegree (T.minDegree + k) ≤ L.next S T s := by
  rw [← hL.map_min s, next, FreeMap.nextDegree, FreeMap.minDegree, Graded.nextDegree]
  omega

section Steps

variable (hb : Between X Y k n φ S T) (hAB : SeenThrough p S T A B) (hL : Lifts X Y k φ S T L)

include hb

/-- Where a generator of the source goes is its value. -/
theorem output_eq_ok {g : Generator} {v : Vec} (hg : g.degree < S.next s)
    (h : (S.mappedAt s).2.output (S.mappedAt s).1 g = .ok v) :
    (S.mappedAt s).2.value p g = v.coords p ∧ Proper p ((S.target X s).dim g.degree) v := by
  have hs := hb.source.computed s
  obtain ⟨hlow, hindex, _⟩ := FreeMap.output_eq_ok h
  obtain ⟨w, hw, hproper⟩ := hs.defined g (FreeModule.mem_generatorList.mpr hindex) (by omega) hlow
  obtain rfl := Except.ok.inj (h.symm.trans hw)
  rw [hs.shift_eq, sub_zero] at hproper
  exact ⟨FreeMap.value_of_output h, hproper⟩

include hAB

theorem dimension_target (hT : t - k < T.next s) :
    (T.mappedAt s).1.dimension B (t - k) = .ok (((T.mappedAt s).1.rep p).dim (t - k)) :=
  (hb.target.knownThrough hAB.target_known hT).dimension_of_prime_eq hAB.target_prime (le_refl _)

include hL

/-- What the map of a stage answers. -/
theorem apply_eq (ht : t < L.next S T s) (hS : t < S.next s) (hT : t - k < T.next s) {v : Vec}
    (hv : Proper p (Mapped.dim p (S.mappedAt s) t) v) :
    ∃ w, ((L.freeMapAt S T s).toMap A (S.mappedAt s).1 ((T.mappedAt s).1.toGraded B)).apply 1 t v = .ok w ∧
      Proper p (Mapped.dim p (T.mappedAt s) (t - k)) w ∧ w.coords p = L.linear p S T s t (v.coords p) := by
  have hknown := hb.target.knownThrough hAB.target_known hT
  have hle := Resolution.next_le_zero hb.target s
  have hseen := hAB.target_known
  obtain ⟨w, hw, hwp, hwc⟩ := FreeMap.apply_of_prime_eq hAB.source_prime (hb.source.knownThrough hAB.source_known hS)
    (f := L.freeMapAt S T s) (T := (T.mappedAt s).1.rep p) (B := B)
    (by rw [hL.map_shift]; exact hknown.shows_of_prime_eq hAB.target_prime hAB.target_assoc hAB.target_unital)
    (by rw [hL.map_min]; omega) (fun g hg hd => hL.defined s g hg (by omega)) hv 1
  rw [hL.map_shift] at hwp
  rw [Nat.cast_one, one_smul] at hwc
  exact ⟨w, hw, hwp, hwc⟩

/-- Preimages that are found go down to what they are preimages of. -/
theorem preimages_eq_ok {value : Generator → Result Vec} (hr : Ready k S T L s t)
    (h : L.preimages A B S T s t (T.mappedAt s).2 value = .ok rows) (hlow : T.minDegree ≤ t - k)
    (hvalue : ∀ i < (S.mappedAt s).1.count t, ∀ v, value ⟨t, i⟩ = .ok v →
      Proper p ((T.target Y s).dim (t - k)) v ∧ v.coords p = L.lower φ S T s t ((S.mappedAt s).2.value p ⟨t, i⟩)) :
    ∀ i, ∀ hi : i < rows.length, Proper p (((T.mappedAt s).1.rep p).dim (t - k)) rows[i] ∧
      Mapped.PreimageAt (T.target Y s) (T.mappedAt s) (t - k)
        (L.lower φ S T s t ((S.mappedAt s).2.value p ⟨t, i⟩)) (rows[i].coords p) := by
  obtain ⟨F, hF, h⟩ := Result.bind_eq_ok.mp h
  obtain ⟨G, hG, h⟩ := Result.bind_eq_ok.mp h
  obtain ⟨m, hm, h⟩ := Result.bind_eq_ok.mp h
  obtain ⟨_, rfl⟩ := Resolution.stage_eq_ok hF
  obtain ⟨_, rfl⟩ := Resolution.stage_eq_ok hG
  rw [hL.shift_eq] at hm
  obtain rfl := Except.ok.inj ((dimension_target hb hAB hr.target).symm.trans hm)
  obtain ⟨N, hN, hQ⟩ := ((hb.target.computed s).solved (t - k) hlow hr.target).inverse_eq
  have hget : (T.mappedAt s).2.quasiInverses.get? (t - L.shift) = some (Augmented.ofMatrix p N).quasiInverse :=
    hL.shift_eq.symm ▸ hQ
  rw [hget] at h
  obtain ⟨hlen, hrow⟩ := List.forall₂_iff_get.mp (Result.of_mapM_eq_ok h)
  intro i hi
  have hi' : i < (S.mappedAt s).1.count t := by
    rw [← hlen, List.length_range] at hi
    exact hi
  obtain ⟨v, hv, hpull⟩ := Result.bind_eq_ok.mp (hrow i (by rwa [hlen]) hi)
  simp only [List.get_eq_getElem, List.getElem_range] at hv
  have hpull := Result.ofOption_eq_ok.mp hpull
  obtain ⟨hproper, hcoords⟩ := hvalue i hi' v hv
  have hmem : v.coords p ∈ Mapped.image (T.target Y s) (T.mappedAt s) (t - k) := by
    rw [hb.target.exact s (t - k) hlow hr.target, hcoords]
    exact hL.lower_value_mem_cycles hb s (g := ⟨t, i⟩) (FreeModule.mem_generatorList.mpr hi')
      (lt_of_lt_of_le hr.target (Resolution.next_le_zero hb.target s)) hr.below
  obtain ⟨r, hpulled, hrp, hrc⟩ := hN.pullBack?_eq hproper (Proper.zero (n := Mapped.dim p (T.mappedAt s) (t - k))) 1
  rw [hAB.source_prime, hAB.target_prime] at hpull
  obtain rfl : r = rows.get ⟨i, hi⟩ := Option.some.inj (hpulled.symm.trans hpull)
  rw [coords_zero, zero_add, Nat.cast_one, one_smul] at hrc
  have hrow : (rows.get ⟨i, hi⟩).coords p = _ := hrc
  refine ⟨hrp, ?_⟩
  rw [← hcoords]
  refine ⟨?_, fun N' hN' => ?_⟩
  · exact (congrArg _ hrow).trans (hN.linear_expand hmem)
  · rw [hN'.unique hN fun _ _ => rfl]
    exact hrow.symm

omit hL in
/-- Where there are no generators, or no place for them to go, nothing has to be found. -/
theorem needsValues_eq_ok {needed : Bool} (hshift : L.shift = k) (hT : t - k < T.next s)
    (h : L.needsValues B S T s t = .ok needed) :
    needed = false → (S.mappedAt s).1.count t = 0 ∨ ((T.mappedAt s).1.rep p).dim (t - k) = 0 := by
  obtain ⟨F, hF, h⟩ := Result.bind_eq_ok.mp h
  obtain ⟨G, hG, h⟩ := Result.bind_eq_ok.mp h
  obtain ⟨m, hm, h⟩ := Result.bind_eq_ok.mp h
  obtain ⟨_, rfl⟩ := Resolution.stage_eq_ok hF
  obtain ⟨_, rfl⟩ := Resolution.stage_eq_ok hG
  rw [hshift] at hm
  obtain rfl := Except.ok.inj ((dimension_target hb hAB hT).symm.trans hm)
  obtain rfl := Except.ok.inj h
  intro hneeded
  rcases Bool.and_eq_false_iff.mp hneeded with hcount | hdim
  · exact .inl (not_not.mp (of_decide_eq_false hcount))
  · exact .inr (not_not.mp (of_decide_eq_false hdim))

theorem addZeros_eq_ok (hr : Ready k S T L s t) (h : L.addZeros B S T s t = .ok L')
    (hzero : (S.mappedAt s).1.count t = 0 ∨ ((T.mappedAt s).1.rep p).dim (t - k) = 0) :
    Lifts X Y k φ S T L' ∧ ∃ rows, Raised S T s t rows L L' := by
  obtain ⟨F, hF, h⟩ := Result.bind_eq_ok.mp h
  obtain ⟨G, hG, h⟩ := Result.bind_eq_ok.mp h
  obtain ⟨m, hm, h⟩ := Result.bind_eq_ok.mp h
  obtain ⟨_, rfl⟩ := Resolution.stage_eq_ok hF
  obtain ⟨_, rfl⟩ := Resolution.stage_eq_ok hG
  rw [hL.shift_eq] at hm
  obtain rfl := Except.ok.inj ((dimension_target hb hAB hr.target).symm.trans hm)
  have hraised := addRows_eq_ok h
  refine ⟨hraised.lifts hL hr.source hr.target hr.below fun i hi => ?_, _, hraised⟩
  have hi' : i < (S.mappedAt s).1.count t := by
    rw [List.length_replicate] at hi
    exact hi
  have hdim : ((T.mappedAt s).1.rep p).dim (t - k) = 0 := hzero.resolve_left (by omega)
  have hlow : T.minDegree ≤ t - k := by
    have := le_next_of_lifts hL s
    have := hraised.next_eq
    omega
  rw [List.getElem_replicate, coords_zero]
  refine ⟨Proper.zero, ?_⟩
  -- What the generator has to go over is in the image of a zero space.
  have hmem := hL.lower_value_mem_cycles hb s (g := ⟨t, i⟩) (FreeModule.mem_generatorList.mpr hi')
    (lt_of_lt_of_le hr.target (Resolution.next_le_zero hb.target s)) hr.below
  simp only at hmem
  rw [← hb.target.exact s (t - k) hlow hr.target, Mapped.image, Mapped.dim, hdim, space_zero, Submodule.map_bot,
    Submodule.mem_bot] at hmem
  rw [hmem]
  exact ⟨map_zero _, fun _ _ => map_zero _⟩

theorem addPreimages_eq_ok {value : Generator → Result Vec} (hr : Ready k S T L s t)
    (hrows : L.preimages A B S T s t (T.mappedAt s).2 value = .ok rows) (h : L.addRows B S T s t rows = .ok L')
    (hvalue : ∀ i < (S.mappedAt s).1.count t, ∀ v, value ⟨t, i⟩ = .ok v →
      Proper p ((T.target Y s).dim (t - k)) v ∧ v.coords p = L.lower φ S T s t ((S.mappedAt s).2.value p ⟨t, i⟩)) :
    Lifts X Y k φ S T L' ∧ ∃ rows, Raised S T s t rows L L' := by
  have hraised := addRows_eq_ok h
  have hlow : T.minDegree ≤ t - k := by
    have := le_next_of_lifts hL s
    have := hraised.next_eq
    omega
  exact ⟨hraised.lifts hL hr.source hr.target hr.below (preimages_eq_ok hb hAB hL hr hrows hlow hvalue), rows, hraised⟩

/-- Lifting the homomorphism itself. -/
theorem startStep_eq_ok {f : ModuleMap} (hf : Answers X Y k φ f) (hr : Ready k S T L 0 t)
    (h : startStep A B S T f L t = .ok L') : Lifts X Y k φ S T L' ∧ ∃ rows, Raised S T 0 t rows L L' := by
  obtain ⟨needed, hneeded, h⟩ := Result.bind_eq_ok.mp h
  cases needed with
  | false => exact addZeros_eq_ok hb hAB hL hr h (needsValues_eq_ok hb hAB hL.shift_eq hr.target hneeded rfl)
  | true =>
    obtain ⟨F, hF, h⟩ := Result.bind_eq_ok.mp h
    obtain ⟨rows, hrows, hadd⟩ := Result.bind_eq_ok.mp h
    obtain ⟨_, rfl⟩ := Resolution.stage_eq_ok hF
    refine addPreimages_eq_ok hb hAB hL hr hrows hadd fun i hi v hv => ?_
    obtain ⟨u, hu, hv⟩ := Result.bind_eq_ok.mp hv
    obtain ⟨hvalue, hproper⟩ := output_eq_ok hb hr.source hu
    obtain ⟨w, hw, hwp, hwc⟩ := hf t u hproper
    obtain rfl := Except.ok.inj (hw.symm.trans hv)
    exact ⟨hwp, hwc.trans (congrArg (φ t) hvalue.symm)⟩

/-- Lifting along the stage below. -/
theorem step_eq_ok (hr : Ready k S T L s t) (h : L.step A B S T s t = .ok L') :
    Lifts X Y k φ S T L' ∧ ∃ rows, Raised S T s t rows L L' := by
  obtain ⟨needed, hneeded, h⟩ := Result.bind_eq_ok.mp h
  cases needed with
  | false => exact addZeros_eq_ok hb hAB hL hr h (needsValues_eq_ok hb hAB hL.shift_eq hr.target hneeded rfl)
  | true =>
    obtain ⟨_, hpos, h⟩ := Result.bind_eq_ok.mp h
    obtain ⟨s, rfl⟩ : ∃ i, s = i + 1 := ⟨s - 1, by have := of_decide_eq_true (require_eq_ok.mp hpos); omega⟩
    obtain ⟨F, hF, h⟩ := Result.bind_eq_ok.mp h
    obtain ⟨F', hF', h⟩ := Result.bind_eq_ok.mp h
    obtain ⟨G, hG, h⟩ := Result.bind_eq_ok.mp h
    obtain ⟨G', hG', h⟩ := Result.bind_eq_ok.mp h
    obtain ⟨g, hg, h⟩ := Result.bind_eq_ok.mp h
    obtain ⟨rows, hrows, hadd⟩ := Result.bind_eq_ok.mp h
    obtain ⟨_, rfl⟩ := Resolution.stage_eq_ok hF
    obtain ⟨_, rfl⟩ := Resolution.stage_eq_ok hF'
    obtain ⟨_, rfl⟩ := Resolution.stage_eq_ok hG
    obtain ⟨_, rfl⟩ := Resolution.stage_eq_ok hG'
    have hat : L.freeMapAt S T s = g := by
      have hg := Result.ofOption_eq_ok.mp hg
      rw [Nat.add_sub_cancel] at hg
      rw [freeMapAt, hg, Option.getD_some]
    refine addPreimages_eq_ok hb hAB hL hr hrows hadd fun i hi v hv => ?_
    obtain ⟨u, hu, hv⟩ := Result.bind_eq_ok.mp hv
    obtain ⟨hvalue, hproper⟩ := output_eq_ok hb hr.source hu
    obtain ⟨w, hw, hwp, hwc⟩ := apply_eq hb hAB hL (hr.below s rfl) (hr.source.trans_le (hb.source.next_succ_le s))
      (hr.target.trans_le (hb.target.next_succ_le s)) hproper
    rw [hat] at hw
    obtain rfl := Except.ok.inj (hw.symm.trans hv)
    exact ⟨hwp, hwc.trans (congrArg (L.linear p S T s t) hvalue.symm)⟩

end Steps

theorem freeMapAt_reach (S T : Resolution) (L : Lift) (s : ℕ) : (L.reach S T s).freeMapAt S T = L.freeMapAt S T := by
  funext i
  unfold freeMapAt reach
  simp only [Array.getElem?_append, Array.getElem?_replicate]
  by_cases hi : i < L.maps.size
  · rw [if_pos hi]
  · rw [if_neg hi, Array.getElem?_eq_none (not_lt.mp hi), Option.getD_none]
    split <;> rfl

theorem size_reach (S T : Resolution) (L : Lift) (s : ℕ) : (L.reach S T s).maps.size = max L.maps.size (s + 1) := by
  rw [reach, Array.size_append, Array.size_replicate]
  omega

/-- Only the maps matter. -/
theorem Lifts.congr (hL : Lifts X Y k φ S T L) (hshift : L'.shift = L.shift)
    (hmaps : L'.freeMapAt S T = L.freeMapAt S T) (hS : L'.maps.size ≤ S.stages.size)
    (hT : L'.maps.size ≤ T.stages.size) : Lifts X Y k φ S T L' := by
  have hnext : L'.next S T = L.next S T := by
    funext i
    rw [next, next, hmaps]
  have hlower : L'.lower φ S T = L.lower φ S T := by
    funext i
    cases i with
    | zero => rfl
    | succ i =>
      funext t
      rw [lower, lower, linear, linear, hmaps]
  refine ⟨hshift.trans hL.shift_eq, hS, hT, ?_, ?_, ?_, ?_, ?_, ?_⟩
  · exact hmaps ▸ hL.map_shift
  · exact hmaps ▸ hL.map_min
  · exact hnext ▸ hL.next_le
  · exact hnext ▸ hL.next_succ_le
  · rw [hmaps, hnext]
    exact hL.defined
  · rw [hmaps, hnext, hlower]
    exact hL.comm

theorem Lifts.reach (hL : Lifts X Y k φ S T L) (hS : s < S.stages.size) (hT : s < T.stages.size) :
    Lifts X Y k φ S T (L.reach S T s) := by
  have hsize := size_reach S T L s
  have := hL.size_le_source
  have := hL.size_le_target
  exact hL.congr rfl (freeMapAt_reach S T L s) (by omega) (by omega)

theorem Ready.mono {d : ℤ} (hr : Ready k S T L s t) (hd : d ≤ t) : Ready k S T L s d :=
  ⟨by have := hr.source; omega, by have := hr.target; omega, fun i hi => by have := hr.below i hi; omega⟩

/-- Steps of one kind in one stage, degree by degree. -/
theorem steps_eq_ok {f : Lift → ℤ → Result Lift} (hf : ∀ L L' d, Lifts X Y k φ S T L → Ready k S T L s d →
      f L d = .ok L' → Lifts X Y k φ S T L' ∧ ∃ rows, Raised S T s d rows L L')
    (hL : Lifts X Y k φ S T L) (hr : Ready k S T L s t)
    (h : (GradedModule.degreesBetween (L.next S T s) t).foldlM f L = .ok L') :
    Lifts X Y k φ S T L' ∧ L'.next S T s = max (L.next S T s) (t + 1) ∧ (∀ i, i ≠ s → L'.next S T i = L.next S T i) ∧
      L'.maps.size = L.maps.size := by
  have hloop : ∀ (l : List ℤ) (L₁ : Lift), (∀ d ∈ l, d ≤ t) → Lifts X Y k φ S T L₁ → Ready k S T L₁ s t →
      l.foldlM f L₁ = .ok L' → Lifts X Y k φ S T L' ∧ L'.next S T s = L₁.next S T s + l.length ∧
        (∀ i, i ≠ s → L'.next S T i = L₁.next S T i) ∧ L'.maps.size = L₁.maps.size := by
    intro l
    induction l with
    | nil =>
      intro L₁ _ hL₁ _ h
      obtain rfl := Except.ok.inj h
      exact ⟨hL₁, by simp, fun _ _ => rfl, rfl⟩
    | cons d l ih =>
      intro L₁ hl hL₁ hr₁ h
      rw [List.foldlM_cons] at h
      obtain ⟨L₂, h₂, h⟩ := Result.bind_eq_ok.mp h
      obtain ⟨hL₂, rows, hraised⟩ := hf L₁ L₂ d hL₁ (hr₁.mono (hl d (by simp))) h₂
      have hr₂ : Ready k S T L₂ s t :=
        ⟨hr₁.source, hr₁.target, fun i hi => hraised.next_other (show i ≠ s by omega) ▸ hr₁.below i hi⟩
      obtain ⟨hL', hnext, hother, hsize⟩ := ih L₂ (fun c hc => hl c (by simp [hc])) hL₂ hr₂ h
      refine ⟨hL', ?_, fun i hi => (hother i hi).trans (hraised.next_other hi), hsize.trans hraised.size_eq⟩
      rw [hnext, hraised.next_self, hraised.next_eq, List.length_cons]
      omega
  obtain ⟨hL', hnext, hother, hsize⟩ := hloop _ L (fun d hd => (GradedModule.mem_degreesBetween.mp hd).2) hL hr h
  refine ⟨hL', ?_, hother, hsize⟩
  rw [hnext, GradedModule.length_degreesBetween]
  omega

/-- Before anything is lifted. -/
theorem lifts_new (X Y : Representation p) (φ : ℤ → (ℕ → p.Field) →ₗ[p.Field] (ℕ → p.Field)) (S T : Resolution)
    (name : String) (k : ℤ) : Lifts X Y k φ S T ⟨name, k, #[]⟩ := by
  have hmap : ∀ s, (⟨name, k, #[]⟩ : Lift).freeMapAt S T s = FreeMap.new S.minDegree T.minDegree k := fun _ => rfl
  have hnext : ∀ s, (⟨name, k, #[]⟩ : Lift).next S T s = max S.minDegree (T.minDegree + k) := fun s => by
    rw [next, hmap, FreeMap.nextDegree, FreeMap.new, Graded.nextDegree]
    exact Int.add_zero _
  refine ⟨rfl, Nat.zero_le _, Nat.zero_le _, fun _ => rfl, fun _ => rfl, fun s hs => ?_, fun s => ?_,
    fun s g _ hd hlow => ?_, fun s g _ hlow hd => ?_⟩
  · exact absurd (hnext s) (ne_of_gt hs)
  · rw [hnext, hnext]
  · have hlow : max S.minDegree (T.minDegree + k) ≤ g.degree := hlow
    rw [hnext] at hd
    omega
  · rw [hnext] at hd
    omega

section Stages

variable (hb : Between X Y k n φ S T) (hAB : SeenThrough p S T A B)

include hb hAB

theorem extendStage_eq_ok (hL : Lifts X Y k φ S T L) (hr : Ready k S T L s t) (hS : s < S.stages.size)
    (hT : s < T.stages.size) (h : L.extendStage A B S T s t = .ok L') :
    Lifts X Y k φ S T L' ∧ L'.next S T s = max (L.next S T s) (t + 1) ∧ ∀ i, i ≠ s → L'.next S T i = L.next S T i := by
  obtain ⟨g, hg, h⟩ := Result.bind_eq_ok.mp h
  have hnext : (L.reach S T s).next S T = L.next S T := by
    funext i
    rw [next, next, freeMapAt_reach]
  have hat : g.nextDegree = (L.reach S T s).next S T s := by
    rw [next, freeMapAt, Result.ofOption_eq_ok.mp hg, Option.getD_some]
  rw [hat] at h
  obtain ⟨hL', hself, hother, _⟩ := steps_eq_ok (fun L₁ L₂ d hL₁ hr₁ h₁ => step_eq_ok hb hAB hL₁ hr₁ h₁)
    (hL.reach hS hT) ⟨hr.source, hr.target, by rw [hnext]; exact hr.below⟩ h
  exact ⟨hL', by rw [hself, hnext], fun i hi => by rw [hother i hi, hnext]⟩

/-- Extending stage after stage, each through a degree that is computed in both resolutions. -/
theorem stages_eq_ok (top : ℕ → ℤ) (m : ℕ) (hL : Lifts X Y k φ S T L) (htop : ∀ i, i + 1 < m → top (i + 1) ≤ top i)
    (hsource : ∀ i < m, i < S.stages.size ∧ top i < S.next i)
    (htarget : ∀ i < m, i < T.stages.size ∧ top i - k < T.next i)
    (h : ((List.range m).map fun i => (i, top i)).foldlM (fun L (s, t) => L.extendStage A B S T s t) L = .ok L') :
    Lifts X Y k φ S T L' ∧ ∀ i, L'.next S T i = if i < m then max (L.next S T i) (top i + 1) else L.next S T i := by
  induction m generalizing L' with
  | zero =>
    obtain rfl := Except.ok.inj h
    exact ⟨hL, fun i => (if_neg (Nat.not_lt_zero i)).symm⟩
  | succ m ih =>
    rw [List.range_succ, List.map_append, List.foldlM_append] at h
    obtain ⟨L₁, h₁, h⟩ := Result.bind_eq_ok.mp h
    obtain ⟨L₂, h₂, h⟩ := Result.bind_eq_ok.mp h
    obtain rfl := Except.ok.inj h
    obtain ⟨hL₁, hnext⟩ := ih (fun i hi => htop i (by omega)) (fun i hi => hsource i (by omega))
      (fun i hi => htarget i (by omega)) h₁
    have hr : Ready k S T L₁ m (top m) := by
      refine ⟨(hsource m (by omega)).2, (htarget m (by omega)).2, fun i hi => ?_⟩
      subst hi
      have := htop i (by omega)
      rw [hnext i, if_pos (by omega)]
      omega
    obtain ⟨hL', hnew, hother⟩ := extendStage_eq_ok hb hAB hL₁ hr (hsource m (by omega)).1 (htarget m (by omega)).1 h₂
    refine ⟨hL', fun i => ?_⟩
    by_cases him : i = m
    · subst him
      rw [hnew, hnext, if_neg (lt_irrefl i), if_pos (Nat.lt_succ_self i)]
    · rw [hother i him, hnext]
      exact if_congr (by omega) rfl rfl

theorem extend_eq_ok (hL : Lifts X Y k φ S T L) (h : L.extend A B S T s t = .ok L') :
    Lifts X Y k φ S T L' ∧ ∀ i, L'.next S T i = if i < s + 1 then max (L.next S T i) (t + 1) else L.next S T i := by
  unfold extend at h
  split at h
  · cases h
  split at h
  · cases h
  next hS hT =>
  rw [Bool.not_eq_true, Bool.not_eq_false'] at hS hT
  obtain ⟨hsizeS, hnextS⟩ := (Resolution.hasComputed_iff hb.source).mp hS
  obtain ⟨hsizeT, hnextT⟩ := (Resolution.hasComputed_iff hb.target).mp hT
  rw [hL.shift_eq] at hnextT
  refine stages_eq_ok hb hAB (fun _ => t) (s + 1) hL (fun _ _ => le_refl t) (fun i hi => ⟨by omega, ?_⟩)
    (fun i hi => ⟨by omega, ?_⟩) (by rw [List.foldlM_map]; exact h)
  · exact lt_of_lt_of_le hnextS (Resolution.next_anti hb.source (by omega))
  · exact lt_of_lt_of_le hnextT (Resolution.next_anti hb.target (by omega))

theorem extendAll_eq_ok (hL : Lifts X Y k φ S T L) (h : L.extendAll A B S T = .ok L') :
    Lifts X Y k φ S T L' ∧ ∀ i, L.next S T i ≤ L'.next S T i := by
  have hlist : ((List.range (min S.height T.height)).filterMap fun s => (L.lastDegree? S T s).map (s, ·)) =
      (List.range (min S.height T.height)).map fun i => (i, min (S.next i - 1) (T.next i - 1 + k)) := by
    rw [← List.filterMap_eq_map]
    refine List.filterMap_congr fun i hi => ?_
    have hlt := List.mem_range.mp hi
    rw [lastDegree?, Resolution.getElem?_stages (lt_min_iff.mp hlt).1, Resolution.getElem?_stages (lt_min_iff.mp hlt).2,
      Function.comp_apply, ← Resolution.differential_nextDegree hb.source,
      ← Resolution.differential_nextDegree hb.target, ← hL.shift_eq]
    rfl
  rw [extendAll, hlist] at h
  have hstages := stages_eq_ok hb hAB (fun i => min (S.next i - 1) (T.next i - 1 + k)) _ hL (fun i _ => ?_) (fun i hi => ?_)
    (fun i hi => ?_) h
  · refine hstages.imp_right fun hnext i => ?_
    rw [hnext]
    split
    · exact le_max_left _ _
    · exact le_refl _
  · have := hb.source.next_succ_le i
    have := hb.target.next_succ_le i
    omega
  · exact ⟨(lt_min_iff.mp hi).1, by omega⟩
  · exact ⟨(lt_min_iff.mp hi).2, by omega⟩

theorem start_eq_ok {f : ModuleMap} {name : String} {top : ℤ} (hf : Answers X Y k φ f) (hshift : f.shift = k)
    (hS : S.hasComputed 0 top = true) (hT : T.hasComputed 0 (top - k) = true)
    (h : start A B S T f name top = .ok L') : Lifts X Y k φ S T L' ∧ top < L'.next S T 0 := by
  obtain ⟨hsizeS, hnextS⟩ := (Resolution.hasComputed_iff hb.source).mp hS
  obtain ⟨hsizeT, hnextT⟩ := (Resolution.hasComputed_iff hb.target).mp hT
  obtain ⟨g, hg, h⟩ := Result.bind_eq_ok.mp h
  have hL := (lifts_new X Y φ S T name f.shift).reach hsizeS hsizeT
  have hat : g.nextDegree = ((⟨name, f.shift, #[]⟩ : Lift).reach S T 0).next S T 0 := by
    rw [next, freeMapAt, Result.ofOption_eq_ok.mp hg, Option.getD_some]
  rw [hat] at h
  subst hshift
  obtain ⟨hL', hnext, _⟩ := steps_eq_ok (fun L₁ L₂ d hL₁ hr₁ h₁ => startStep_eq_ok hb hAB hL₁ hf hr₁ h₁) hL
    ⟨hnextS, hnextT, fun i hi => absurd hi (by omega)⟩ h
  exact ⟨hL', by omega⟩

end Stages

end Lift
end Steenrod
