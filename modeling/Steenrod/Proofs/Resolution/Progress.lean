import Steenrod.Proofs.Resolution.Built
/-!
Requests never get stuck. Main statements: the steps of a request come in an order in which each finds what it needs, so
that a request that is not refused is met; a request that is refused changes nothing; and the degrees that are computed
afterwards are those that were computed before or asked for.
-/
namespace Steenrod
namespace Resolution

open Vec

variable {m t d : ℤ} {R R' : Resolution} {s i : ℕ} {A : Algebra} {M : GradedModule}

/-- What a request has to find: an algebra and a module that are known through degree `t`. -/
structure Provided {A : Algebra} (X : Representation A.prime) (m t : ℤ) (M : GradedModule) : Prop where
  answers : A.Answers
  lt_computed : t - m < A.computed
  lt_max : t < maxSigned
  shows : M.Shows X A t
  zero_below : ∀ d < m, X.dim d = 0

theorem Provided.mono {X : Representation A.prime} (h : Provided X m t M) (hd : d ≤ t) : Provided X m d M where
  answers := h.answers
  lt_computed := by have := h.lt_computed; omega
  lt_max := by have := h.lt_max; omega
  shows := h.shows.mono hd
  zero_below := h.zero_below

theorem kernelBelow_eq {K : Subspace} (hs : s < R.stages.size) (h : (R.mappedAt s).2.kernels.get? t = some K) :
    R.kernelBelow (s + 1) t = .ok K := by
  unfold kernelBelow
  cases s with
  | zero =>
    rw [if_pos rfl]
    exact Result.ofOption_eq_ok.mpr h
  | succ s =>
    rw [if_neg (by omega)]
    refine Result.bind_eq_ok.mpr ⟨(R.stageAt (s + 1)).differential, ?_, Result.ofOption_eq_ok.mpr h⟩
    rw [Nat.add_sub_cancel, stage_eq hs]
    rfl

section Steps

variable {X : Representation A.prime} (hR : R.Built X m) (hg : Provided X m t M) (hm : m ≤ t)

include hR hg hm

theorem exists_firstStep (hs : 0 < R.stages.size) (hnext : R.next 0 = t) :
    ∃ R', R.firstStep A M t = .ok R' ∧ Advanced 0 t R R' ∧ R'.Built X m := by
  have hlt := hg.lt_computed
  have hmax := hg.lt_max
  have hx := hR.stage 0
  rw [hnext] at hx
  obtain ⟨⟨F, augmentation⟩, hhit, hbuilt, hrecorded, hsame⟩ := Mapped.exists_hit hx hm hmax hlt hg.shows
    (Representation.closed_of_shows hg.shows hg.zero_below hlt)
    (Subspace.echelon_entire (p := A.prime) (X.dim t)) rfl
  have hzero : R.zero.extendTable A t = .ok { R.zero with tableEnd := t + 1 } := by
    rw [FreeModule.extendTable, if_neg (by rw [hR.zero_end, hnext]; omega)]
    refine Result.bind_eq_ok.mpr ⟨[], ?_, rfl⟩
    rw [hR.zero_generators]
    rfl
  set zero : FreeModule := { R.zero with tableEnd := t + 1 } with hzdef
  have hmin : R.zero.minDegree = m := hR.minDegree_eq
  have hknown : FreeModule.KnownThrough A zero t := ⟨lt_add_one t, fun _ => by simp only [hzdef]; omega, by
    rw [show zero.minDegree = m from hmin]
    exact hlt⟩
  have hempty : zero.generatorList = [] := by
    rw [FreeModule.generatorList, show zero.generators = Graded.empty m from hR.zero_generators]
    rfl
  have hdim : zero.dimension A t = .ok 0 := by
    rw [hknown.dimension_eq (le_refl t), FreeModule.rep, hempty]
    rfl
  obtain ⟨hshift, hlow, hdnext, houtputs, hkernels, hinverses⟩ := hR.zero_map
  rw [hnext] at hdnext houtputs
  set f := (R.stageAt 0).differential with hf
  have hdiff : f.extendByZero F (zero.toGraded A) t =
      .ok { f with outputs := f.outputs.push (List.replicate (F.count t) (Vec.zero 0)) } := by
    have hdegrees : GradedModule.degreesBetween f.nextDegree t = [t] := by
      rw [hdnext, GradedModule.degreesBetween, (by omega : (t + 1 - t).toNat = 1)]
      simp
    rw [FreeMap.extendByZero, hdegrees]
    refine Result.bind_eq_ok.mpr ⟨_, ?_, rfl⟩
    rw [List.foldlM_cons, hshift, sub_zero]
    exact Result.bind_eq_ok.mpr ⟨_, Result.bind_eq_ok.mpr ⟨0, hdim, rfl⟩, rfl⟩
  set f' : FreeMap := { f with outputs := f.outputs.push (List.replicate (F.count t) (Vec.zero 0)) } with hf'
  refine ⟨{ R with zero, augmentation, stages := R.stages.setIfInBounds 0 ⟨F, f'⟩ }, ?_, ?_⟩
  · exact Result.bind_eq_ok.mpr ⟨_, stage_eq hs, Result.bind_eq_ok.mpr ⟨_, hzero, Result.bind_eq_ok.mpr
      ⟨_, hg.shows.dimension_eq t (le_refl t), Result.bind_eq_ok.mpr ⟨_, hhit, Result.bind_eq_ok.mpr ⟨_, hdiff, rfl⟩⟩⟩⟩⟩
  set R' : Resolution := { R with zero, augmentation, stages := R.stages.setIfInBounds 0 ⟨F, f'⟩ } with hR'
  have hstage : ∀ i, R'.stageAt i = if i = 0 then ⟨F, f'⟩ else R.stageAt i := stageAt_set rfl hs rfl
  have hself : R'.mappedAt 0 = (F, augmentation) := by rw [mappedAt, hstage, if_pos rfl, if_pos rfl]
  have hnext' : R'.next 0 = t + 1 := by
    rw [next, hstage, if_pos rfl]
    exact hbuilt.source_next
  have hadvanced : Advanced 0 t R R' := ⟨rfl, rfl, hnext'.symm, Array.size_setIfInBounds, hnext, hnext',
    fun i hi => by rw [mappedAt, mappedAt, hstage, if_neg hi, if_neg hi, if_neg hi], fun h => absurd rfl h⟩
  refine ⟨hadvanced, hadvanced.built hR hm (fun i hi => absurd hi (by omega)) rfl (fun _ => ?_) (hself ▸ hbuilt)
    (hself ▸ hrecorded) (hself ▸ hsame)⟩
  have hsource : F.nextDegree = t + 1 := hbuilt.source_next
  rw [hstage, if_pos rfl]
  refine ⟨hshift, hlow, ?_, fun d hmd hd => ?_, hkernels, hinverses⟩
  · exact (Graded.nextDegree_push _ _).trans (congrArg (· + 1) hdnext)
  · have hend : f.outputs.nextDegree = t := hdnext
    change (f.outputs.push _).get? d = _
    rw [Graded.get?_push, hend]
    by_cases hdt : d = t
    · rw [if_pos hdt, hdt]
    · have hcount : F.count d = (R.stageAt 0).module.count d := (hsame d (by omega)).toSameOutputs.count_eq
      rw [if_neg hdt, houtputs d hmd (by omega), hcount]

theorem exists_laterStep (hs : s + 1 < R.stages.size) (hnext : R.next (s + 1) = t) (hprev : t < R.next s) :
    ∃ R', R.laterStep A (s + 1) t = .ok R' ∧ Advanced (s + 1) t R R' ∧ R'.Built X m := by
  have hlt := hg.lt_computed
  have hx := hR.stage (s + 1)
  rw [hnext] at hx
  have hbelow := hR.stage s
  have hknown : FreeModule.KnownThrough A (R.stageAt s).module t :=
    ⟨hbelow.table_end.symm ▸ hprev, fun _ => hbelow.table_end.symm ▸ hbelow.end_le (by omega),
      hbelow.source_min.symm ▸ hlt⟩
  obtain ⟨W, _, hrec⟩ := hR.recorded s t hm hprev
  obtain ⟨K, hK, hS, hcol⟩ := hrec.kernel
  obtain ⟨⟨F, differential⟩, hhit, hbuilt, hrecorded, hsame⟩ := Mapped.exists_hit hx hm hg.lt_max hlt
    (hknown.shows_of_answers hg.answers) (Representation.free_closed _ t) hS hcol
  refine ⟨{ R with stages := R.stages.setIfInBounds (s + 1) ⟨F, differential⟩ }, ?_, ?_⟩
  · have htarget : R.below (s + 1) = .ok (R.stageAt s).module := by
      rw [below, if_neg (by omega), Nat.add_sub_cancel, stage_eq (by omega)]
      rfl
    exact Result.bind_eq_ok.mpr ⟨_, stage_eq hs, Result.bind_eq_ok.mpr ⟨_, htarget, Result.bind_eq_ok.mpr
      ⟨_, kernelBelow_eq (by omega) hK, Result.bind_eq_ok.mpr ⟨_, hhit, rfl⟩⟩⟩⟩
  set R' : Resolution := { R with stages := R.stages.setIfInBounds (s + 1) ⟨F, differential⟩ } with hR'
  have hstage : ∀ i, R'.stageAt i = if i = s + 1 then ⟨F, differential⟩ else R.stageAt i := stageAt_set rfl hs rfl
  have hself : R'.mappedAt (s + 1) = (F, differential) := by rw [mappedAt, hstage, if_pos rfl, if_neg (by omega)]
  have hzero : R'.stageAt 0 = R.stageAt 0 := by rw [hstage, if_neg (by omega)]
  have hadvanced : Advanced (s + 1) t R R' := by
    refine ⟨rfl, rfl, ?_, Array.size_setIfInBounds, hnext, ?_, fun i hi => ?_, fun _ => hzero⟩
    · rw [next, hzero]
      exact hR.zero_end
    · rw [next, hstage, if_pos rfl]
      exact hbuilt.source_next
    · rw [mappedAt, mappedAt, hstage, if_neg hi]
  exact ⟨hadvanced, hadvanced.built hR hm (fun i hi => by obtain rfl : i = s := by omega
                                                          exact hprev) hK (fun h => absurd h (by omega))
    (hself ▸ hbuilt) (hself ▸ hrecorded) (hself ▸ hsame)⟩

/-- A step that is asked for when the degree before it and the stage below it are done succeeds. -/
theorem exists_step (hs : s < R.stages.size) (hnext : t ≤ R.next s) (hprev : ∀ i, s = i + 1 → t < R.next i) :
    ∃ R', R.step A M s t = .ok R' ∧ R'.Built X m ∧ R'.budget = R.budget ∧ R'.stages.size = R.stages.size ∧
      ∀ i, R'.next i = if i = s then max (R.next i) (t + 1) else R.next i := by
  unfold step
  by_cases hdone : R.hasComputed s t = true
  · have hlt := (hR.hasComputed_iff hm).mp hdone
    rw [if_pos hdone]
    refine ⟨R, rfl, hR, rfl, rfl, fun i => ?_⟩
    split
    · next hi => rw [hi, max_eq_left (by omega)]
    · rfl
  · have hle : ¬t < R.next s := fun h => hdone ((hR.hasComputed_iff hm).mpr h)
    have heq : R.next s = t := by omega
    rw [if_neg hdone]
    have hfinish : ∀ R', Advanced s t R R' → R'.budget = R.budget ∧ R'.stages.size = R.stages.size ∧
        ∀ i, R'.next i = if i = s then max (R.next i) (t + 1) else R.next i := by
      intro R' h
      refine ⟨h.budget_eq, h.size_eq, fun i => ?_⟩
      split
      · next hi => rw [hi, h.next_self, heq, max_eq_right (by omega)]
      · next hi => exact congrArg (fun x : Mapped => x.1.nextDegree) (h.other_eq i hi)
    cases s with
    | zero =>
      obtain ⟨R', hok, hadvanced, hbuilt⟩ := exists_firstStep hR hg hm hs heq
      exact ⟨R', by rw [if_pos rfl, hok], hbuilt, hfinish R' hadvanced⟩
    | succ s =>
      obtain ⟨R', hok, hadvanced, hbuilt⟩ := exists_laterStep hR hg hm hs heq (hprev s rfl)
      exact ⟨R', by rw [if_neg (by omega), hok], hbuilt, hfinish R' hadvanced⟩

end Steps

theorem SameStages.built {p : Prime} {X : Representation p} (h : SameStages R R') (hR : R.Built X m) : R'.Built X m where
  zero_generators := h.zero_eq ▸ hR.zero_generators
  zero_end := by rw [h.zero_eq, h.next_eq]; exact hR.zero_end
  zero_map := by rw [h.next_eq, h.stageAt_eq]; exact hR.zero_map
  stage := by rw [h.target_eq, h.next_eq, h.mappedAt_eq]; exact hR.stage
  next_succ_le := by rw [h.next_eq]; exact hR.next_succ_le
  recorded := by
    have hwanted : R'.wantedAt X = R.wantedAt X := by
      funext i d
      cases i with
      | zero => rfl
      | succ i => rw [wantedAt, wantedAt, h.mappedAt_eq]
    rw [h.target_eq, h.next_eq, h.mappedAt_eq, hwanted]
    exact hR.recorded

/-- Bidegrees are listed diagonal by diagonal. -/
theorem pairwise_bidegrees (low : ℤ) (s : ℕ) (t : ℤ) :
    (bidegrees low s t).Pairwise fun (b c : ℕ × ℤ) => b.2 + b.1 ≤ c.2 + c.1 := by
  have hmem : ∀ {k : ℤ} {b : ℕ × ℤ}, b ∈ diagonal low s t k → b.2 + b.1 = low + k := by
    intro k b hb
    obtain ⟨i, _, hi⟩ := List.mem_filterMap.mp hb
    simp only [Option.ite_none_right_eq_some, Option.some.injEq] at hi
    obtain ⟨_, rfl⟩ := hi
    simp
  rw [bidegrees, List.pairwise_flatMap]
  refine ⟨fun k _ => List.pairwise_iff_forall_sublist.mpr fun {b c} hsub => ?_, ?_⟩
  · rw [hmem (hsub.subset (by simp)), hmem (hsub.subset (by simp))]
  · refine List.pairwise_map.mpr (List.pairwise_lt_range.imp fun hlt b hb c hc => ?_)
    rw [hmem hb, hmem hc]
    omega

/-- The bidegrees that a step needs done come before it. -/
theorem mem_of_bidegrees_eq {low : ℤ} {done todo : List (ℕ × ℤ)} {b c : ℕ × ℤ}
    (h : bidegrees low s t = done ++ b :: todo) (hc : c.1 ≤ b.1 ∧ low ≤ c.2 ∧ c.2 ≤ b.2)
    (hlt : c.2 + c.1 < b.2 + b.1) : c ∈ done := by
  have hb : b ∈ bidegrees low s t := h ▸ by simp
  obtain ⟨hbs, hblow, hbt⟩ := mem_bidegrees.mp (show (b.1, b.2) ∈ bidegrees low s t from hb)
  have hmem : (c.1, c.2) ∈ bidegrees low s t := mem_bidegrees.mpr ⟨by omega, hc.2.1, by omega⟩
  rw [h] at hmem
  rcases List.mem_append.mp hmem with hmem | hmem
  · exact hmem
  · have hpair := (List.pairwise_append.mp (h ▸ pairwise_bidegrees low s t)).2.1
    rcases List.mem_cons.mp hmem with heq | hmem
    · have h₁ : c.1 = b.1 := congrArg Prod.fst heq
      have h₂ : c.2 = b.2 := congrArg Prod.snd heq
      omega
    · have := (List.pairwise_cons.mp hpair).1 _ hmem
      simp only at this
      omega

/-- All steps of a request succeed, and it is met exactly. -/
theorem exists_computeThrough {X : Representation A.prime} (hR : R.Built X m) (hg : Provided X m t M) (s : ℕ) :
    ∃ R', R.computeThrough A M s t = .ok R' ∧ R'.Built X m ∧ R'.budget = R.budget ∧
      ∀ i, R'.next i = if i ≤ s then max (R.next i) (t + 1) else R.next i := by
  have hloop : ∀ (todo done : List (ℕ × ℤ)) (R₁ : Resolution), bidegrees m s t = done ++ todo → R₁.Built X m →
      R₁.budget = R.budget → s < R₁.stages.size → (∀ b ∈ done, b.2 < R₁.next b.1) →
      (∀ i, R.next i ≤ R₁.next i ∧ R₁.next i ≤ if i ≤ s then max (R.next i) (t + 1) else R.next i) →
      ∃ R', todo.foldlM (fun R b => R.step A M b.1 b.2) R₁ = .ok R' ∧ R'.Built X m ∧ R'.budget = R.budget ∧
        (∀ b ∈ bidegrees m s t, b.2 < R'.next b.1) ∧
        ∀ i, R.next i ≤ R'.next i ∧ R'.next i ≤ if i ≤ s then max (R.next i) (t + 1) else R.next i := by
    intro todo
    induction todo with
    | nil =>
      intro done R₁ hlist hR₁ hbudget _ hdone hnext
      rw [List.append_nil] at hlist
      exact ⟨R₁, rfl, hR₁, hbudget, hlist ▸ hdone, hnext⟩
    | cons b todo ih =>
      intro done R₁ hlist hR₁ hbudget hsize hdone hnext
      obtain ⟨j, e⟩ := b
      obtain ⟨hj, hme, het⟩ := mem_bidegrees.mp (show (j, e) ∈ bidegrees m s t from hlist ▸ by simp)
      -- What the step needs lies on an earlier diagonal.
      have hlow : e ≤ R₁.next j := by
        by_cases hm : m = e
        · exact hm ▸ hR₁.le_next j
        · have := hdone (j, e - 1) (mem_of_bidegrees_eq hlist (by simp only; omega) (by simp only; omega))
          simp only at this
          omega
      have hprev : ∀ i, j = i + 1 → e < R₁.next i := fun i hi =>
        hdone (i, e) (mem_of_bidegrees_eq hlist (by simp only; omega) (by simp only; omega))
      obtain ⟨R₂, hok, hR₂, hbudget₂, hsize₂, hnext₂⟩ := exists_step hR₁ (hg.mono het) hme (by omega) hlow hprev
      obtain ⟨R', hok', h'⟩ := ih (done ++ [(j, e)]) R₂ (by rw [hlist, List.append_assoc]; rfl) hR₂
        (hbudget₂.trans hbudget) (by omega)
        (fun c hc => by
          rw [hnext₂]
          rcases List.mem_append.mp hc with hc | hc
          · have := hdone c hc
            split <;> omega
          · obtain rfl := List.mem_singleton.mp hc
            rw [if_pos rfl]
            omega)
        (fun i => by
          have := hnext i
          rw [hnext₂]
          split
          · next hi =>
            subst hi
            rw [if_pos hj] at this ⊢
            omega
          · exact this)
      exact ⟨R', by rw [List.foldlM_cons]; exact Result.bind_eq_ok.mpr ⟨R₂, hok, hok'⟩, h'⟩
  have hsame := sameStages_extendStages R s
  have hsize : s < (R.extendStages s).stages.size := by
    simp only [extendStages, height, Array.size_append, List.size_toArray, List.length_map, List.length_range']
    omega
  obtain ⟨R', hok, hR', hbudget, hall, hnext⟩ := hloop _ [] (R.extendStages s) rfl (hsame.built hR) rfl hsize
    (fun b hb => absurd hb List.not_mem_nil) (fun i => by
      rw [hsame.next_eq]
      split <;> omega)
  refine ⟨R', ?_, hR', hbudget, fun i => ?_⟩
  · rw [computeThrough, hR.minDegree_eq]
    exact hok
  · obtain ⟨hge, hle⟩ := hnext i
    by_cases hi : i ≤ s
    · rw [if_pos hi] at hle ⊢
      by_cases hm : m ≤ t
      · have := hall (i, t) (mem_bidegrees.mpr ⟨hi, hm, le_refl t⟩)
        simp only at this
        omega
      · have := hR.le_next i
        omega
    · rw [if_neg hi] at hle ⊢
      omega

end Resolution
end Steenrod
