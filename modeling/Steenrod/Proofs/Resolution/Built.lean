import Steenrod.Proofs.Resolution.Recorded
import Steenrod.Proofs.Resolution.Run
/-!
The tables of a resolution. At every moment they hold, stage by stage, what the steps through some degree have
recorded, and this degree does not increase with the stage. Main statements: the step in the next degree of a stage
succeeds and keeps this, and two resolutions of one module have the same entries wherever both are computed.
-/
namespace Steenrod

open Vec

namespace Mapped

variable {p : Prime} {T T' : Representation p} {x y : Mapped} {m n t d : ℤ} {wanted : Subspace}

theorem Built.of_agreeBelow (hx : Built T m n x) (h : T'.AgreeBelow T n) : Built T' m n x :=
  { hx with
    defined := fun g hg hd hlow => by
      obtain ⟨v, hv, hp⟩ := hx.defined g hg hd hlow
      rw [hx.shift_eq, sub_zero] at hp ⊢
      exact ⟨v, hv, by rwa [h.dim_eq g.degree (by omega)]⟩ }

theorem RecordedAt.of_agreeBelow (h : RecordedAt T wanted x d) (hT : T'.AgreeBelow T n) (hshift : x.2.shift = 0)
    (hd : d < n) : RecordedAt T' wanted x d := by
  obtain ⟨before, after, hbefore, hafter, hentries⟩ := h
  have hlinear : linear T' x d = linear T x d := (sameAt_of_agreeBelow hT hshift hd).linear_eq
  refine ⟨before, after, ?_, ?_, hentries⟩ <;> rw [hT.dim_eq d hd, hlinear] <;> assumption

/-- What is recorded in a degree stays recorded as further degrees are computed. -/
theorem RecordedAt.of_sameEntries (h : RecordedAt T wanted x d) {n' : ℤ} (hx : Built T m n x) (hy : Built T m n' y)
    (hmd : m ≤ d) (hn : d < n) (hn' : d < n') (hxy : ∀ e, m ≤ e → e < d + 1 → SameEntries x y e) :
    RecordedAt T wanted y d := by
  obtain ⟨before, after, hbefore, hafter, hentries⟩ := h
  have hsame : ∀ e, m ≤ e → e < d + 1 → SameOutputs x y e := fun e hme he => (hxy e hme he).toSameOutputs
  have hdim : dim p y d = dim p x d :=
    (rep_agreeBelow_of_sameOutputs hx hy (by omega) (by omega) (by omega) hsame).dim_eq d (lt_add_one d)
  have hself := hxy d hmd (lt_add_one d)
  have hlinear : ∀ v ∈ p.space (dim p x d), linear T x d v = linear T y d v := fun v hv =>
    (linear_eq_of_sameOutputs hx hy (Representation.AgreeBelow.refl T _) (by omega) (by omega) (by omega) hsame
      (dim_eq_below p x (lt_add_one d) ▸ hv)).symm
  refine ⟨before, after, ?_, ?_, ?_⟩
  · rw [lower, hdim, hself.count_eq]
    exact hbefore.congr fun v hv => hlinear v fun i hi => hv i (by unfold lower; omega)
  · rw [hdim]
    exact hafter.congr hlinear
  · exact ⟨hself.names_eq.trans hentries.names_eq, hself.outputs_eq.trans hentries.outputs_eq,
      hself.kernels_eq.trans hentries.kernel_eq, hself.inverses_eq.trans hentries.inverse_eq⟩

/-- The recorded kernel is of the dimension of the free module. -/
theorem RecordedAt.kernel (h : RecordedAt T wanted x d) :
    ∃ K, x.2.kernels.get? d = some K ∧ K.Echelon p ∧ K.columns = dim p x d := by
  obtain ⟨before, after, hbefore, _, hentries⟩ := h
  set k := (missing (Augmented.ofMatrix p before).space wanted).length with hk
  have hcount : x.1.count d = k := by
    rw [FreeModule.count, hentries.names_eq, Option.map_some, Option.getD_some]
    simp [FreeModule.defaultNames, hk]
  have hheight : before.height + k = dim p x d := by
    have hsum := FreeModule.dim_eq_below_add_count (p := p) (F := x.1) (t := d)
    have hlower := lower_eq_below (p := p) x d
    rw [← FreeModule.total_blocksOf] at hlower
    rw [hbefore.height_eq, hlower, ← hcount]
    exact hsum.symm
  refine ⟨_, hentries.kernel_eq, Subspace.echelon_span fun v hv => ?_, (Subspace.columns_span _ _ _).trans hheight⟩
  obtain ⟨r, hr, rfl⟩ := List.mem_map.mp hv
  obtain ⟨z, hz, rfl⟩ := List.mem_map.mp hr
  refine ((Augmented.echelon_kernel hbefore.proper).proper z hz).padTo ?_
  rw [Augmented.columns_kernel]
  exact Nat.le_add_right _ _

end Mapped

namespace Resolution

variable {p : Prime} {X : Representation p} {m t d : ℤ} {R R' : Resolution} {s i : ℕ} {A : Algebra} {M : GradedModule}

/-- The subspace that stage `s` has to hit in degree `d`. -/
def wantedAt (X : Representation p) (R : Resolution) : ℕ → ℤ → Option Subspace
  | 0, d => some (Subspace.entire (X.dim d))
  | s + 1, d => (R.mappedAt s).2.kernels.get? d

/-- The map from stage 0 to the zero module, through degree `n - 1`. -/
structure ZeroMap (m n : ℤ) (x : Stage) : Prop where
  shift_eq : x.differential.shift = 0
  outputs_min : x.differential.outputs.minDegree = m
  next_eq : x.differential.nextDegree = n
  outputs_eq : ∀ d, m ≤ d → d < n →
    x.differential.outputs.get? d = some (List.replicate (x.module.count d) (Vec.zero 0))
  kernels_eq : x.differential.kernels = Graded.empty m
  inverses_eq : x.differential.quasiInverses = Graded.empty m

/-- The tables of a resolution of `X`, which is zero below degree `m`, as far as it is computed. -/
structure Built (X : Representation p) (m : ℤ) (R : Resolution) : Prop where
  zero_generators : R.zero.generators = Graded.empty m
  zero_end : R.zero.tableEnd = R.next 0
  zero_map : ZeroMap m (R.next 0) (R.stageAt 0)
  stage : ∀ s, Mapped.Built (R.target X s) m (R.next s) (R.mappedAt s)
  next_succ_le : ∀ s, R.next (s + 1) ≤ R.next s
  recorded : ∀ s d, m ≤ d → d < R.next s →
    ∃ W, R.wantedAt X s d = some W ∧ Mapped.RecordedAt (R.target X s) W (R.mappedAt s) d

namespace Built

variable (h : R.Built X m)

include h

theorem minDegree_eq : R.minDegree = m := congrArg Graded.minDegree h.zero_generators

theorem le_next (s : ℕ) : m ≤ R.next s := by
  rw [← (h.stage s).source_min, next, FreeModule.nextDegree, Graded.nextDegree]
  exact Int.le_add_of_nonneg_right (Int.natCast_nonneg _)

theorem next_anti (hle : i ≤ s) : R.next s ≤ R.next i := antitone_nat_of_succ_le h.next_succ_le hle

theorem differential_nextDegree (s : ℕ) : (R.stageAt s).differential.nextDegree = R.next s := by
  cases s with
  | zero => exact h.zero_map.next_eq
  | succ s => exact (h.stage (s + 1)).map_next

/-- A stage that does not exist yet is not computed in any degree. -/
theorem lt_size_of_lt_next (hs : m < R.next s) : s < R.stages.size := by
  by_contra hge
  have hnone : R.stages[s]? = none := Array.getElem?_eq_none (not_lt.mp hge)
  have hnext : R.next s = R.minDegree := by
    rw [next, stageAt, hnone, Option.getD_none]
    exact Int.add_zero _
  rw [hnext, h.minDegree_eq] at hs
  exact lt_irrefl m hs

theorem hasComputed_iff (hm : m ≤ t) : R.hasComputed s t = true ↔ t < R.next s := by
  unfold hasComputed
  by_cases hs : s < R.stages.size
  · rw [getElem?_stages hs, Option.any_some, h.differential_nextDegree, decide_eq_true_eq]
  · rw [Array.getElem?_eq_none (not_lt.mp hs)]
    simp only [Option.any_none, Bool.false_eq_true, false_iff]
    exact fun hlt => hs (h.lt_size_of_lt_next (by omega))

end Built

/-- In one stage the entries of two resolutions are the same, if they have the same to hit there. -/
theorem Built.sameEntries_of_wantedAt (h : R.Built X m) (h' : R'.Built X m)
    (hT : ∀ d, m ≤ d → d < R.next s → d < R'.next s → (R'.target X s).AgreeBelow (R.target X s) (d + 1))
    (hW : ∀ d, m ≤ d → d < R.next s → d < R'.next s → R'.wantedAt X s d = R.wantedAt X s d) (hm : m ≤ t)
    (ht : t < R.next s) (ht' : t < R'.next s) : Mapped.SameEntries (R.mappedAt s) (R'.mappedAt s) t := by
  obtain ⟨k, rfl⟩ : ∃ k : ℕ, t = m + k := ⟨(t - m).toNat, by omega⟩
  induction k using Nat.strong_induction_on with
  | _ k ih =>
    obtain ⟨W, hget, hrecorded⟩ := h.recorded s _ hm ht
    obtain ⟨W', hget', hrecorded'⟩ := h'.recorded s _ hm ht'
    obtain rfl : W' = W := Option.some.inj (hget'.symm.trans ((hW _ hm ht ht').trans hget))
    refine hrecorded.sameEntries hrecorded' (h.stage s) (h'.stage s) hm ht ht' (hT _ hm ht ht') fun e hme he => ?_
    obtain ⟨l, rfl⟩ : ∃ l : ℕ, e = m + l := ⟨(e - m).toNat, by omega⟩
    exact (ih l (by omega) hme (by omega) (by omega)).toSameOutputs

/-- Two resolutions of one module have the same entries wherever both are computed. -/
theorem Built.sameEntries (h : R.Built X m) (h' : R'.Built X m) (hm : m ≤ t)
    (ht : t < R.next s) (ht' : t < R'.next s) : Mapped.SameEntries (R.mappedAt s) (R'.mappedAt s) t := by
  induction s generalizing t with
  | zero =>
    exact h.sameEntries_of_wantedAt h' (fun _ _ _ _ => Representation.AgreeBelow.refl X _) (fun _ _ _ _ => rfl)
      hm ht ht'
  | succ s ih =>
    have hle := h.next_succ_le s
    have hle' := h'.next_succ_le s
    refine h.sameEntries_of_wantedAt h' (fun d hmd hd hd' => ?_) (fun d hmd hd hd' => ?_) hm ht ht'
    · exact Mapped.rep_agreeBelow_of_sameOutputs (h.stage s) (h'.stage s) (by omega) (by omega) (by omega)
        fun e hme he => (ih hme (by omega) (by omega)).toSameOutputs
    · exact (ih hmd (by omega) (by omega)).kernels_eq

/-- `R'` arises from `R` by computing stage `s` in the next degree `t`. -/
structure Advanced (s : ℕ) (t : ℤ) (R R' : Resolution) : Prop where
  budget_eq : R'.budget = R.budget
  zero_generators : R'.zero.generators = R.zero.generators
  zero_end : R'.zero.tableEnd = R'.next 0
  size_eq : R'.stages.size = R.stages.size
  next_eq : R.next s = t
  next_self : R'.next s = t + 1
  other_eq : ∀ i, i ≠ s → R'.mappedAt i = R.mappedAt i
  differential_eq : s ≠ 0 → R'.stageAt 0 = R.stageAt 0

/-- What the step in the next degree of a stage does. -/
theorem Advanced.built {R R' : Resolution} (h : Advanced s t R R') (hR : R.Built X m) (hm : m ≤ t)
    (hprev : ∀ i, s = i + 1 → t < R.next i) {W : Subspace} (hW : R.wantedAt X s t = some W)
    (hzero : s = 0 → ZeroMap m (t + 1) (R'.stageAt 0))
    (hbuilt : Mapped.Built (R.target X s) m (t + 1) (R'.mappedAt s))
    (hrecorded : Mapped.RecordedAt (R.target X s) W (R'.mappedAt s) t)
    (hsame : ∀ d < t, Mapped.SameEntries (R.mappedAt s) (R'.mappedAt s) d) : R'.Built X m := by
  have hother : ∀ i, i ≠ s → R'.next i = R.next i := fun i hi =>
    congrArg (fun x : Mapped => x.1.nextDegree) (h.other_eq i hi)
  have hnext : R.next s = t := h.next_eq
  have hself := h.next_self
  -- The target of a stage changes at most in degrees that the stage has not reached.
  have htarget : ∀ i, (R'.target X i).AgreeBelow (R.target X i) (R.next i) := by
    intro i
    cases i with
    | zero => exact Representation.AgreeBelow.refl _ _
    | succ i =>
      by_cases hi : i = s
      · subst hi
        have hle := hR.next_succ_le i
        exact (Mapped.rep_agreeBelow_of_sameOutputs (hR.stage i) hbuilt hm (by omega) (by omega)
          fun e _ he => (hsame e he).toSameOutputs).mono (by omega)
      · have heq : R'.target X (i + 1) = R.target X (i + 1) :=
          congrArg (fun x : Mapped => x.1.rep p) (h.other_eq i hi)
        rw [heq]
        exact Representation.AgreeBelow.refl _ _
  have hsource : R'.target X s = R.target X s := by
    cases s with
    | zero => rfl
    | succ s => exact congrArg (fun x : Mapped => x.1.rep p) (h.other_eq s (by omega))
  have hwanted : ∀ i d, d < R.next i ∨ i = s ∧ d = t → R'.wantedAt X i d = R.wantedAt X i d := by
    intro i d hd
    cases i with
    | zero => rfl
    | succ i =>
      by_cases hi : i = s
      · subst hi
        have hle := hR.next_succ_le i
        exact (hsame d (by omega)).kernels_eq
      · rw [wantedAt, wantedAt, h.other_eq i hi]
  refine ⟨h.zero_generators.trans hR.zero_generators, h.zero_end, ?_, fun i => ?_, fun i => ?_, fun i d hmd hd => ?_⟩
  · by_cases hs : s = 0
    · subst hs
      rw [hself]
      exact hzero rfl
    · rw [hother 0 (Ne.symm hs), h.differential_eq hs]
      exact hR.zero_map
  · by_cases hi : i = s
    · subst hi
      rw [hself, hsource]
      exact hbuilt
    · rw [hother i hi, h.other_eq i hi]
      exact (hR.stage i).of_agreeBelow (htarget i)
  · by_cases hi : i + 1 = s
    · have := hprev i hi.symm
      rw [hi, hself, hother i (by omega)]
      omega
    · rw [hother (i + 1) hi]
      refine (hR.next_succ_le i).trans ?_
      by_cases his : i = s
      · subst his
        omega
      · rw [hother i his]
  · by_cases hi : i = s
    · subst hi
      rcases lt_or_eq_of_le (show d ≤ t by omega) with hlt | rfl
      · obtain ⟨V, hV, hrec⟩ := hR.recorded i d hmd (by omega)
        refine ⟨V, (hwanted i d (.inl (by omega))).trans hV, ?_⟩
        rw [hsource]
        exact hrec.of_sameEntries (hR.stage i) hbuilt hmd (by omega) (by omega) fun e _ he => hsame e (by omega)
      · refine ⟨W, (hwanted i d (.inr ⟨rfl, rfl⟩)).trans hW, ?_⟩
        rw [hsource]
        exact hrecorded
    · rw [hother i hi] at hd
      obtain ⟨V, hV, hrec⟩ := hR.recorded i d hmd hd
      refine ⟨V, (hwanted i d (.inl hd)).trans hV, ?_⟩
      rw [h.other_eq i hi]
      exact hrec.of_agreeBelow (htarget i) (hR.stage i).shift_eq hd

theorem next_new (name : String) (m : ℤ) (budget : Option ℤ) (i : ℕ) : (Resolution.new name m budget).next i = m := by
  cases i with
  | zero => exact Int.add_zero m
  | succ i => exact Int.add_zero m

/-- Before anything is computed. -/
theorem built_new (X : Representation p) (m : ℤ) (name : String) (budget : Option ℤ) :
    (Resolution.new name m budget).Built X m := by
  have hmap : FreeMap.new m m 0 = ⟨0, Graded.empty m, Graded.empty m, Graded.empty m⟩ := by
    rw [FreeMap.new, add_zero, max_self]
  have hstage : ∀ i, (Resolution.new name m budget).stageAt i = newStage i m := fun i => by
    cases i with
    | zero => rfl
    | succ i => rfl
  have hmapped : ∀ i, (Resolution.new name m budget).mappedAt i =
      (FreeModule.new s!"F_{i}" m, ⟨0, Graded.empty m, Graded.empty m, Graded.empty m⟩) := fun i => by
    rw [mappedAt, hstage, ← hmap]
    split <;> rfl
  have hempty : ∀ {α : Type}, (Graded.empty m : Graded α).nextDegree = m := Int.add_zero m
  have hnext := next_new name m budget
  refine ⟨rfl, (hnext 0).symm, ?_, fun i => ?_, fun i => by rw [hnext, hnext], fun i d hmd hd => ?_⟩
  · rw [hnext, hstage, newStage, hmap]
    exact ⟨rfl, rfl, hempty, fun d hmd hd => absurd hd (by omega), rfl, rfl⟩
  · rw [hnext, hmapped]
    refine ⟨rfl, hempty, rfl, fun h => absurd h (lt_irrefl m), rfl, rfl, hempty, rfl, hempty, hempty, fun g hg => ?_⟩
    exact absurd hg List.not_mem_nil
  · rw [hnext] at hd
    omega

end Resolution
end Steenrod
