import Steenrod.Proofs.Resolution.Invariant
import Steenrod.Proofs.Module.Sphere
import Steenrod.Proofs.Milnor.Growth
/-!
Runs of a resolution: the algebra and the resolution after any requests. Main statement: in every state that a run
leads to the resolution resolves its module, provided that the algebra of that state is associative with unit.
-/
namespace Steenrod
namespace Resolution

open Vec

variable {p : Prime} {X : Representation p} {m t d : ℤ} {R R' : Resolution} {s i : ℕ} {A B : Algebra}
variable {M : GradedModule}

theorem stage_eq_ok {x : Stage} (h : R.stage s = .ok x) : s < R.stages.size ∧ x = R.stageAt s := by
  have h := Result.ofOption_eq_ok.mp h
  rw [stageAt, h, Option.getD_some]
  exact ⟨(Array.getElem?_eq_some_iff.mp h).1, rfl⟩

theorem Result.map_eq_ok {α β : Type} {x : Result α} {f : α → β} {b : β} :
    x.map f = .ok b ↔ ∃ a, x = .ok a ∧ f a = b := by
  cases x with
  | error e => simp [Except.map]
  | ok a => simp [Except.map]

theorem kernelBelow_eq_ok {K : Subspace} (h : R.kernelBelow (s + 1) t = .ok K) :
    (R.mappedAt s).2.kernels.get? t = some K := by
  unfold kernelBelow at h
  cases s with
  | zero =>
    rw [if_pos rfl] at h
    exact Result.ofOption_eq_ok.mp h
  | succ s =>
    rw [if_neg (by omega)] at h
    obtain ⟨f, hf, hK⟩ := Result.bind_eq_ok.mp h
    obtain ⟨x, hx, rfl⟩ := Result.map_eq_ok.mp hf
    obtain ⟨_, rfl⟩ := stage_eq_ok hx
    exact Result.ofOption_eq_ok.mp hK

theorem stageAt_set {y : Stage} (hstages : R'.stages = R.stages.setIfInBounds s y) (hs : s < R.stages.size)
    (hmin : R'.minDegree = R.minDegree) (i : ℕ) : R'.stageAt i = if i = s then y else R.stageAt i := by
  rw [stageAt, hstages, Array.getElem?_setIfInBounds, hmin, stageAt]
  by_cases hi : i = s
  · rw [if_pos hi.symm, if_pos hi, hi, if_pos hs, Option.getD_some]
  · rw [if_neg (Ne.symm hi), if_neg hi]

/-- Generators that go to zero are recorded degree by degree. -/
theorem extendByZero_eq_ok {F : FreeModule} {f f' : FreeMap} (h : f.extendByZero F M t = .ok f') :
    f'.nextDegree = f.nextDegree + (t + 1 - f.nextDegree).toNat := by
  obtain ⟨outputs, hloop, hf⟩ := Result.bind_eq_ok.mp h
  obtain rfl := Except.ok.inj hf
  have hnext : ∀ (l : List ℤ) (g g' : Graded (List Vec)), l.foldlM (fun outputs i => do
      let n ← M.dimension (i - f.shift)
      (Except.ok (outputs.push (List.replicate (F.count i) (Vec.zero n))) : Result (Graded (List Vec)))) g = .ok g' →
      g'.nextDegree = g.nextDegree + l.length := by
    intro l
    induction l with
    | nil =>
      intro g g' hg
      obtain rfl := Except.ok.inj hg
      simp
    | cons i l ih =>
      intro g g' hg
      rw [List.foldlM_cons] at hg
      obtain ⟨g₁, hg₁, hg⟩ := Result.bind_eq_ok.mp hg
      obtain ⟨n, _, hg₁⟩ := Result.bind_eq_ok.mp hg₁
      obtain rfl := Except.ok.inj hg₁
      rw [ih _ _ hg, Graded.nextDegree_push, List.length_cons]
      omega
  rw [← GradedModule.length_degreesBetween]
  exact hnext _ _ _ hloop

/-- What a request asks for: module and algebra have to be known as far as the degree `t`. -/
structure Asked {A : Algebra} (X : Representation A.prime) (m t : ℤ) (M : GradedModule) : Prop where
  assoc : A.IsAssociative
  unital : A.IsUnital
  lt_computed : t - m < A.computed
  shows : M.Shows X A t
  lawful : X.LawfulThrough t

theorem firstStep_eq_ok {X : Representation A.prime} (h : R.firstStep A M t = .ok R') (hR : R.Resolves X m)
    (ha : Asked X m t M) : Stepped X m t 0 R R' := by
  obtain ⟨x, hx, h⟩ := Result.bind_eq_ok.mp h
  obtain ⟨zero, hzero, h⟩ := Result.bind_eq_ok.mp h
  obtain ⟨n, hn, h⟩ := Result.bind_eq_ok.mp h
  obtain ⟨⟨F, augmentation⟩, hhit, h⟩ := Result.bind_eq_ok.mp h
  obtain ⟨differential, hdiff, h⟩ := Result.bind_eq_ok.mp h
  have heq := Except.ok.inj h
  obtain ⟨hsize, rfl⟩ := stage_eq_ok hx
  obtain rfl := Except.ok.inj ((ha.shows.dimension_eq t (le_refl t)).symm.trans hn)
  obtain rfl := Mapped.extendTable_eq_ok hzero
  obtain ⟨before, after, hby⟩ := Mapped.hit_cases hhit
  have hzero' : R'.zero = { R.zero with tableEnd := max R.zero.tableEnd (t + 1) } := by rw [← heq]
  have hmin : R'.minDegree = R.minDegree := by rw [← heq]; rfl
  have hstage : ∀ i, R'.stageAt i = if i = 0 then ⟨F, differential⟩ else R.stageAt i :=
    stageAt_set (by rw [← heq]) hsize hmin
  have hself : R'.mappedAt 0 = (F, augmentation) := by rw [mappedAt, hstage, if_pos rfl, if_pos rfl, ← heq]
  have hnext : R.next 0 = t := hby.source_next
  have hnext' : R'.next 0 = F.nextDegree := congrArg (fun x : Mapped => x.1.nextDegree) hself
  have hle := le_next hR 0
  have hlt := ha.lt_computed
  have hp := A.lawfulBelow ha.assoc ha.unital
  have hS := Subspace.echelon_entire (p := A.prime) (X.dim t)
  have hspace := Subspace.space_entire (p := A.prime) (X.dim t)
  have himage : Mapped.image X (R.mappedAt 0) t ≤ (Subspace.entire (X.dim t)).space A.prime :=
    hspace.symm ▸ hR.image_le_cycles hp (by omega) ha.lawful hlt
  have hcomputed := hby.computed (hR.computed 0) ha.shows ha.lawful hlt hS rfl himage
  have hF : F.nextDegree = t + 1 := hcomputed.source_next
  refine ⟨hmin, by rw [hzero']; rfl, ?_, ?_, fun i hi => ?_, hnext, fun i hi => absurd hi (by omega),
    fun _ => ha.lawful, ?_, ?_, ?_, ?_, ?_, ?_⟩
  · rw [hnext', hF, hzero']
    change max R.zero.tableEnd (t + 1) = _
    rw [hR.zero_end, hnext]
    omega
  · rw [hnext', hF, hstage, if_pos rfl, extendByZero_eq_ok hdiff, hR.differential_next, hnext]
    omega
  · rw [mappedAt, mappedAt, hstage, if_neg hi, if_neg hi, if_neg hi]
  all_goals try rw [hself]
  · exact hcomputed
  · exact fun d hd => hby.sameAt hd
  · rw [← heq]
    exact Array.size_setIfInBounds
  · exact hby.grown.growsFrom hby.source_next
  · exact fun g hg => hby.grown.value_eq_of_lt (hby.map_next.symm ▸ hg)
  · exact (hby.image_eq (hR.computed 0) ha.shows ha.lawful hlt hS rfl himage).trans hspace

theorem laterStep_eq_ok {X : Representation A.prime} (h : R.laterStep A (s + 1) t = .ok R') (hR : R.Resolves X m)
    (ha : Asked X m t M) (hn : R.next 0 - m ≤ A.computed) : Stepped X m t (s + 1) R R' := by
  obtain ⟨x, hx, h⟩ := Result.bind_eq_ok.mp h
  obtain ⟨F₀, hbelow, h⟩ := Result.bind_eq_ok.mp h
  obtain ⟨wanted, hwanted, h⟩ := Result.bind_eq_ok.mp h
  obtain ⟨⟨F, differential⟩, hhit, h⟩ := Result.bind_eq_ok.mp h
  have heq := Except.ok.inj h
  obtain ⟨hsize, rfl⟩ := stage_eq_ok hx
  obtain ⟨x, hx, rfl⟩ := Result.map_eq_ok.mp (show (R.stage s).map (·.module) = .ok F₀ from hbelow)
  obtain ⟨_, rfl⟩ := stage_eq_ok hx
  obtain ⟨before, after, hby⟩ := Mapped.hit_cases hhit
  have hmin : R'.minDegree = R.minDegree := by rw [← heq]; rfl
  have hstage : ∀ i, R'.stageAt i = if i = s + 1 then ⟨F, differential⟩ else R.stageAt i :=
    stageAt_set (by rw [← heq]) hsize hmin
  have haug : R'.augmentation = R.augmentation := by rw [← heq]
  have hself : R'.mappedAt (s + 1) = (F, differential) := by rw [mappedAt, hstage, if_pos rfl, if_neg (by omega)]
  have hother : ∀ i, i ≠ s + 1 → R'.mappedAt i = R.mappedAt i := fun i hi => by
    rw [mappedAt, mappedAt, hstage, if_neg hi, haug]
  have hnext : R.next (s + 1) = t := hby.source_next
  have hle := le_next hR (s + 1)
  have hlt := ha.lt_computed
  have hp := A.lawfulBelow ha.assoc ha.unital
  have hx := hR.computed s
  have hget := kernelBelow_eq_ok hwanted
  have hrange := (Graded.get?_isSome_iff _ t).mp (Option.isSome_iff_exists.mpr ⟨_, hget⟩)
  rw [hx.kernels_next] at hrange
  obtain ⟨K, hK, hS, hcol, hspace⟩ := (hx.solved t (by omega) hrange.2).kernel_eq
  obtain rfl := Option.some.inj (hget.symm.trans hK)
  have hknown : FreeModule.KnownThrough A (R.stageAt s).module t :=
    ⟨hx.table_end.symm ▸ hrange.2, fun _ => hx.table_end.symm ▸ hx.end_le (by omega), hx.source_min.symm ▸ hlt⟩
  have hM := hknown.shows ha.assoc ha.unital
  have hT := hR.target_lawful hp ha.lawful hlt (s + 1)
  have himage : Mapped.image (R.target X (s + 1)) (R.mappedAt (s + 1)) t ≤ wanted.space A.prime :=
    hspace.symm ▸ hR.image_le_cycles hp hn ha.lawful hlt
  have hcomputed := hby.computed (hR.computed (s + 1)) hM hT hlt hS hcol himage
  refine ⟨hmin, by rw [← heq], ?_, ?_, hother, hnext, fun i hi => ?_, fun hi => absurd hi (by omega), ?_, ?_, ?_, ?_, ?_, ?_⟩
  · rw [next, hstage, if_neg (by omega), ← heq]
    exact hR.zero_end
  · rw [next, hstage, if_neg (by omega)]
    exact hR.differential_next
  · obtain rfl : i = s := by omega
    exact hrange.2
  all_goals try rw [hself]
  · exact hcomputed
  · exact fun d hd => hby.sameAt hd
  · rw [← heq]
    exact Array.size_setIfInBounds
  · exact hby.grown.growsFrom hby.source_next
  · exact fun g hg => hby.grown.value_eq_of_lt (hby.map_next.symm ▸ hg)
  · exact (hby.image_eq (hR.computed (s + 1)) hM hT hlt hS hcol himage).trans hspace

theorem Asked.mono {X : Representation A.prime} {t' : ℤ} (h : Asked X m t M) (hle : t' ≤ t) : Asked X m t' M where
  assoc := h.assoc
  unital := h.unital
  lt_computed := by have := h.lt_computed; omega
  shows := h.shows.mono hle
  lawful := h.lawful.mono hle

theorem step_eq_ok {X : Representation A.prime} (h : R.step A M s t = .ok R') (hR : R.Resolves X m)
    (ha : Asked X m t M) (hn : R.next 0 - m ≤ A.computed) :
    R'.Resolves X m ∧ Extends X R R' ∧ R'.next 0 - m ≤ A.computed ∧ t < R'.next s := by
  have hstepped : Stepped X m t s R R' →
      R'.Resolves X m ∧ Extends X R R' ∧ R'.next 0 - m ≤ A.computed ∧ t < R'.next s := by
    intro hs
    refine ⟨hs.resolves hR, hs.extension hR, ?_, by rw [hs.next_self]; omega⟩
    have hlt := ha.lt_computed
    by_cases h0 : s = 0
    · subst h0
      rw [hs.next_self]
      omega
    · rwa [hs.next_other (Ne.symm h0)]
  unfold step at h
  split at h
  · next hdone =>
    obtain rfl := Except.ok.inj h
    exact ⟨hR, Extends.refl X R, hn, ((hasComputed_iff hR).mp hdone).2⟩
  · split at h
    · next hs =>
      subst hs
      exact hstepped (firstStep_eq_ok h hR ha)
    · cases s with
      | zero => contradiction
      | succ s => exact hstepped (laterStep_eq_ok h hR ha hn)

theorem mem_bidegrees {low d : ℤ} : (i, d) ∈ bidegrees low s t ↔ i ≤ s ∧ low ≤ d ∧ d ≤ t := by
  constructor
  · intro h
    obtain ⟨k, _, hk⟩ := List.mem_flatMap.mp h
    obtain ⟨j, hj, hd⟩ := List.mem_filterMap.mp hk
    simp only [Option.ite_none_right_eq_some, Option.some.injEq, Prod.mk.injEq] at hd
    have := List.mem_range.mp hj
    omega
  · rintro ⟨hi, hlow, hd⟩
    refine List.mem_flatMap.mpr ⟨d - low + i, ?_, List.mem_filterMap.mpr ⟨i, List.mem_range.mpr (by omega), ?_⟩⟩
    · exact GradedModule.mem_degreesBetween.mpr (by omega)
    · rw [if_pos (by omega)]
      congr 2
      omega

/-- Two resolutions with the same stages, augmentation and zero module. -/
structure SameStages (R R' : Resolution) : Prop where
  stageAt_eq : R'.stageAt = R.stageAt
  zero_eq : R'.zero = R.zero
  augmentation_eq : R'.augmentation = R.augmentation

namespace SameStages

variable (h : SameStages R R')

include h

theorem mappedAt_eq : R'.mappedAt = R.mappedAt := by
  funext i
  rw [mappedAt, mappedAt, h.stageAt_eq, h.augmentation_eq]

theorem next_eq : R'.next = R.next := by
  funext i
  rw [next, next, h.stageAt_eq]

theorem target_eq (X : Representation p) : R'.target X = R.target X := by
  funext i
  cases i with
  | zero => rfl
  | succ i => rw [target, target, h.stageAt_eq]

theorem cycles_eq (X : Representation p) : R'.cycles X = R.cycles X := by
  funext i d
  cases i with
  | zero => rfl
  | succ i => rw [cycles, cycles, h.target_eq, h.mappedAt_eq]

theorem resolves (hR : R.Resolves X m) : R'.Resolves X m where
  minDegree_eq := by rw [minDegree, h.zero_eq]; exact hR.minDegree_eq
  zero_empty := h.zero_eq ▸ hR.zero_empty
  zero_end := by rw [h.zero_eq, h.next_eq]; exact hR.zero_end
  computed := by rw [h.target_eq, h.next_eq, h.mappedAt_eq]; exact hR.computed
  next_succ_le := by rw [h.next_eq]; exact hR.next_succ_le
  differential_next := by rw [h.stageAt_eq, h.next_eq]; exact hR.differential_next
  lawful := by rw [h.next_eq]; exact hR.lawful
  exact := by rw [h.target_eq, h.next_eq, h.mappedAt_eq, h.cycles_eq]; exact hR.exact

theorem extension (X : Representation p) (hsize : R.stages.size ≤ R'.stages.size) : Extends X R R' where
  minDegree_eq := by rw [minDegree, minDegree, h.zero_eq]
  next_le i := by rw [h.next_eq]
  size_le := hsize
  same i d _ := by rw [h.target_eq, h.mappedAt_eq]; exact Mapped.SameAt.refl _ _ _
  grows i := by rw [h.mappedAt_eq]; exact FreeModule.GrowsFrom.refl _ _
  value_eq i g _ := by rw [h.mappedAt_eq]

end SameStages

/-- Stages that are only now made to exist were taken as they are made. -/
theorem sameStages_extendStages (R : Resolution) (s : ℕ) : SameStages R (R.extendStages s) where
  stageAt_eq := by
    funext i
    have hmin : (R.extendStages s).minDegree = R.minDegree := rfl
    rw [stageAt, stageAt, hmin]
    unfold extendStages height
    simp only [Array.getElem?_append, List.getElem?_toArray, List.getElem?_map]
    by_cases hi : i < R.stages.size
    · rw [if_pos hi]
    · rw [if_neg hi, Array.getElem?_eq_none (not_lt.mp hi), Option.getD_none]
      cases hj : (List.range' R.stages.size (s + 1 - R.stages.size))[i - R.stages.size]? with
      | none => rfl
      | some k =>
        obtain ⟨_, rfl⟩ := List.getElem?_eq_some_iff.mp hj
        rw [List.getElem_range', Option.map_some, Option.getD_some]
        congr 1
        omega
  zero_eq := rfl
  augmentation_eq := rfl

theorem computeThrough_eq_ok {X : Representation A.prime} (h : R.computeThrough A M s t = .ok R')
    (hR : R.Resolves X m) (ha : Asked X m t M) (hn : R.next 0 - m ≤ A.computed) :
    R'.Resolves X m ∧ Extends X R R' ∧ R'.next 0 - m ≤ A.computed ∧ R'.hasComputed s t = true := by
  have hloop : ∀ (l : List (ℕ × ℤ)) (R₁ : Resolution), (∀ b ∈ l, b.2 ≤ t) → R₁.Resolves X m →
      R₁.next 0 - m ≤ A.computed → l.foldlM (fun R b => R.step A M b.1 b.2) R₁ = .ok R' →
      R'.Resolves X m ∧ Extends X R₁ R' ∧ R'.next 0 - m ≤ A.computed ∧ ∀ b ∈ l, b.2 < R'.next b.1 := by
    intro l
    induction l with
    | nil =>
      intro R₁ _ hR₁ hn₁ h
      obtain rfl := Except.ok.inj h
      exact ⟨hR₁, Extends.refl X R₁, hn₁, fun b hb => absurd hb List.not_mem_nil⟩
    | cons b l ih =>
      intro R₁ hl hR₁ hn₁ h
      rw [List.foldlM_cons] at h
      obtain ⟨R₂, h₂, h⟩ := Result.bind_eq_ok.mp h
      obtain ⟨hR₂, hext, hn₂, hlt⟩ := step_eq_ok h₂ hR₁ (ha.mono (hl b (by simp))) hn₁
      obtain ⟨hR', hext', hn', hall⟩ := ih R₂ (fun c hc => hl c (by simp [hc])) hR₂ hn₂ h
      refine ⟨hR', hext.trans hext', hn', fun c hc => ?_⟩
      rcases List.mem_cons.mp hc with rfl | hc
      · exact lt_of_lt_of_le hlt (hext'.next_le _)
      · exact hall c hc
  have hsame := sameStages_extendStages R s
  obtain ⟨hR', hext, hn', hall⟩ := hloop _ (R.extendStages s) (fun b hb => (mem_bidegrees.mp hb).2.2)
    (hsame.resolves hR) (by rwa [hsame.next_eq]) h
  refine ⟨hR', (hsame.extension X (by simp [extendStages])).trans hext, hn', (hasComputed_iff hR').mpr ⟨?_, ?_⟩⟩
  · have hsize : s < (R.extendStages s).stages.size := by
      simp only [extendStages, height, Array.size_append, List.size_toArray, List.length_map, List.length_range']
      omega
    exact lt_of_lt_of_le hsize hext.size_le
  · by_cases hlow : R.minDegree ≤ t
    · exact hall (s, t) (mem_bidegrees.mpr ⟨le_refl s, hlow, le_refl t⟩)
    · have := le_next hR' s
      have := hR.minDegree_eq
      omega

end Resolution

namespace Resolution

variable {p : Prime} {X : Representation p} {m t : ℤ} {R R' : Resolution} {s : ℕ} {A A' : Algebra}

open Growing

theorem run_prepare (R : Resolution) (t : ℤ) (A : Algebra) : (∃ e, (R.prepare t).run A = (.error e, A)) ∨
    ∃ A', (R.prepare t).run A = (.ok (), A') ∧ Follows A A' ∧ max 0 (t - R.minDegree) < A'.computed := by
  unfold prepare
  split
  · split
    · exact .inl ⟨_, rfl⟩
    · exact run_ensure _ A
  · exact run_ensure _ A

/-- A request makes the algebra known far enough, or it is refused and changes nothing. -/
theorem run_request (M : Algebra → GradedModule) (R : Resolution) (s : ℕ) (t : ℤ) (A : Algebra) :
    (∃ e, (R.request M s t).run A = (.error e, A)) ∨
      ∃ A', (R.request M s t).run A = (R.computeThrough A' (M A') s t, A') ∧ Follows A A' ∧
        t - R.minDegree < A'.computed := by
  unfold request
  rw [run_bind]
  rcases run_prepare R t A with ⟨e, he⟩ | ⟨A', hA', hfollows, hlt⟩
  · exact .inl ⟨e, by rw [he]⟩
  · refine .inr ⟨A', ?_, hfollows, by omega⟩
    rw [hA']
    exact run_read _ A'

/-- Where the algebra is known far enough and nothing limits the request, it is met as it is. -/
theorem run_request_of_known {M : Algebra → GradedModule} (hbudget : R.budget = none) (hcap : A.cap = none)
    (h : max 0 (t - R.minDegree) < A.computed) : (R.request M s t).run A = (R.computeThrough A (M A) s t, A) := by
  have hprepare : (R.prepare t).run A = (.ok (), A) := by
    rw [prepare, hbudget]
    exact run_ensure_of_lt h hcap
  rw [request, run_bind, hprepare]
  exact run_read _ A

/-- What can happen to an algebra and a resolution of `M`. A request may come with a promise, about the algebra that
it leads to and the degree that it asks for. -/
inductive Moves (M : Algebra → GradedModule) (promise : Algebra → ℤ → Prop) :
    Algebra → Resolution → Algebra → Resolution → Prop
  | extend (d : ℤ) (A : Algebra) (R : Resolution) : Moves M promise A R (A.extend d) R
  | budget (budget : Option ℤ) (A : Algebra) (R : Resolution) : Moves M promise A R A { R with budget }
  | request (s : ℕ) (t : ℤ) {A A' : Algebra} {R R' : Resolution} (met : (R.request M s t).run A = (.ok R', A'))
      (kept : promise A' t) : Moves M promise A R A' R'
  | refused (s : ℕ) (t : ℤ) {A A' : Algebra} {R : Resolution} (e : Failure)
      (refusal : (R.request M s t).run A = (.error e, A')) : Moves M promise A R A' R

/-- The states of the algebra and of a resolution of `X`, which is zero below degree `m`. Whoever makes a request
that is met shows the module, as far as it is asked for. -/
inductive Reachable (X : Representation p) (m : ℤ) : Algebra → Resolution → Prop
  | new (A : Algebra) (name : String) (budget : Option ℤ) (prime_eq : A.prime = p) :
      Reachable X m A (Resolution.new name m budget)
  | move (M : Algebra → GradedModule) {A A' : Algebra} {R R' : Resolution} (earlier : Reachable X m A R)
      (move : Moves M (fun A t => (M A).Shows X A t ∧ X.LawfulThrough t) A R A' R') : Reachable X m A' R'

/-- Before anything is computed. -/
theorem resolves_new (hX : ∀ d < m, X.dim d = 0) (name : String) (budget : Option ℤ) :
    (Resolution.new name m budget).Resolves X m := by
  have hstage : ∀ i, ((Resolution.new name m budget).stageAt i).module.generators = Graded.empty m ∧
      ((Resolution.new name m budget).stageAt i).module.tableEnd = m ∧
      ((Resolution.new name m budget).stageAt i).differential = FreeMap.new m m 0 := by
    intro i
    cases i with
    | zero => exact ⟨rfl, rfl, rfl⟩
    | succ i => exact ⟨rfl, rfl, rfl⟩
  have hmap : ∀ i, ((Resolution.new name m budget).mappedAt i).2 = FreeMap.new m m 0 := by
    intro i
    rw [mappedAt]
    split
    · rfl
    · exact (hstage i).2.2
  have hempty : (Graded.empty m : Graded (List String)).nextDegree = m := by simp [Graded.empty, Graded.nextDegree]
  have hmin : max m (m + 0) = m := by omega
  have hnext : ∀ i, (Resolution.new name m budget).next i = m := fun i => by
    rw [next, FreeModule.nextDegree, (hstage i).1, hempty]
  have hlist : ∀ F : FreeModule, F.generators = Graded.empty m → F.generatorList = [] := fun F hF => by
    simp [FreeModule.generatorList, hF, Graded.pairs, Graded.empty, Graded.degrees]
  refine ⟨rfl, hlist _ rfl, (hnext 0).symm, fun i => ?_, fun i => ?_, ?_, ?_, fun i d hmd hd => ?_⟩
  · rw [hnext i]
    refine ⟨?_, hnext i, (hstage i).2.1, fun hlt => absurd hlt (lt_irrefl m), ?_, ?_, ?_, ?_, fun g hg _ _ => ?_,
      fun d hmd hd => absurd hd (by omega)⟩
    · exact congrArg Graded.minDegree (hstage i).1
    · rw [hmap i]
      rfl
    · rw [hmap i]
      exact hmin
    · rw [hmap i]
      simp [FreeMap.new, FreeMap.nextDegree, Graded.nextDegree, Graded.empty]
    · rw [hmap i]
      simp [FreeMap.new, Graded.nextDegree, Graded.empty]
    · rw [show ((Resolution.new name m budget).mappedAt i).1.generatorList = [] from hlist _ (hstage i).1] at hg
      exact absurd hg (List.not_mem_nil)
  · rw [hnext, hnext]
  · rw [hnext, (hstage 0).2.2]
    simp [FreeMap.new, FreeMap.nextDegree, Graded.nextDegree, Graded.empty]
  · rw [hnext]
    exact Representation.lawful_of_dim_eq_zero fun d hd => hX d (by omega)
  · rw [hnext] at hd
    omega

theorem request_eq_ok {M : Algebra → GradedModule} (hR : R.Resolves X m)
    (hrun : (R.request M s t).run A = (.ok R', A')) (hp : A'.prime = p) (h₁ : A'.IsAssociative) (h₂ : A'.IsUnital)
    (hn : R.next 0 - m ≤ A.computed) (hM : (M A').Shows X A' t) (hX : X.LawfulThrough t) :
    R'.Resolves X m ∧ Extends X R R' ∧ R'.next 0 - m ≤ A'.computed ∧ R'.hasComputed s t = true := by
  subst hp
  rcases run_request M R s t A with ⟨e, he⟩ | ⟨B, hB, hfollows, hlt⟩
  · simp [he] at hrun
  · rw [hB, Prod.mk.injEq] at hrun
    obtain ⟨hok, rfl⟩ := hrun
    rw [hR.minDegree_eq] at hlt
    have hle := hfollows.computed_le
    exact computeThrough_eq_ok hok hR ⟨h₁, h₂, hlt, hM, hX⟩ (by omega)

theorem run_request_follows {M : Algebra → GradedModule} {r : Result Resolution}
    (hrun : (R.request M s t).run A = (r, A')) : Follows A A' := by
  rcases run_request M R s t A with ⟨e, he⟩ | ⟨B, hB, hfollows, _⟩
  · rw [he, Prod.mk.injEq] at hrun
    exact hrun.2 ▸ Follows.refl A
  · rw [hB, Prod.mk.injEq] at hrun
    exact hrun.2 ▸ hfollows

/-- A request that is met asks for no degree that the algebra is not known for. -/
theorem lt_computed_of_request {M : Algebra → GradedModule} (met : (R.request M s t).run A = (.ok R', A')) :
    t - R.minDegree < A'.computed := by
  rcases run_request M R s t A with ⟨e, he⟩ | ⟨B, hB, _, hlt⟩
  · simp [he] at met
  · rw [hB, Prod.mk.injEq] at met
    exact met.2 ▸ hlt

namespace Moves

variable {M : Algebra → GradedModule} {promise : Algebra → ℤ → Prop}

theorem follows (h : Moves M promise A R A' R') : Follows A A' := by
  cases h with
  | extend d => exact follows_extend A d
  | budget budget => exact Follows.refl A
  | request s t met kept => exact run_request_follows met
  | refused s t e refusal => exact run_request_follows refusal

theorem promised {promise' : Algebra → ℤ → Prop} (h : Moves M promise A R A' R')
    (hkept : ∀ t, promise A' t → t - R.minDegree < A'.computed → promise' A' t) : Moves M promise' A R A' R' := by
  cases h with
  | extend d => exact .extend d A R
  | budget budget => exact .budget budget A R
  | refused s t e refusal => exact .refused s t e refusal
  | request s t met kept =>
    exact .request s t met (hkept t kept (lt_computed_of_request met))

/-- Whatever happens, the resolution still resolves its module, and what was computed before is as it was. -/
theorem resolves (h : Moves M (fun A t => (M A).Shows X A t ∧ X.LawfulThrough t) A R A' R') (hR : R.Resolves X m)
    (hp : A'.prime = p) (h₁ : A'.IsAssociative) (h₂ : A'.IsUnital) (hn : R.next 0 - m ≤ A.computed) :
    R'.Resolves X m ∧ Extends X R R' ∧ R'.next 0 - m ≤ A'.computed := by
  have hle := h.follows.computed_le
  cases h with
  | extend d => exact ⟨hR, Extends.refl X R, by omega⟩
  | refused s t e refusal => exact ⟨hR, Extends.refl X R, by omega⟩
  | budget budget =>
    have hsame : SameStages R { R with budget } := ⟨rfl, rfl, rfl⟩
    exact ⟨hsame.resolves hR, hsame.extension X (le_refl _), hn⟩
  | request s t met kept =>
    obtain ⟨hR', hext, hn', _⟩ := request_eq_ok hR met hp h₁ h₂ hn kept.1 kept.2
    exact ⟨hR', hext, hn'⟩

end Moves

/-- In every state the resolution resolves its module. -/
theorem Reachable.resolves (h : Reachable X m A R) (hX : ∀ d < m, X.dim d = 0) (h₁ : A.IsAssociative)
    (h₂ : A.IsUnital) : A.prime = p ∧ R.Resolves X m ∧ R.next 0 - m ≤ A.computed := by
  induction h with
  | new A name budget hp =>
    refine ⟨hp, resolves_new hX name budget, ?_⟩
    have hnext : (Resolution.new name m budget).next 0 = m := Int.add_zero m
    rw [hnext]
    omega
  | @move M A A' R R' earlier move ih =>
    have hf := move.follows
    obtain ⟨hp, hR, hn⟩ := ih (h₁.restrict hf.prime_eq hf.computed_le) (h₂.restrict hf.prime_eq hf.computed_le)
    obtain ⟨hR', _, hn'⟩ := move.resolves hR (hf.prime_eq ▸ hp) h₁ h₂ hn
    exact ⟨hf.prime_eq ▸ hp, hR', hn'⟩

/-- The resolution of the sphere through stage 1 and degree 1. -/
def ofSphere : Resolution :=
  ((Resolution.new "S" 0 none).computeThrough Algebra.first (FiniteModule.sphere.toGraded Algebra.first) 1 1).toOption.getD
    (Resolution.new "S" 0 none)

theorem run_request_ofSphere : ((Resolution.new "S" 0 none).request FiniteModule.sphere.toGraded 1 1).run Algebra.first =
    (.ok ofSphere, Algebra.first) := by
  rw [run_request_of_known rfl rfl (by decide +kernel)]
  exact congrArg (·, Algebra.first) (by decide +kernel)

theorem hasComputed_ofSphere : ofSphere.hasComputed 1 1 = true := by decide +kernel

theorem reachable_ofSphere :
    Reachable (FiniteModule.sphere.rep Algebra.first.prime) 0 Algebra.first ofSphere :=
  .move FiniteModule.sphere.toGraded (.new Algebra.first "S" none rfl)
    (.request 1 1 run_request_ofSphere ⟨FiniteModule.shows_sphere 1, FiniteModule.isModule_sphere.lawful⟩)

end Resolution
end Steenrod
