import Steenrod.Session.Lifts
import Steenrod.Proofs.Resolution.Recorded
import Steenrod.Proofs.Session.Running
import Steenrod.Proofs.Resolution.ChainMap
/-!
Extending a lift is all or nothing. Main statement: in every state that a run leads to, a request to extend is refused exactly if
one of the resolutions is not computed that far, and then nothing changes; otherwise it is met, and every generator up to the
bidegree that was asked for has an image.
-/
namespace Steenrod

/-- A list of steps that all answer has a list of answers. -/
theorem Result.exists_mapM {α β : Type} {f : α → Result β} {l : List α} (h : ∀ a ∈ l, ∃ b, f a = .ok b) :
    ∃ r, l.mapM f = .ok r := by
  induction l with
  | nil => exact ⟨[], rfl⟩
  | cons a l ih =>
    obtain ⟨b, hb⟩ := h a (by simp)
    obtain ⟨r, hr⟩ := ih fun c hc => h c (by simp [hc])
    exact ⟨b :: r, by rw [List.mapM_cons, hb, Result.ok_bind, hr]; rfl⟩

/-- The degrees from `low` on, one after the other. -/
theorem GradedModule.degreesBetween_cons {low high : ℤ} (h : low ≤ high) :
    degreesBetween low high = low :: degreesBetween (low + 1) high := by
  have hlength : (high + 1 - low).toNat = (high + 1 - (low + 1)).toNat + 1 := by omega
  rw [degreesBetween, degreesBetween, hlength, List.range_succ_eq_map, List.map_cons, List.map_map]
  refine congrArg₂ _ (by simp) (List.map_congr_left fun i _ => ?_)
  simp only [Function.comp_apply, Nat.succ_eq_add_one, Nat.cast_add, Nat.cast_one]
  omega

namespace Lift

open Vec

variable {p : Prime} {X Y : Representation p} {k t n : ℤ} {φ : ℤ → (ℕ → p.Field) →ₗ[p.Field] (ℕ → p.Field)}
variable {S T : Resolution} {L L' : Lift} {s : ℕ} {A B C : Algebra} {rows : List Vec} {f : FiniteMap}

theorem getElem?_maps (hs : s < L.maps.size) : L.maps[s]? = some (L.freeMapAt S T s) := by
  rw [freeMapAt, Array.getElem?_eq_getElem hs, Option.getD_some]

section Steps

variable (hb : Between X Y k n φ S T) (hAB : SeenThrough p S T A B) (hL : Lifts X Y k φ S T L) (hs : s < L.maps.size)

include hb hAB hL hs

/-- Rows of the right size are set in the next degree. -/
theorem exists_addRows (ht : L.next S T s = t) (hT : t - k < T.next s) (hcount : rows.length = (S.mappedAt s).1.count t)
    (hrows : ∀ r ∈ rows, r.size = ((T.mappedAt s).1.rep p).dim (t - k)) : ∃ L', L.addRows B S T s t rows = .ok L' := by
  have hS := Resolution.stage_eq (hs.trans_le hL.size_le_source)
  have hT' := Resolution.stage_eq (hs.trans_le hL.size_le_target)
  have hadd := Mapped.exists_addRows (M := (T.mappedAt s).1.toGraded B) (f := L.freeMapAt S T s) hcount ht
    (by rw [hL.map_shift]; exact dimension_target hb hAB hT) hrows
  rw [addRows, hS, Result.ok_bind, hT', Result.ok_bind, getElem?_maps (S := S) (T := T) hs, Result.ofOption_some, Result.ok_bind]
  exact ⟨_, Result.bind_eq_ok.mpr ⟨_, hadd, rfl⟩⟩

theorem exists_needsValues (hT : t - k < T.next s) :
    ∃ needed, L.needsValues B S T s t = .ok needed ∧ (needed = true → (S.mappedAt s).1.count t ≠ 0) := by
  have hS := Resolution.stage_eq (hs.trans_le hL.size_le_source)
  have hT' := Resolution.stage_eq (hs.trans_le hL.size_le_target)
  refine ⟨decide ((S.mappedAt s).1.count t ≠ 0) && decide (((T.mappedAt s).1.rep p).dim (t - k) ≠ 0), ?_, fun hneeded => ?_⟩
  · rw [needsValues, hS, Result.ok_bind, hT', Result.ok_bind, hL.shift_eq]
    exact Result.bind_eq_ok.mpr ⟨_, dimension_target hb hAB hT, rfl⟩
  · exact of_decide_eq_true (Bool.and_eq_true_iff.mp hneeded).1

theorem exists_addZeros (ht : L.next S T s = t) (hT : t - k < T.next s) : ∃ L', L.addZeros B S T s t = .ok L' := by
  have hS := Resolution.stage_eq (hs.trans_le hL.size_le_source)
  have hT' := Resolution.stage_eq (hs.trans_le hL.size_le_target)
  have hsize : ∀ r ∈ List.replicate ((S.mappedAt s).1.count t) (Vec.zero (((T.mappedAt s).1.rep p).dim (t - k))),
      r.size = ((T.mappedAt s).1.rep p).dim (t - k) := fun r hr => by rw [List.eq_of_mem_replicate hr, size_zero]
  obtain ⟨L', hL'⟩ := exists_addRows hb hAB hL hs ht hT (List.length_replicate ..) hsize
  refine ⟨L', ?_⟩
  rw [addZeros, hS, Result.ok_bind, hT', Result.ok_bind, hL.shift_eq]
  exact Result.bind_eq_ok.mpr ⟨_, dimension_target hb hAB hT, hL'⟩

/-- Where the values of the generators are known, so are preimages of them. -/
theorem exists_preimages {value : Generator → Result Vec} (hlow : T.minDegree ≤ t - k) (hT : t - k < T.next s)
    (hvalue : ∀ i < (S.mappedAt s).1.count t, ∃ v, value ⟨t, i⟩ = .ok v ∧ Proper p ((T.target Y s).dim (t - k)) v) :
    ∃ rows, L.preimages A B S T s t (T.mappedAt s).2 value = .ok rows ∧ rows.length = (S.mappedAt s).1.count t ∧
      ∀ r ∈ rows, r.size = ((T.mappedAt s).1.rep p).dim (t - k) := by
  have hS := Resolution.stage_eq (hs.trans_le hL.size_le_source)
  have hT' := Resolution.stage_eq (hs.trans_le hL.size_le_target)
  obtain ⟨N, hN, hQ⟩ := ((hb.target.computed s).solved (t - k) hlow hT).inverse_eq
  have hpull : ∀ i < (S.mappedAt s).1.count t, ∃ r, (do
      let v ← value ⟨t, i⟩
      Result.ofOption ((Augmented.ofMatrix p N).quasiInverse.pullBack? A.prime B.prime
        (Vec.zero (((T.mappedAt s).1.rep p).dim (t - k))) 1 v)) = .ok r ∧ r.size = ((T.mappedAt s).1.rep p).dim (t - k) := by
    intro i hi
    obtain ⟨v, hv, hproper⟩ := hvalue i hi
    obtain ⟨r, hr, hrp, _⟩ := hN.pullBack?_eq hproper (Proper.zero (n := Mapped.dim p (T.mappedAt s) (t - k))) 1
    refine ⟨r, Result.bind_eq_ok.mpr ⟨v, hv, ?_⟩, hrp.size_eq⟩
    rw [hAB.source_prime, hAB.target_prime]
    exact Result.ofOption_eq_ok.mpr hr
  obtain ⟨rows, hrows⟩ := Result.exists_mapM (l := List.range ((S.mappedAt s).1.count t)) fun i hi => by
    obtain ⟨r, hr, _⟩ := hpull i (List.mem_range.mp hi)
    exact ⟨r, hr⟩
  obtain ⟨hlength, hrow⟩ := List.forall₂_iff_get.mp (Result.of_mapM_eq_ok hrows)
  rw [List.length_range] at hlength
  refine ⟨rows, ?_, hlength.symm, fun r hr => ?_⟩
  · rw [preimages, hS, Result.ok_bind, hT', Result.ok_bind, hL.shift_eq]
    refine Result.bind_eq_ok.mpr ⟨_, dimension_target hb hAB hT, ?_⟩
    rw [hQ]
    exact hrows
  · obtain ⟨i, hi, rfl⟩ := List.getElem_of_mem hr
    obtain ⟨r, hr, hsize⟩ := hpull i (by omega)
    have hat := hrow i (by rw [List.length_range]; omega) hi
    simp only [List.get_eq_getElem, List.getElem_range] at hat
    rwa [Except.ok.inj (hat.symm.trans hr)]

/-- The next degree of a stage is reached, at stage 0 if there is nothing left to be lifted. -/
theorem exists_step (hr : Ready k S T L s t) (ht : L.next S T s = t) (hzero : s = 0 → (S.mappedAt s).1.count t = 0) :
    ∃ L', L.step A B S T s t = .ok L' := by
  obtain ⟨needed, hneeded, hcount⟩ := exists_needsValues hb hAB hL hs hr.target
  rw [step, hneeded, Result.ok_bind]
  cases needed with
  | false => exact exists_addZeros hb hAB hL hs ht hr.target
  | true =>
    obtain ⟨s, rfl⟩ : ∃ i, s = i + 1 := ⟨s - 1, by have hpos : s ≠ 0 := fun h => hcount rfl (hzero h); omega⟩
    have hs' : s < L.maps.size := by omega
    have hlow : T.minDegree ≤ t - k := by
      have := le_next_of_lifts hL (s + 1)
      omega
    have hsource := hr.source.trans_le (hb.source.next_succ_le s)
    have htarget := hr.target.trans_le (hb.target.next_succ_le s)
    let value : Generator → Result Vec := fun x => do
      let v ← (S.mappedAt (s + 1)).2.output (S.mappedAt (s + 1)).1 x
      ((L.freeMapAt S T s).toMap A (S.mappedAt s).1 ((T.mappedAt s).1.toGraded B)).apply 1 t v
    have hvalue : ∀ i < (S.mappedAt (s + 1)).1.count t, ∃ v, value ⟨t, i⟩ = .ok v ∧
        Proper p ((T.target Y (s + 1)).dim (t - k)) v := by
      intro i hi
      have hcomputed := hb.source.computed (s + 1)
      have hmin : (S.mappedAt (s + 1)).1.minDegree ≤ t :=
        FreeModule.minDegree_le (g := ⟨t, i⟩) (FreeModule.mem_generatorList.mpr hi)
      obtain ⟨u, hu, hup⟩ := hcomputed.defined ⟨t, i⟩ (FreeModule.mem_generatorList.mpr hi) (Int.le_sub_one_of_lt hr.source)
        (by rw [hcomputed.map_min, ← hcomputed.source_min]; exact hmin)
      rw [hcomputed.shift_eq, sub_zero] at hup
      obtain ⟨w, hw, hwp, _⟩ := apply_eq hb hAB hL (hr.below s rfl) hsource htarget hup
      exact ⟨w, Result.bind_eq_ok.mpr ⟨u, hu, hw⟩, hwp⟩
    obtain ⟨rows, hrows, hlength, hsize⟩ := exists_preimages hb hAB hL hs hlow hr.target hvalue
    obtain ⟨L', hL'⟩ := exists_addRows hb hAB hL hs ht hr.target hlength hsize
    refine ⟨L', ?_⟩
    rw [if_pos rfl, decide_eq_true (Nat.succ_pos s), require_true, Result.ok_bind, Nat.add_sub_cancel,
      Resolution.stage_eq (hs.trans_le hL.size_le_source), Result.ok_bind, Resolution.stage_eq (hs'.trans_le hL.size_le_source),
      Result.ok_bind, Resolution.stage_eq (hs.trans_le hL.size_le_target), Result.ok_bind,
      Resolution.stage_eq (hs'.trans_le hL.size_le_target), Result.ok_bind, getElem?_maps (S := S) (T := T) hs',
      Result.ofOption_some, Result.ok_bind]
    exact Result.bind_eq_ok.mpr ⟨rows, hrows, hL'⟩

end Steps

section Stages

variable (hb : Between X Y k n φ S T) (hAB : SeenThrough p S T A B)

include hb hAB

/-- The degrees of a stage are reached one after the other. -/
theorem exists_steps (hL : Lifts X Y k φ S T L) (hs : s < L.maps.size) (hr : Ready k S T L s t)
    (hzero : s = 0 → ∀ d, L.next S T 0 ≤ d → d ≤ t → (S.mappedAt 0).1.count d = 0) :
    ∃ L', (GradedModule.degreesBetween (L.next S T s) t).foldlM (fun L t => L.step A B S T s t) L = .ok L' := by
  obtain ⟨m, hm⟩ : ∃ m : ℕ, (t + 1 - L.next S T s).toNat = m := ⟨_, rfl⟩
  induction m generalizing L with
  | zero =>
    have hnil : GradedModule.degreesBetween (L.next S T s) t = [] :=
      List.length_eq_zero_iff.mp (by rw [GradedModule.length_degreesBetween, hm])
    exact ⟨L, by rw [hnil]; rfl⟩
  | succ m ih =>
    have hle : L.next S T s ≤ t := by omega
    obtain ⟨L₁, h₁⟩ := exists_step hb hAB hL hs (hr.mono hle) rfl fun h => by
      subst h
      exact hzero rfl _ (le_refl _) hle
    obtain ⟨hL₁, rows, hraised⟩ := step_eq_ok hb hAB hL (hr.mono hle) h₁
    have hnext := hraised.next_self
    obtain ⟨L', h'⟩ := ih hL₁ (hraised.size_eq ▸ hs)
      ⟨hr.source, hr.target, fun i hi => by rw [hraised.next_other (by omega)]; exact hr.below i hi⟩
      (fun h d hd => by
        subst h
        exact hzero rfl d (by omega)) (by omega)
    rw [hnext] at h'
    exact ⟨L', by rw [GradedModule.degreesBetween_cons hle, List.foldlM_cons, h₁, Result.ok_bind, h']⟩

theorem exists_extendStage (hL : Lifts X Y k φ S T L) (hr : Ready k S T L s t) (hS : s < S.stages.size) (hT : s < T.stages.size)
    (hzero : s = 0 → ∀ d, L.next S T 0 ≤ d → d ≤ t → (S.mappedAt 0).1.count d = 0) :
    ∃ L', L.extendStage A B S T s t = .ok L' ∧ max L.maps.size (s + 1) = L'.maps.size := by
  have hmaps := freeMapAt_reach S T L s
  have hsize := size_reach S T L s
  have hnext : (L.reach S T s).next S T = L.next S T := by
    funext i
    rw [next, next, hmaps]
  have hreached : s < (L.reach S T s).maps.size := by omega
  have hready : Ready k S T (L.reach S T s) s t := ⟨hr.source, hr.target, by rw [hnext]; exact hr.below⟩
  obtain ⟨L', hL'⟩ := exists_steps hb hAB (hL.reach hS hT) hreached hready (by rwa [hnext])
  refine ⟨L', ?_, ?_⟩
  · rw [extendStage, getElem?_maps (S := S) (T := T) hreached]
    exact hL'
  · rw [← hsize]
    exact (steps_eq_ok (fun L₁ L₂ d hL₁ hr₁ h₁ => step_eq_ok hb hAB hL₁ hr₁ h₁) (hL.reach hS hT) hready hL').2.2.2.symm

/-- All stages through one that both resolutions have are extended to a degree that both have there. -/
theorem exists_extend (hL : Lifts X Y k φ S T L) (hS : S.hasComputed s t = true) (hT : T.hasComputed s (t - k) = true)
    (hzero : ∀ d, L.next S T 0 ≤ d → d ≤ t → (S.mappedAt 0).1.count d = 0) :
    ∃ L', L.extend A B S T s t = .ok L' ∧ s < L'.maps.size := by
  obtain ⟨hsizeS, hnextS⟩ := (Resolution.hasComputed_iff hb.source).mp hS
  obtain ⟨hsizeT, hnextT⟩ := (Resolution.hasComputed_iff hb.target).mp hT
  have hloop : ∀ m ≤ s + 1, ∃ L', (List.range m).foldlM (fun L s => L.extendStage A B S T s t) L = .ok L' ∧
      m ≤ L'.maps.size ∧ Lifts X Y k φ S T L' ∧ (∀ i < m, t < L'.next S T i) ∧ L.next S T 0 ≤ L'.next S T 0 := by
    intro m
    induction m with
    | zero => exact fun _ => ⟨L, rfl, Nat.zero_le _, hL, fun i hi => absurd hi (Nat.not_lt_zero i), le_refl _⟩
    | succ m ih =>
      intro hm
      obtain ⟨L₁, h₁, hsize, hL₁, hreached, hle⟩ := ih (by omega)
      have hready : Ready k S T L₁ m t := ⟨hnextS.trans_le (Resolution.next_anti hb.source (by omega)),
        hnextT.trans_le (Resolution.next_anti hb.target (by omega)), fun i hi => hreached i (by omega)⟩
      obtain ⟨L₂, h₂, hsize₂⟩ := exists_extendStage hb hAB hL₁ hready (by omega) (by omega) fun _ d hd => hzero d (hle.trans hd)
      obtain ⟨hL₂, hself, hother⟩ := extendStage_eq_ok hb hAB hL₁ hready (by omega) (by omega) h₂
      refine ⟨L₂, ?_, by omega, hL₂, fun i hi => ?_, ?_⟩
      · rw [List.range_succ, List.foldlM_append, h₁, Result.ok_bind]
        exact Result.bind_eq_ok.mpr ⟨L₂, h₂, rfl⟩
      · rcases Nat.lt_succ_iff_lt_or_eq.mp hi with hi | rfl
        · rw [hother i (by omega)]
          exact hreached i hi
        · omega
      · rcases Nat.eq_zero_or_pos m with rfl | hpos
        · omega
        · rwa [hother 0 (by omega)]
  obtain ⟨L', h', hsize, _⟩ := hloop (s + 1) (le_refl _)
  refine ⟨L', ?_, by omega⟩
  rw [extend, hS, hL.shift_eq, hT]
  exact h'

end Stages

/-- Above the module that is resolved, stage 0 has no generators. -/
theorem count_eq_zero_of_dim {m : ℤ} (h : S.Resolves X m) (hm : m ≤ t) (ht : t < S.next 0) (hzero : X.dim t = 0) :
    (S.mappedAt 0).1.count t = 0 := by
  have hfinrank := ((h.computed 0).solved t hm ht).finrank_eq
  have himage : Mapped.image (S.target X 0) (S.mappedAt 0) t = p.space (X.dim t) := h.exact 0 t hm ht
  rw [himage, hzero, space_zero, finrank_bot] at hfinrank
  omega

/-- Stage 0 has been lifted through the top degree of the module that the source resolves. -/
theorem Reachable.top_lt_next {L : Option Lift} (h : Reachable C.prime f A B S T L) (hg : Given C f A B) :
    ∀ L' ∈ L, f.source.maxDegree < L'.next S T 0 := by
  induction h with
  | new A B name name' budget budget' hA hB => exact fun L' hL' => absurd hL' (Option.not_mem_none L')
  | source earlier move ih =>
    have hg₀ := hg.mono move.follows.computed_le (le_refl _)
    obtain ⟨_, hext, _⟩ := (earlier.sound hg₀).resolves_source hg₀ move hg
    intro L' hL'
    rw [next_extends hext (Resolution.Extends.refl (f.target.rep C.prime) _)]
    exact ih hg₀ L' hL'
  | target earlier move ih =>
    have hg₀ := hg.mono (le_refl _) move.follows.computed_le
    obtain ⟨_, hext, _⟩ := (earlier.sound hg₀).resolves_target hg₀ move hg
    intro L' hL'
    rw [next_extends (Resolution.Extends.refl (f.source.rep C.prime) _) hext]
    exact ih hg₀ L' hL'
  | start name earlier source_known target_known met ih =>
    have h := earlier.sound hg
    rintro L' ⟨⟩
    exact (start_eq_ok (h.between hg) (h.seenThrough hg) (h.answers hg) rfl source_known target_known met).2
  | extend s t earlier met ih =>
    have h := earlier.sound hg
    rintro L' ⟨⟩
    refine (ih hg _ rfl).trans_le ?_
    rw [(extend_eq_ok (h.between hg) (h.seenThrough hg) (h.lifts _ rfl) met).2 0]
    split
    · exact le_max_left _ _
    · exact le_refl _
  | extendAll earlier met ih =>
    have h := earlier.sound hg
    rintro L' ⟨⟩
    exact (ih hg _ rfl).trans_le ((extendAll_eq_ok (h.between hg) (h.seenThrough hg) (h.lifts _ rfl) met).2 0)

/-- A generator that the map of its stage has reached has an image. Below the least degree of the map there is nowhere to go. -/
theorem exists_act (hb : Between X Y k n φ S T) (hL : Lifts X Y k φ S T L) (hs : s < L.maps.size)
    (ht : t < (L.freeMapAt S T s).nextDegree) {i : ℕ}
    (hi : i < (S.mappedAt s).1.count t) :
    ∃ v, L.act S s ⟨t, i⟩ = .ok v ∧ v.size = ((T.mappedAt s).1.rep p).dim (t - k) := by
  have hmem : (⟨t, i⟩ : Generator) ∈ (S.mappedAt s).1.generatorList := FreeModule.mem_generatorList.mpr hi
  have hlowS : S.minDegree ≤ t := (hb.source.computed s).source_min ▸ FreeModule.minDegree_le hmem
  have hat : L.mapAt s t = .ok (L.freeMapAt S T s) := by
    rw [mapAt, getElem?_maps (S := S) (T := T) hs, Option.filter_some, if_pos (decide_eq_true ht)]
  rw [act, hat, Result.ok_bind, Resolution.stage_eq (hs.trans_le hL.size_le_source), Result.ok_bind,
    if_neg (not_le.mpr (show i < (S.stageAt s).module.count t from hi))]
  by_cases hlow : t < (L.freeMapAt S T s).minDegree
  · have hmin := hL.map_min s
    have hzero : ((T.mappedAt s).1.rep p).dim (t - k) = 0 := hb.target.dim_eq_zero (by omega) s
    exact ⟨Vec.zero 0, by rw [if_pos hlow], by rw [size_zero, hzero]⟩
  · obtain ⟨v, hv, hproper⟩ := hL.defined s ⟨t, i⟩ hmem (Int.le_sub_one_of_lt ht) (not_lt.mp hlow)
    rw [hL.map_shift] at hproper
    exact ⟨v, by rw [if_neg hlow]; exact hv, hproper.size_eq⟩

end Lift

namespace Session

variable {w : Workspace}

/-- Where a change of a lift fails, the whole workspace stays as it is. -/
theorem changeLift_of_error {name : String} {context : LiftContext} {change : LiftContext → Result Lift} {e : Failure}
    (h : (liftNamed name).run.run w = (.ok context, w)) (he : change context = .error e) :
    (changeLift name change).run.run w = (.error (.failed e), w) := by
  have hstop : (ofResult (change context)).run.run w = (.error (.failed e), w) := by rw [he]; rfl
  rw [changeLift, run_bind_of_ok h, run_bind_of_error hstop]

end Session

namespace Lift

/-- In every state, a request to extend the lift is refused exactly if one of the resolutions is not computed that far. Then it
leaves everything in the workspace as it was. Otherwise it is met, and all generators up to the bidegree have images of the
right length. -/
theorem Reachable.extend_all_or_nothing (h : Reachable C.prime f A B S T (some L)) (hg : Given C f A B) (s : ℕ) (t : ℤ) :
    ((∃ s' t', L.extend A B S T s t = refuse (.notResolved s' t')) ↔
      S.hasComputed s t = false ∨ T.hasComputed s (t - f.shift) = false) ∧
    (∀ w name place source target, (Session.liftNamed name).run.run w = (.ok ⟨place, ⟨source, target, L⟩, S, T, A, B⟩, w) →
      S.hasComputed s t = false ∨ T.hasComputed s (t - f.shift) = false →
      ∃ s' t', (Session.extend name s t).run.run w = (.error (.failed (.refused (.notResolved s' t'))), w)) ∧
    (S.hasComputed s t = true → T.hasComputed s (t - f.shift) = true →
      ∃ L', L.extend A B S T s t = .ok L' ∧ ∀ s' ≤ s, ∀ t' ≤ t, ∃ F G n, S.stage s' = .ok F ∧ T.stage s' = .ok G ∧
        G.module.dimension B (t' - f.shift) = .ok n ∧
        ∀ i < F.module.count t', ∃ v, L'.act S s' ⟨t', i⟩ = .ok v ∧ v.size = n) := by
  have hall := h.top_lt_next hg L rfl
  have h := h.sound hg
  have hb := h.between hg
  have hAB := h.seenThrough hg
  have hL := h.lifts L rfl
  have hrefused : S.hasComputed s t = false ∨ T.hasComputed s (t - f.shift) = false →
      ∃ s' t', L.extend A B S T s t = refuse (.notResolved s' t') := by
    intro hnot
    cases hS : S.hasComputed s t with
    | false => exact ⟨s, t, by rw [Lift.extend, hS]; rfl⟩
    | true =>
      have hT := hnot.resolve_left (by rw [hS]; decide)
      exact ⟨s, t - L.shift, by rw [Lift.extend, hS, hL.shift_eq, hT]; rfl⟩
  have hmet : S.hasComputed s t = true → T.hasComputed s (t - f.shift) = true →
      ∃ L', L.extend A B S T s t = .ok L' ∧ s < L'.maps.size := by
    intro hS hT
    refine exists_extend hb hAB hL hS hT fun d hlow hd => ?_
    have hzero : f.source.dimension d = 0 := by
      by_contra hpos
      have := FiniteModule.degrees_of_lt_dimension (Nat.pos_of_ne_zero hpos)
      omega
    have hnext := ((Resolution.hasComputed_iff h.source).mp hS).2.trans_le (Resolution.next_le_zero h.source s)
    refine count_eq_zero_of_dim h.source ?_ (hd.trans_lt hnext) hzero
    have hmin : f.source.minDegree ≤ f.source.maxDegree + 1 := by
      rw [FiniteModule.minDegree, FiniteModule.maxDegree, Graded.maxDegree, Graded.nextDegree]
      omega
    omega
  refine ⟨⟨fun hrefuse => ?_, hrefused⟩, fun w name place source target hnamed hnot => ?_, fun hS hT => ?_⟩
  · obtain ⟨s', t', hfail⟩ := hrefuse
    by_contra hboth
    obtain ⟨L', hL', _⟩ := hmet (by simpa using (not_or.mp hboth).1) (by simpa using (not_or.mp hboth).2)
    rw [hfail] at hL'
    cases hL'
  · obtain ⟨s', t', hfail⟩ := hrefused hnot
    exact ⟨s', t', Session.changeLift_of_error hnamed hfail⟩
  · obtain ⟨L', hL', hsize⟩ := hmet hS hT
    obtain ⟨hlifts, hnext⟩ := extend_eq_ok hb hAB hL hL'
    refine ⟨L', hL', fun s' hs' t' ht' => ?_⟩
    have hreached := hsize.trans_le' hs'
    have hT' : t' - f.shift < T.next s' := by
      have := ((Resolution.hasComputed_iff h.target).mp hT).2.trans_le (Resolution.next_anti h.target hs')
      omega
    refine ⟨_, _, _, Resolution.stage_eq (hreached.trans_le hlifts.size_le_source),
      Resolution.stage_eq (hreached.trans_le hlifts.size_le_target), dimension_target hb hAB hT', fun i hi => ?_⟩
    refine exists_act hb hlifts hreached ?_ hi
    have hself := hnext s'
    rw [if_pos (by omega)] at hself
    rw [← next]
    omega

/-- The identity of the sphere is lifted at the start. It can be extended to the generator of stage 1 in degree 1, but not to
stage 1 and degree 2, where the resolution is not computed. -/
theorem extend_all_or_nothing_ofSphere :
    (∃ s t, startOfSphere.extend Algebra.first Algebra.first Resolution.ofSphere Resolution.ofSphere 1 2 =
      refuse (.notResolved s t)) ∧
    ∃ L F v, startOfSphere.extend Algebra.first Algebra.first Resolution.ofSphere Resolution.ofSphere 1 1 = .ok L ∧
      Resolution.ofSphere.stage 1 = .ok F ∧ F.module.count 1 = 1 ∧ L.act Resolution.ofSphere 1 ⟨1, 0⟩ = .ok v := by
  have hat := Reachable.extend_all_or_nothing reachable_startOfSphere given_ofSphere 1
  obtain ⟨L, hL, hall⟩ := (hat 1).2.2 (by decide +kernel) (by decide +kernel)
  obtain ⟨F, G, n, hF, hG, hn, hact⟩ := hall 1 (le_refl 1) 1 (le_refl 1)
  have hcount : F.module.count 1 = 1 := by
    have hstage : (Resolution.ofSphere.stage 1).map (·.module.count 1) = .ok 1 := by decide +kernel
    rw [hF] at hstage
    exact Except.ok.inj hstage
  obtain ⟨v, hv, _⟩ := hact 0 (by omega)
  exact ⟨(hat 2).1.mpr (.inl (by decide +kernel)), L, F, v, hL, hF, hcount, hv⟩

end Lift
end Steenrod
