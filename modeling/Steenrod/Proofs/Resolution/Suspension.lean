import Steenrod.Proofs.Module.Suspension
import Steenrod.Proofs.Resolution.Requests
import Steenrod.Proofs.Resolution.Tables
/-!
Resolutions of a module and of the module with all degrees raised by a constant. Main statement: what requests record in a
bidegree of the one, they record in the raised bidegree of the other.
-/
namespace Steenrod

open Vec

namespace Mapped

variable {p : Prime} {T T' : Representation p} {x x' : Mapped} {m n n' t d k : ℤ} {wanted : Subspace}

/-- The generators of `x'` in degree `d + k` are as many as those of `x` in degree `d`, and go to the same vectors. -/
structure RaisedOutputs (k : ℤ) (x x' : Mapped) (d : ℤ) : Prop where
  count_eq : x'.1.count (d + k) = x.1.count d
  outputs_eq : x'.2.outputs.get? (d + k) = x.2.outputs.get? d

/-- The entries of `x'` in degree `d + k` are those of `x` in degree `d`, apart from the names of generators. -/
structure RaisedEntries (k : ℤ) (x x' : Mapped) (d : ℤ) : Prop extends RaisedOutputs k x x' d where
  kernels_eq : x'.2.kernels.get? (d + k) = x.2.kernels.get? d
  inverses_eq : x'.2.quasiInverses.get? (d + k) = x.2.quasiInverses.get? d

theorem RaisedOutputs.value_eq {g : Generator} (h : RaisedOutputs k x x' g.degree)
    (hmin : x'.2.minDegree = x.2.minDegree + k) : x'.2.value p (g.raise k) = x.2.value p g := by
  have hlow : g.degree + k < x.2.minDegree + k ↔ g.degree < x.2.minDegree := by omega
  rw [FreeMap.value, FreeMap.value, hmin, Generator.raise, h.outputs_eq]
  simp only [hlow]

section Raising

variable (hx : Built T m n x) (hx' : Built T' (m + k) n' x') (hmt : m ≤ t) (hn : t ≤ n) (hn' : t + k ≤ n')
variable (h : ∀ e, m ≤ e → e < t → RaisedOutputs k x x' e)

include hx hx' hmt hn hn' h

theorem below_raise : x'.1.below (t + k) = (x.1.below t).map (Generator.raise k) :=
  FreeModule.below_raise (by rw [hx'.source_min, hx.source_min]) (hx.source_min ▸ hmt) (hx.source_next ▸ hn)
    (hx'.source_next ▸ hn') fun e hme het => (h e (hx.source_min ▸ hme) het).count_eq

theorem rep_agreeBelow_shift : (x'.1.rep p).AgreeBelow ((x.1.rep p).shift k) (t + k) :=
  FreeModule.agreeBelow_shift (by rw [hx'.source_min, hx.source_min]) (hx.source_min ▸ hmt) (hx.source_next ▸ hn)
    (hx'.source_next ▸ hn') (fun e hme het => (h e (hx.source_min ▸ hme) het).count_eq) p

theorem dim_below_raise : (Representation.free p ((x'.1.below (t + k)).map (·.degree))).dim (d + k) =
    (Representation.free p ((x.1.below t).map (·.degree))).dim d := by
  have hdegrees : ((x.1.below t).map (Generator.raise k)).map (·.degree) = ((x.1.below t).map (·.degree)).map (· + k) := by
    rw [List.map_map, List.map_map]
    rfl
  rw [below_raise hx hx' hmt hn hn' h, hdegrees, Representation.free_map_add, Representation.shift_dim_add]

/-- The map on what the generators of degree less than `t` span. -/
theorem linear_raise (hT : T'.AgreeBelow (T.shift k) (d + k + 1)) {v : ℕ → p.Field}
    (hv : v ∈ p.space ((Representation.free p ((x.1.below t).map (·.degree))).dim d)) :
    linear T' x' (d + k) v = linear T x d v := by
  have hv' := hv
  rw [← dim_below_raise hx hx' hmt hn hn' h] at hv'
  have hlist : (((x.1.below t).map (Generator.raise k)).map fun g => (g.degree, x'.2.value p g)) =
      ((x.1.below t).map fun g => (g.degree, x'.2.value p (g.raise k))).map fun y => (y.1 + k, y.2) := by
    rw [List.map_map, List.map_map]
    rfl
  rw [linear_eq_below hv, linear_eq_below hv', below_raise hx hx' hmt hn hn' h, hlist, hx'.shift_eq, hx.shift_eq,
    Representation.freeMap_congr hT _ _ (by omega), Representation.freeMap_shift]
  refine LinearMap.congr_fun (Representation.freeMap_congr_values _ _ Generator.degree _ _ fun g hg _ => ?_) v
  obtain ⟨hg, hlt⟩ := List.mem_filter.mp hg
  have hlow := hx.source_min ▸ FreeModule.minDegree_le hg
  exact (h _ hlow (of_decide_eq_true hlt)).value_eq (by rw [hx'.map_min, hx.map_min])

end Raising

/-- Steps that find the same in lower degrees, and have the same to hit, write the same entries. -/
theorem RecordedAt.raisedEntries (h : RecordedAt T wanted x d) (h' : RecordedAt T' wanted x' (d + k))
    (hx : Built T m n x) (hx' : Built T' (m + k) n' x') (hmd : m ≤ d) (hn : d < n) (hn' : d + k < n')
    (hT : T'.AgreeBelow (T.shift k) (d + k + 1))
    (hlow : ∀ e, m ≤ e → e < d → RaisedOutputs k x x' e) : RaisedEntries k x x' d := by
  obtain ⟨before, after, hbefore, hafter, hentries⟩ := h
  obtain ⟨before', after', hbefore', hafter', hentries'⟩ := h'
  have hdimT : T'.dim (d + k) = T.dim d := (hT.dim_eq (d + k) (lt_add_one _)).trans (Representation.shift_dim_add T k d)
  have hlower : lower p x' (d + k) = lower p x d := by
    rw [lower_eq_below, lower_eq_below, dim_below_raise hx hx' hmd hn.le hn'.le hlow]
  rw [hlower, hdimT] at hbefore'
  obtain rfl : before = before' := hbefore.unique hbefore' fun v hv =>
    (linear_raise hx hx' hmd hn.le hn'.le hlow hT (lower_eq_below x d ▸ hv)).symm
  have hnew : RaisedOutputs k x x' d := by
    refine ⟨?_, hentries'.outputs_eq.trans hentries.outputs_eq.symm⟩
    rw [FreeModule.count, FreeModule.count, hentries'.names_eq, hentries.names_eq]
    simp [FreeModule.defaultNames]
  -- The generators of degree `d` are now known to correspond, which determines the map in the whole degree.
  have hall : ∀ e, m ≤ e → e < d + 1 → RaisedOutputs k x x' e := fun e hme he => by
    rcases lt_or_eq_of_le (Int.lt_add_one_iff.mp he) with hlt | rfl
    · exact hlow e hme hlt
    · exact hnew
  have hdims : dim p x' (d + k) = dim p x d := by
    have hagree := rep_agreeBelow_shift hx hx' (by omega) (by omega) (by omega) hall (t := d + 1)
    exact (hagree.dim_eq (d + k) (by omega)).trans (Representation.shift_dim_add _ k d)
  rw [hdims, hdimT] at hafter'
  obtain rfl : after = after' := hafter.unique hafter' fun v hv =>
    (linear_raise hx hx' (by omega) (by omega) (by omega) hall hT (dim_eq_below p x (lt_add_one d) ▸ hv)).symm
  exact ⟨hnew, hentries'.kernel_eq.trans hentries.kernel_eq.symm, hentries'.inverse_eq.trans hentries.inverse_eq.symm⟩

end Mapped

namespace Resolution

variable {p : Prime} {X X' : Representation p} {m t d k : ℤ} {R R' : Resolution} {s i : ℕ}

section Raising

variable (h : R.Built X m) (h' : R'.Built X' (m + k))

include h h'

/-- In one stage the entries correspond, if what is to be hit does. -/
theorem Built.raisedEntries_of_wantedAt
    (hT : ∀ d, m ≤ d → d < R.next s → d + k < R'.next s → (R'.target X' s).AgreeBelow ((R.target X s).shift k) (d + k + 1))
    (hW : ∀ d, m ≤ d → d < R.next s → d + k < R'.next s → R'.wantedAt X' s (d + k) = R.wantedAt X s d) (hm : m ≤ t)
    (ht : t < R.next s) (ht' : t + k < R'.next s) : Mapped.RaisedEntries k (R.mappedAt s) (R'.mappedAt s) t := by
  obtain ⟨l, rfl⟩ : ∃ l : ℕ, t = m + l := ⟨(t - m).toNat, by omega⟩
  induction l using Nat.strong_induction_on with
  | _ l ih =>
    obtain ⟨W, hget, hrecorded⟩ := h.recorded s _ hm ht
    obtain ⟨W', hget', hrecorded'⟩ := h'.recorded s _ (by omega) ht'
    obtain rfl : W' = W := Option.some.inj (hget'.symm.trans ((hW _ hm ht ht').trans hget))
    refine hrecorded.raisedEntries hrecorded' (h.stage s) (h'.stage s) hm ht ht' (hT _ hm ht ht') fun e hme he => ?_
    obtain ⟨j, rfl⟩ : ∃ j : ℕ, e = m + j := ⟨(e - m).toNat, by omega⟩
    exact (ih j (by omega) hme (by omega) (by omega)).toRaisedOutputs

/-- A resolution of a module and one of the raised module have corresponding entries wherever both are computed. -/
theorem Built.raisedEntries (hX : ∀ t, X'.AgreeBelow (X.shift k) t) (hm : m ≤ t) (ht : t < R.next s)
    (ht' : t + k < R'.next s) : Mapped.RaisedEntries k (R.mappedAt s) (R'.mappedAt s) t := by
  induction s generalizing t with
  | zero =>
    refine h.raisedEntries_of_wantedAt h' (fun d _ _ _ => hX _) (fun d _ _ _ => ?_) hm ht ht'
    rw [wantedAt, wantedAt, (hX (d + k + 1)).dim_eq (d + k) (lt_add_one _), Representation.shift_dim_add]
  | succ s ih =>
    have hle := h.next_succ_le s
    have hle' := h'.next_succ_le s
    refine h.raisedEntries_of_wantedAt h' (fun d hmd hd hd' => ?_) (fun d hmd hd hd' => ?_) hm ht ht'
    · have hagree := Mapped.rep_agreeBelow_shift (t := d + 1) (h.stage s) (h'.stage s) (by omega) (by omega) (by omega)
        fun e hme he => (ih hme (by omega) (by omega)).toRaisedOutputs
      exact hagree.mono (by omega)
    · exact (ih hmd (by omega) (by omega)).kernels_eq

end Raising

end Resolution

/-- The tables of the map start in degree `m`. -/
structure FreeMap.StartsAt (m : ℤ) (f : FreeMap) : Prop where
  outputs_eq : f.outputs.minDegree = m
  kernels_eq : f.kernels.minDegree = m
  inverses_eq : f.quasiInverses.minDegree = m

theorem FreeMap.startsAt_new (m : ℤ) : (FreeMap.new m m 0).StartsAt m := by
  have hmax : max m (m + 0) = m := by rw [add_zero, max_self]
  exact ⟨hmax, hmax, hmax⟩

theorem FreeMap.StartsAt.hit {A : Algebra} {M : GradedModule} {wanted : Subspace} {t m : ℤ} {x y : Mapped}
    (h : x.2.StartsAt m) (hok : Mapped.hit A M wanted t x = .ok y) : y.2.StartsAt m := by
  obtain ⟨_, _, hby⟩ := Mapped.hit_cases hok
  refine ⟨?_, ?_, ?_⟩
  · rw [hby.grown.outputs_eq, Graded.minDegree_push, h.outputs_eq]
  · rw [hby.kernel_eq.2, Graded.minDegree_push, h.kernels_eq]
  · rw [hby.inverse_eq.2, Graded.minDegree_push, h.inverses_eq]

theorem FreeMap.StartsAt.extendByZero {F : FreeModule} {M : GradedModule} {f f' : FreeMap} {t m : ℤ} (h : f.StartsAt m)
    (hok : f.extendByZero F M t = .ok f') : f'.StartsAt m := by
  obtain ⟨outputs, hloop, hf⟩ := Result.bind_eq_ok.mp hok
  obtain rfl := Except.ok.inj hf
  refine ⟨Result.foldlM_invariant (I := fun g => g.minDegree = m) (fun d _ g g' hg hstep => ?_) h.outputs_eq hloop,
    h.kernels_eq, h.inverses_eq⟩
  obtain ⟨n, _, hg'⟩ := Result.bind_eq_ok.mp hstep
  obtain rfl := Except.ok.inj hg'
  exact hg

/-- Below the least degree nothing is recorded. -/
theorem FreeMap.StartsAt.entriesAt_eq {f : FreeMap} {m t : ℤ} (h : f.StartsAt m) (ht : t < m) :
    Resolution.entriesAt f t = (none, none, none) := by
  have hnone : ∀ {α : Type} (g : Graded α), g.minDegree = m → g.get? t = none := fun g hg => if_pos (hg ▸ ht)
  rw [Resolution.entriesAt, hnone _ h.outputs_eq, hnone _ h.kernels_eq, hnone _ h.inverses_eq]

namespace Resolution

variable {p : Prime} {X X' : Representation p} {m t d k : ℤ} {R R' : Resolution} {s i n : ℕ} {A A' : Algebra} {M : GradedModule}

/-- A resolution with `n` stages whose tables all start in degree `m`. -/
structure Framed (m : ℤ) (n : ℕ) (R : Resolution) : Prop where
  minDegree_eq : R.minDegree = m
  size_eq : R.stages.size = n
  augmentation : R.augmentation.StartsAt m
  differential : ∀ i, (R.stageAt i).differential.StartsAt m

theorem framed_new (name : String) (m : ℤ) (budget : Option ℤ) : Framed m 1 (Resolution.new name m budget) := by
  refine ⟨rfl, rfl, FreeMap.startsAt_new m, fun i => ?_⟩
  cases i with
  | zero => exact FreeMap.startsAt_new m
  | succ i => exact FreeMap.startsAt_new m

namespace Framed

variable (h : Framed m n R)

include h

/-- Replacing a stage keeps this, if the new tables start there as well. -/
theorem of_stages_eq {y : Stage} (hs : s < R.stages.size) (hstages : R'.stages = R.stages.setIfInBounds s y)
    (hmin : R'.minDegree = R.minDegree) (haug : R'.augmentation.StartsAt m) (hy : y.differential.StartsAt m) :
    Framed m n R' := by
  refine ⟨hmin.trans h.minDegree_eq, ?_, haug, fun i => ?_⟩
  · rw [hstages, Array.size_setIfInBounds, h.size_eq]
  · rw [stageAt_set hstages hs hmin]
    split
    · exact hy
    · exact h.differential i

theorem step (hok : R.step A M s t = .ok R') : Framed m n R' := by
  unfold Resolution.step at hok
  split at hok
  · obtain rfl := Except.ok.inj hok
    exact h
  split at hok
  · obtain ⟨x, hx, hok⟩ := Result.bind_eq_ok.mp hok
    obtain ⟨zero, hzero, hok⟩ := Result.bind_eq_ok.mp hok
    obtain ⟨_, _, hok⟩ := Result.bind_eq_ok.mp hok
    obtain ⟨⟨F, f⟩, hhit, hok⟩ := Result.bind_eq_ok.mp hok
    obtain ⟨differential, hdiff, hok⟩ := Result.bind_eq_ok.mp hok
    have heq := Except.ok.inj hok
    obtain ⟨hsize, rfl⟩ := stage_eq_ok hx
    obtain rfl := Mapped.extendTable_eq_ok hzero
    subst heq
    exact h.of_stages_eq hsize rfl rfl (h.augmentation.hit hhit) ((h.differential 0).extendByZero hdiff)
  · obtain ⟨x, hx, hok⟩ := Result.bind_eq_ok.mp hok
    obtain ⟨_, _, hok⟩ := Result.bind_eq_ok.mp hok
    obtain ⟨_, _, hok⟩ := Result.bind_eq_ok.mp hok
    obtain ⟨⟨F, f⟩, hhit, hok⟩ := Result.bind_eq_ok.mp hok
    have heq := Except.ok.inj hok
    obtain ⟨hsize, rfl⟩ := stage_eq_ok hx
    subst heq
    exact h.of_stages_eq hsize rfl rfl h.augmentation ((h.differential s).hit hhit)

theorem computeThrough (hok : R.computeThrough A M s t = .ok R') : Framed m (max n (s + 1)) R' := by
  have hsame := sameStages_extendStages R s
  refine Result.foldlM_invariant (I := Framed m (max n (s + 1))) (fun b _ R₁ R₂ h₁ h₂ => h₁.step h₂) ?_ hok
  refine ⟨h.minDegree_eq, ?_, h.augmentation, fun i => by rw [hsame.stageAt_eq]; exact h.differential i⟩
  have hsize := h.size_eq
  simp only [extendStages, height, Array.size_append, List.size_toArray, List.length_map, List.length_range']
  omega

theorem request {M : Algebra → GradedModule} (hok : (R.request M s t).run A = (.ok R', A')) :
    Framed m (max n (s + 1)) R' := by
  rcases run_request M R s t A with ⟨e, he⟩ | ⟨B, hB, _⟩
  · rw [he] at hok
    simp at hok
  · rw [hB, Prod.mk.injEq] at hok
    exact h.computeThrough hok.1

end Framed

theorem exists_framed_serve (M : Algebra → GradedModule) (rs : List Request) {x : Algebra × Resolution} (h : Framed m n x.2) :
    ∃ l, Framed m l (rs.foldl (serve M) x).2 := by
  induction rs generalizing x n with
  | nil => exact ⟨n, h⟩
  | cons r rs ih =>
    rw [List.foldl_cons]
    cases hok : (r.answer M x).1 with
    | error e => exact ih (x := serve M x r) (n := n) (by rw [serve, hok]; exact h)
    | ok R =>
      refine ih (x := serve M x r) (n := max n (r.bidegree.1 + 1)) ?_
      rw [serve, hok]
      have hanswer : r.answer M x = (.ok R, (r.answer M x).2) := Prod.ext hok rfl
      exact h.request hanswer

/-- In bidegree `(s, t + k)` the resolution `R'` has as many generators as `R` has in bidegree `(s, t)`, and it has recorded the
same outputs, kernel and quasi-inverse of the differential, and of the augmentation for stage 0. -/
structure RaisedAt (k : ℤ) (R R' : Resolution) (s : ℕ) (t : ℤ) : Prop where
  stage_eq : ∃ x x', R.stages[s]? = some x ∧ R'.stages[s]? = some x' ∧ x'.module.count (t + k) = x.module.count t ∧
    entriesAt x'.differential (t + k) = entriesAt x.differential t
  augmentation_eq : s = 0 → entriesAt R'.augmentation (t + k) = entriesAt R.augmentation t

/-- Stages that exist correspond below the least degree, where there is nothing, and where both are computed. -/
theorem Built.raisedAt (h : R.Built X m) (h' : R'.Built X' (m + k))
    (hX : ∀ t, X'.AgreeBelow (X.shift k) t) {l l' : ℕ} (hframe : Framed m l R) (hframe' : Framed (m + k) l' R') (hs : s < l)
    (hs' : s < l') (ht : m ≤ t → t < R.next s) (ht' : m ≤ t → t + k < R'.next s) : RaisedAt k R R' s t := by
  have hstage := getElem?_stages (hframe.size_eq.symm ▸ hs)
  have hstage' := getElem?_stages (hframe'.size_eq.symm ▸ hs')
  by_cases hm : m ≤ t
  · have hraised := h.raisedEntries h' hX hm (ht hm) (ht' hm)
    have hmapped : entriesAt (R'.mappedAt s).2 (t + k) = entriesAt (R.mappedAt s).2 t := by
      rw [entriesAt, entriesAt, hraised.outputs_eq, hraised.kernels_eq, hraised.inverses_eq]
    refine ⟨⟨_, _, hstage, hstage', hraised.count_eq, ?_⟩, fun h0 => by subst h0; exact hmapped⟩
    cases s with
    | succ s => exact hmapped
    | zero =>
      have hcount : (R'.stageAt 0).module.count (t + k) = (R.stageAt 0).module.count t := hraised.count_eq
      rw [entriesAt, entriesAt, h.zero_map.outputs_eq t hm (ht hm), h'.zero_map.outputs_eq (t + k) (by omega) (ht' hm),
        hcount, h.zero_map.kernels_eq, h'.zero_map.kernels_eq, h.zero_map.inverses_eq, h'.zero_map.inverses_eq]
      simp only [Graded.get?_empty]
  · have hnone : ∀ {f f' : FreeMap}, f.StartsAt m → f'.StartsAt (m + k) → entriesAt f' (t + k) = entriesAt f t :=
      fun hf hf' => (hf'.entriesAt_eq (by omega)).trans (hf.entriesAt_eq (by omega)).symm
    refine ⟨⟨_, _, hstage, hstage', ?_, hnone (hframe.differential s) (hframe'.differential s)⟩,
      fun _ => hnone hframe.augmentation hframe'.augmentation⟩
    have hmin : (R.stageAt s).module.minDegree = m := (h.stage s).source_min
    have hmin' : (R'.stageAt s).module.minDegree = m + k := (h'.stage s).source_min
    rw [FreeModule.count_of_lt (by omega), FreeModule.count_of_lt (by omega)]

variable {C : Algebra} {N N' : FiniteModule} {budget budget' : Option ℤ}

/-- Suspension invariance. Let `N'` be `N` with all degrees raised by `k`. After any requests to a new resolution of each, a
request for bidegree `(s, t)` of the one and for `(s, t + k)` of the other, which budgets and caps admit, are both met, and then
up to these bidegrees the two have as many generators, the same outputs, kernels and quasi-inverses. -/
theorem suspension_invariant (hk : FiniteModule.IsSuspension k N N') (hC : C.Answers) (hp : C.prime.val ≤ maxSigned)
    (hN : N.StoredBelow C.prime C.computed) (rs rs' : List Request) (name name' : String) (hA : A.prime = C.prime)
    (hle : A.computed ≤ C.computed) (hA' : A'.prime = C.prime) (hle' : A'.computed ≤ C.computed)
    (hrs : ∀ r ∈ rs, Fits C budget A.cap N.minDegree r.bidegree.2)
    (hrs' : ∀ r ∈ rs', Fits C budget' A'.cap N'.minDegree r.bidegree.2) (s : ℕ) (t : ℤ)
    (hfits : Fits C budget A.cap N.minDegree t) (hfits' : Fits C budget' A'.cap N'.minDegree (t + k))
    (hadmits : Admits budget A.cap N.minDegree t) (hadmits' : Admits budget' A'.cap N'.minDegree (t + k)) :
    let x := rs.foldl (serve N.toGraded) (A, Resolution.new name N.minDegree budget)
    let y := rs'.foldl (serve N'.toGraded) (A', Resolution.new name' N'.minDegree budget')
    ∃ R R' B B', (Request.through s t).answer N.toGraded x = (.ok R, B) ∧
      (Request.through s (t + k)).answer N'.toGraded y = (.ok R', B') ∧ ∀ s' ≤ s, ∀ t' ≤ t, RaisedAt k R R' s' t' := by
  intro x y
  have hS := setting_of_finite hC hp hN
  have hS' := setting_of_finite hC hp (hk.storedBelow hN)
  have hx := (kept_new (X := N.rep C.prime) (m := N.minDegree) hA hle name budget).serveAll hS rs hrs
  have hy := (kept_new (X := N'.rep C.prime) (m := N'.minDegree) hA' hle' name' budget').serveAll hS' rs' hrs'
  obtain ⟨l, hl⟩ := exists_framed_serve N.toGraded rs (x := (A, Resolution.new name N.minDegree budget))
    (framed_new name N.minDegree budget)
  obtain ⟨l', hl'⟩ := exists_framed_serve N'.toGraded rs' (x := (A', Resolution.new name' N'.minDegree budget'))
    (framed_new name' N'.minDegree budget')
  obtain ⟨-, R, B, hR, hkept, hnext⟩ := (hx.1.answer (r := .through s t) hS hfits).resolve_right fun h => h.1 hadmits
  obtain ⟨-, R', B', hR', hkept', hnext'⟩ :=
    (hy.1.answer (r := .through s (t + k)) hS' hfits').resolve_right fun h => h.1 hadmits'
  refine ⟨R, R', B, B', hR, hR', fun s' hs' t' ht' => ?_⟩
  have hframe := hl.request hR
  have hframe' := hl'.request hR'
  have hbuilt : R.Built (N.rep C.prime) N.minDegree := hkept.built
  have hbuilt' : R'.Built (N'.rep C.prime) N'.minDegree := hkept'.built
  rw [hk.minDegree_eq] at hframe' hbuilt'
  have hlt : R.next s' = max (x.2.next s') (t + 1) := (hnext s').trans (if_pos hs')
  have hlt' : R'.next s' = max (y.2.next s') (t + k + 1) := (hnext' s').trans (if_pos hs')
  exact hbuilt.raisedAt hbuilt' (fun d => hk.rep_eq C.prime ▸ Representation.AgreeBelow.refl _ d)
    hframe hframe' (show s' < max l (s + 1) by omega) (show s' < max l' (s + 1) by omega) (fun _ => by omega) fun _ => by omega

/-- The resolutions of the sphere and of the sphere in degree -3, through stage 1 and the first degree above the bottom. -/
theorem suspension_invariant_ofSphere : ∃ R R' B B',
    (Request.through 1 1).answer FiniteModule.sphere.toGraded (Algebra.first, Resolution.new "S" 0 none) = (.ok R, B) ∧
      (Request.through 1 (-2)).answer (FiniteModule.sphere.suspend (-3)).toGraded
        (Algebra.first, Resolution.new "S[-3]" (-3) none) = (.ok R', B') ∧
      RaisedAt (-3) R R' 1 1 ∧ R.count 1 1 = .ok 1 := by
  have hfits : ∀ m t : ℤ, t < maxSigned → t - m = 1 → Fits Algebra.first none Algebra.first.cap m t := fun m t ht hsub =>
    ⟨ht, by rw [hsub]; decide, fun _ => by rw [hsub, Algebra.computed_first]; decide⟩
  have hadmits : ∀ m t : ℤ, Admits none Algebra.first.cap m t := fun m t =>
    ⟨fun b hb => absurd hb (Option.not_mem_none b), fun c hc => absurd hc (Option.not_mem_none c)⟩
  obtain ⟨R, R', B, B', hR, hR', hall⟩ := suspension_invariant (FiniteModule.isSuspension_suspend (-3) FiniteModule.sphere)
    (Algebra.isAssociative_first.answers Algebra.isUnital_first) (by decide) FiniteModule.isModule_sphere.stored [] []
    "S" "S[-3]" rfl (le_refl _) rfl (le_refl _) (by simp) (by simp) 1 1 (hfits 0 1 (by decide) rfl)
    (hfits (-3) (-2) (by decide) rfl) (hadmits _ _) (hadmits _ _)
  refine ⟨R, R', B, B', hR, hR', hall 1 (le_refl 1) 1 (le_refl 1), ?_⟩
  obtain rfl : ofSphere = R := Except.ok.inj (congrArg Prod.fst (run_request_ofSphere.symm.trans hR))
  decide +kernel

end Resolution
end Steenrod
