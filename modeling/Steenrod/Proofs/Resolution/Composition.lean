import Steenrod.Proofs.Resolution.ChainMap
import Steenrod.Proofs.Resolution.Comparison
/-!
The maps on Ext that homomorphisms of finite modules induce. Main statement: that of a composite is the product of the
matrices of the factors, whatever lifts were chosen.
-/
namespace Steenrod

open Vec

namespace FiniteMap

variable {C : Algebra} {f g h : FiniteMap}

/-- `h` is `f` followed by `g`: basis elements go where `g` takes their images under `f`. -/
structure IsComposite (C : Algebra) (h g f : FiniteMap) : Prop where
  source_eq : h.source = f.source
  middle_eq : g.source = f.target
  target_eq : h.target = g.target
  shift_eq : h.shift = f.shift + g.shift
  image_eq : ∀ (d : ℤ) (i : ℕ), i < f.source.dimension d → ∃ y w, f.imageOf C.prime d i = .ok y ∧
    (g.toMap (g.source.toGraded C) (g.target.toGraded C)).apply 1 (d - f.shift) y = .ok w ∧
    h.imageOf C.prime d i = .ok w

theorem imageOf_eq {p : Prime} (hf : f.HasRows) {d : ℤ} {i : ℕ} (hi : i < f.source.dimension d) {y : Vec}
    (hy : f.imageOf p d i = .ok y) :
    Proper p (f.target.dimension (d - f.shift)) y ∧ y.coords p = f.linear p d (Pi.single i 1) := by
  obtain ⟨w, hw, hwp, hwc⟩ := applyToBasis_eq (p := p) hf hi 1
  obtain rfl := Except.ok.inj (hw.symm.trans hy)
  rw [Nat.cast_one, one_smul] at hwc
  exact ⟨hwp, hwc⟩

theorem IsComposite.linear_eq (hc : IsComposite C h g f) (hf : f.HasRows) (hg : g.HasRows) (hh : h.HasRows) {d : ℤ}
    {v : ℕ → C.prime.Field} (hv : v ∈ C.prime.space (f.source.dimension d)) :
    h.linear C.prime d v = g.linear C.prime (d - f.shift) (f.linear C.prime d v) := by
  rw [← combine_units hv, map_combine, map_combine, map_combine]
  refine combine_congr (fun i hi => ?_) fun _ _ => rfl
  obtain ⟨y, w, hy, hw, hw'⟩ := hc.image_eq d i hi
  obtain ⟨hyp, hyc⟩ := imageOf_eq hf hi hy
  obtain ⟨_, hwc⟩ := imageOf_eq hh (hc.source_eq.symm ▸ hi) hw'
  obtain ⟨u, hu, _, huc⟩ := apply_eq hg C C (d := d - f.shift) (hc.middle_eq.symm ▸ hyp) 1
  obtain rfl := Except.ok.inj (hw.symm.trans hu)
  rw [Nat.cast_one, one_smul] at huc
  rw [← hwc, huc, hyc]

theorem isComposite_identity (C : Algebra) (M : FiniteModule) :
    IsComposite C (identity M) (identity M) (identity M) where
  source_eq := rfl
  middle_eq := rfl
  target_eq := rfl
  shift_eq := rfl
  image_eq d i hi := by
    obtain ⟨y, hy, hyp, _⟩ := applyToBasis_eq (p := C.prime) (hasRows_identity M) hi 1
    simp only [show (identity M).shift = 0 from rfl, sub_zero] at hyp ⊢
    exact ⟨y, y, hy, apply_identity C C hyp, hy⟩

end FiniteMap

namespace Lift

open Resolution

variable {p : Prime} {X Y : Representation p} {k n τ : ℤ} {φ : Family p} {S T U : Resolution} {L : Lift} {s : ℕ}
variable {A B D C : Algebra} {f g h : FiniteMap}

/-- What a stage of a lift lies over. -/
theorem lower_eq_under (i : ℕ) (d : ℤ) : L.lower φ S T i d = under φ (L.linear p S T) i d := by
  cases i <;> rfl

section Chains

variable (hb : Between X Y k n φ S T)

include hb

theorem Between.resolvesSource (hτ : τ < S.next s) : ResolvesThrough X n s τ S :=
  ⟨hb.source, hb.source_zero, hb.algebra, hb.source_known, hτ⟩

theorem Between.resolvesTarget (hτ : τ < T.next s) : ResolvesThrough Y n s τ T :=
  ⟨hb.target, hb.target_zero, hb.algebra, hb.target_known, hτ⟩

theorem Between.homThrough (hS : τ < S.next 0) (hT : τ - k < T.next 0) : Representation.Hom X Y k τ φ :=
  ⟨fun _ _ => hb.hom.mem _ _, fun ha hd hv => hb.hom.commutes.map_act ha (by omega) hv⟩

/-- A lift is a chain map as far as it has got. -/
theorem Lifts.chain (hL : Lifts X Y k φ S T L) (hτ : τ < L.next S T s) (hS : τ < S.next 0) (hT : τ - k < T.next 0) :
    Chain X Y k τ φ S T s (L.linear p S T) := by
  refine ⟨fun i _ => ⟨fun {d v} hd _ => ?_, fun {a d v} ha hd hv => ?_⟩, fun i hi d hd v _ => ?_⟩
  · exact hL.linear_mem hb i (by omega) v
  · exact (hL.lower_commutes hb (i + 1)).map_act ha (by omega) hv
  · have hle : L.next S T s ≤ L.next S T i := antitone_nat_of_succ_le hL.next_succ_le hi
    rw [down, down, ← lower_eq_under]
    exact hL.comm_linear hb i (by omega) (by omega) (by omega) v

/-- The image of a generator is its value. -/
theorem linear_generator (hL : Lifts X Y k φ S T L) {x : Generator} (hx : x ∈ (S.free s).generatorList)
    (hreached : x.degree < L.next S T s) (hT : x.degree - k < T.next 0) :
    L.linear p S T s x.degree ((S.free s).generator p x) = (L.freeMapAt S T s).value p x := by
  have hlow : S.minDegree ≤ x.degree := (hb.source.computed s).source_min ▸ FreeModule.minDegree_le hx
  have hlt : x.degree < S.next s := FreeModule.degree_lt_nextDegree hx
  have hle := Resolution.next_le_zero hb.source s
  have hknown := hb.source_known
  have hloc := FreeModule.locate?_placeOf (p := p) (d := x.degree) hx (k := 0)
    (Milnor.dim_sub_self_pos _ _)
  have hmem := FreeMap.value_mem (hL.defined s) hx (by omega)
  rw [hL.map_shift] at hmem
  rw [FreeModule.generator, linear, FreeMap.linear, FreeMap.values, ← Nat.add_zero ((S.free s).placeOf p x.degree x),
    FreeModule.freeMap_single _ _ ((L.freeMapAt S T s).value p) hloc, one_smul, sub_self, hL.map_shift]
  exact (Lifts.target_lawful hb (s + 1)).one_act (by omega) hmem

omit hb in
/-- What the induced map answers is coefficients of the lift. -/
theorem actOnExt_eq_ok (hb : Between X Y k n φ S T) (hAB : SeenThrough p S T A B) (hL : Lifts X Y k φ S T L)
    {y : Generator} {row : List ℕ} (h : L.actOnExt B S T s y = .ok row) :
    s < L.maps.size ∧ y ∈ (T.free s).generatorList ∧ y.degree + k < L.next S T s ∧
      row.length = (S.free s).count (y.degree + k) ∧
      ∀ i, ∀ hi : i < row.length, row[i] < p.val ∧
        (row[i] : p.Field) = L.linear p S T s (y.degree + k) ((S.free s).generator p ⟨y.degree + k, i⟩)
          ((T.free s).placeOf p y.degree y) := by
  obtain ⟨m, hm, h⟩ := Result.bind_eq_ok.mp h
  obtain ⟨F, hF, h⟩ := Result.bind_eq_ok.mp h
  obtain ⟨G, hG, h⟩ := Result.bind_eq_ok.mp h
  obtain ⟨_, rfl⟩ := Resolution.stage_eq_ok hF
  obtain ⟨_, rfl⟩ := Resolution.stage_eq_ok hG
  obtain ⟨hm, hreached⟩ := mapAt_eq_ok hm
  have hat : L.freeMapAt S T s = m := by rw [freeMapAt, hm, Option.getD_some]
  have hlt : y.degree + L.shift < L.next S T s := by rwa [next, hat]
  split at h
  · cases h
  next hcond =>
  rw [Bool.or_eq_true, not_or, decide_eq_true_eq, not_le, Bool.not_eq_true', Bool.not_eq_false] at hcond
  have hy : y ∈ (T.free s).generatorList := FreeModule.mem_generatorList.mpr hcond.2
  have hltT : y.degree < T.next s := FreeModule.degree_lt_nextDegree hy
  have hleT := Resolution.next_le_zero hb.target s
  obtain ⟨j, hj, h⟩ := Result.bind_eq_ok.mp h
  obtain ⟨start, hstart, hindex⟩ := (hb.target.knownThrough hAB.target_known hltT).indexOf_eq (a := ⟨0, 0⟩) (le_refl 0)
    hy (by simp only; omega)
  have hplace : j = (T.free s).placeOf p y.degree y := by
    have hj : j = start := Except.ok.inj (hj.symm.trans hindex)
    simp only [zero_add, hAB.target_prime, FreeModule.startOf?_eq_placeOf hy, Option.some.injEq] at hstart
    exact hj.trans hstart.symm
  rw [hL.shift_eq] at hlt h
  obtain ⟨hlen, hrow⟩ := List.forall₂_iff_get.mp (Result.of_mapM_eq_ok h)
  rw [List.length_range] at hlen
  refine ⟨(Array.getElem?_eq_some_iff.mp hm).1, hy, hlt, hlen.symm, fun i hi => ?_⟩
  have hx : (⟨y.degree + k, i⟩ : Generator) ∈ (S.free s).generatorList :=
    FreeModule.mem_generatorList.mpr (hlen.symm ▸ hi)
  obtain ⟨v, hv, hentry⟩ := Result.bind_eq_ok.mp (hrow i (by rwa [List.length_range, hlen]) hi)
  have hentry := Result.ofOption_eq_ok.mp hentry
  simp only [List.get_eq_getElem, List.getElem_range] at hv hentry
  rw [← hat] at hv
  obtain ⟨hlow, _, _⟩ := FreeMap.output_eq_ok hv
  obtain ⟨w, hw, hproper⟩ := hL.defined s _ hx (by simp only; omega) hlow
  obtain rfl := Except.ok.inj (hv.symm.trans hw)
  have hget : row[i] = v.entry j := by rw [entry, show v.entries[j]? = some row[i] from hentry, Option.getD_some]
  refine ⟨hget ▸ reduced_iff.mp hproper.reduced _, ?_⟩
  have hvalue := linear_generator hb hL hx hlt (by simp only; omega)
  simp only at hvalue
  rw [hvalue, FreeMap.value_of_output hv, hget, hplace]
  rfl

end Chains

/-- The matrices of the induced maps multiply. In every state of three lifts, of homomorphisms `f` and `g` and of their
composite `h`, between the same three resolutions: the induced map of `h` answers, for each generator of the source, the
sum over the generators of the middle of the products of what those of `g` and `f` answer. -/
theorem Reachable.actOnExt_comp {F G H : Lift} (hF : Reachable C.prime f A B S T (some F))
    (hG : Reachable C.prime g B D T U (some G)) (hH : Reachable C.prime h A D S U (some H)) (gF : Given C f A B)
    (gG : Given C g B D) (gH : Given C h A D) (hc : FiniteMap.IsComposite C h g f) {y : Generator}
    {rowH rowG : List ℕ} {rowF : ℕ → List ℕ} (hrowH : H.actOnExt D S U s y = .ok rowH)
    (hrowG : G.actOnExt D T U s y = .ok rowG)
    (hrowF : ∀ j < rowG.length, F.actOnExt B S T s ⟨y.degree + g.shift, j⟩ = .ok (rowF j)) :
    ∃ x z, S.stage s = .ok x ∧ T.stage s = .ok z ∧ rowH.length = x.module.count (y.degree + h.shift) ∧
      rowG.length = z.module.count (y.degree + g.shift) ∧
      ∀ i < x.module.count (y.degree + h.shift), rowH.getD i 0 =
        (∑ j ∈ Finset.range rowG.length, rowG.getD j 0 * (rowF j).getD i 0) % C.prime.val := by
  have hF := hF.sound gF
  have hG := hG.sound gG
  have hH := hH.sound gH
  have hbF := hF.between gF
  have hbG := hG.between gG
  have hbH := hH.between gH
  have hLF := hF.lifts F rfl
  have hLG := hG.lifts G rfl
  have hLH := hH.lifts H rfl
  obtain ⟨hsizeH, hy, hreachedH, hlenH, hentryH⟩ := actOnExt_eq_ok hbH (hH.seenThrough gH) hLH hrowH
  obtain ⟨hsizeG, _, hreachedG, hlenG, hentryG⟩ := actOnExt_eq_ok hbG (hG.seenThrough gG) hLG hrowG
  refine ⟨_, _, Resolution.stage_eq (hsizeH.trans_le hLH.size_le_source),
    Resolution.stage_eq (hsizeG.trans_le hLG.size_le_source), hlenH, hlenG, fun i hi => ?_⟩
  -- The degrees of the generators in the three resolutions.
  have hshift := hc.shift_eq
  set τ := y.degree + h.shift with hτ
  have hdegT : τ - f.shift = y.degree + g.shift := by omega
  have hdegU : τ - (f.shift + g.shift) = y.degree := by omega
  have hx : (⟨τ, i⟩ : Generator) ∈ (S.free s).generatorList := FreeModule.mem_generatorList.mpr hi
  have hltS : τ < S.next s := FreeModule.degree_lt_nextDegree hx
  have hltU : y.degree < U.next s := FreeModule.degree_lt_nextDegree hy
  have hltT : y.degree + g.shift < T.next s := by
    have hmin : U.minDegree ≤ y.degree := (hbG.target.computed s).source_min ▸ FreeModule.minDegree_le hy
    have hle := Resolution.le_next hbG.source s
    by_cases hlow : T.minDegree ≤ y.degree + g.shift
    · have := (hLG.next_le s (by omega)).1
      omega
    · omega
  have hzeroS := Resolution.next_le_zero hbF.source s
  have hzeroT := Resolution.next_le_zero hbG.source s
  have hzeroU := Resolution.next_le_zero hbG.target s
  have hchainH := hLH.chain hbH hreachedH (by omega) (by omega)
  have hchainG := hLG.chain hbG hreachedG (by omega) (by omega)
  rw [hc.source_eq, hc.target_eq, hc.shift_eq] at hchainH
  rw [hc.middle_eq, ← hdegT] at hchainG
  -- A chain map over `f`: the lift, unless there is no generator that it is asked for.
  have hchainF : ∃ ψ, Chain (f.source.rep C.prime) (f.target.rep C.prime) f.shift τ (f.linear C.prime) S T s ψ ∧
      ∀ j < rowG.length, coefficient f.shift S T s (ψ s) τ i j = ((rowF j).getD i 0 : C.prime.Field) := by
    by_cases hnone : rowG.length = 0
    · obtain ⟨ψ, hψ⟩ := exists_chain (s := s) (hbF.homThrough (by omega) (by omega))
        (hbF.resolvesSource hltS) (hbF.resolvesTarget (by omega))
      exact ⟨ψ, hψ, fun j hj => by omega⟩
    · have hdeg : τ = y.degree + g.shift + f.shift := by omega
      have hrow := fun j hj => actOnExt_eq_ok hbF (hF.seenThrough gF) hLF (hrowF j hj)
      obtain ⟨_, _, hreached, _, _⟩ := hrow 0 (by omega)
      refine ⟨_, hLF.chain hbF (by simp only at hreached; omega) (by omega) (by omega), fun j hj => ?_⟩
      obtain ⟨_, _, _, hlen, hentry⟩ := hrow j hj
      have hi' : i < (rowF j).length := by
        rw [hlen, ← hdeg]
        exact hi
      rw [coefficient, hdegT, hdeg, List.getD_eq_getElem _ _ hi']
      exact (hentry i hi').2.symm
  obtain ⟨ψ, hψ, hcoefficientF⟩ := hchainF
  have hcoefficientG : ∀ j < rowG.length,
      coefficient g.shift T U s (G.linear C.prime T U s) (τ - f.shift) j y.index = (rowG.getD j 0 : C.prime.Field) := by
    intro j hj
    rw [coefficient, hdegT, add_sub_cancel_right, List.getD_eq_getElem _ _ hj]
    exact (hentryG j hj).2.symm
  have hi' : i < rowH.length := hlenH ▸ hi
  have hcoefficientH : coefficient (f.shift + g.shift) S U s (H.linear C.prime S U s) τ i y.index =
      (rowH.getD i 0 : C.prime.Field) := by
    rw [coefficient, hdegU, List.getD_eq_getElem _ _ hi']
    exact (hentryH i hi').2.symm
  have hcomp := hψ.coefficient_comp hchainG hchainH (hbF.resolvesSource hltS) (hbF.resolvesTarget (by omega))
    (hbG.resolvesTarget (by omega))
    (fun d _ v hv => hc.linear_eq gF.linear.rows gG.linear.rows gH.linear.rows hv) hi
    (by rw [hdegU]; exact FreeModule.mem_generatorList.mp hy)
  rw [hcoefficientH, hdegT, ← hlenG] at hcomp
  refine Prime.eq_of_cast_eq _ ?_ (Nat.mod_lt _ C.prime.prime.pos) ?_
  · rw [List.getD_eq_getElem _ _ hi']
    exact (hentryH i hi').1
  · rw [hcomp, Prime.cast_mod, Nat.cast_sum]
    refine Finset.sum_congr rfl fun j hj => ?_
    have hj := Finset.mem_range.mp hj
    rw [hcoefficientF j hj, ← hdegT, hcoefficientG j hj, Nat.cast_mul, mul_comm]

/-- The identity of the sphere, followed by itself, on the generator of stage 1. -/
theorem actOnExt_comp_ofSphere : ∃ row, ofSphere.actOnExt Algebra.first Resolution.ofSphere Resolution.ofSphere 1 ⟨1, 0⟩ =
    .ok row ∧ row = [1] ∧ row.getD 0 0 = (∑ j ∈ Finset.range row.length, row.getD j 0 * row.getD 0 0) % 2 := by
  have hrow : ofSphere.actOnExt Algebra.first Resolution.ofSphere Resolution.ofSphere 1 ⟨1, 0⟩ = .ok [1] := by
    decide +kernel
  have hrows : ∀ j < [1].length, ofSphere.actOnExt Algebra.first Resolution.ofSphere Resolution.ofSphere 1
      ⟨1 + (FiniteMap.identity FiniteModule.sphere).shift, j⟩ = .ok [1] := by
    intro j hj
    obtain rfl : j = 0 := by simpa using hj
    exact hrow
  obtain ⟨_, _, _, _, hlen, _, hall⟩ := Reachable.actOnExt_comp reachable_ofSphere reachable_ofSphere reachable_ofSphere
    given_ofSphere given_ofSphere given_ofSphere (FiniteMap.isComposite_identity Algebra.first FiniteModule.sphere) hrow hrow hrows
  exact ⟨[1], hrow, rfl, hall 0 (by rw [← hlen]; exact Nat.one_pos)⟩

end Lift
end Steenrod
