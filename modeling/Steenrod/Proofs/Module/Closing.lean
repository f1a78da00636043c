import Steenrod.Proofs.Milnor.Words
import Steenrod.Proofs.Module.Stored
/-!
How a finite module is closed under the algebra. Main statements: extending the actions from one degree to another fills in what the
decompositions say and changes nothing else; the check goes through exactly if the relations between the generators hold there; and
since degrees are visited from the top down, what has been filled in and checked is not touched again.
-/
namespace Steenrod

namespace Result

variable {σ α γ : Type} {step : σ → α → Result σ} {I : σ → Prop} {l : List α}

/-- If every step goes through, establishes its own facts and keeps all others, then the loop goes through and establishes all. -/
theorem exists_foldlM {Q : γ → σ → Prop} {R : α → γ → Prop}
    (hstep : ∀ x ∈ l, ∀ s, I s → ∃ s', step s x = .ok s' ∧ I s' ∧ (∀ y, R x y → Q y s') ∧ ∀ y, Q y s → Q y s') {s : σ} (hs : I s) :
    ∃ s', l.foldlM step s = .ok s' ∧ I s' ∧ (∀ x ∈ l, ∀ y, R x y → Q y s') ∧ ∀ y, Q y s → Q y s' := by
  induction l generalizing s with
  | nil => exact ⟨s, rfl, hs, by simp, fun _ h => h⟩
  | cons x l ih =>
    obtain ⟨t, ht, hI, hnew, hold⟩ := hstep x (by simp) s hs
    obtain ⟨s', hs', hI', hnew', hold'⟩ := ih (fun y hy => hstep y (by simp [hy])) hI
    refine ⟨s', ?_, hI', fun z hz y hR => ?_, fun y hy => hold' y (hold y hy)⟩
    · rw [List.foldlM_cons, ht]
      exact hs'
    · rcases List.mem_cons.mp hz with rfl | hz
      · exact hold' y (hnew y hR)
      · exact hnew' z hz y hR

theorem forM_eq_ok {f : α → Result Unit} : l.forM f = .ok () ↔ ∀ x ∈ l, f x = .ok () := by
  induction l with
  | nil => exact ⟨fun _ => by simp, fun _ => rfl⟩
  | cons x l ih =>
    change (f x >>= fun _ => l.forM f) = .ok () ↔ _
    rw [Result.bind_eq_ok, List.forall_mem_cons, ← ih]
    exact ⟨fun ⟨_, h, h'⟩ => ⟨h, h'⟩, fun ⟨h, h'⟩ => ⟨_, h, h'⟩⟩

end Result

namespace Growing

open Milnor

variable {A : Algebra}

theorem onlyExtends_generators (d : ℤ) : OnlyExtends (generators d) := by
  rw [generators]
  split
  · exact onlyExtends_pure _
  · refine (onlyExtends_compute d).bind fun _ => onlyExtends_get.bind fun A => ?_
    dsimp only
    split
    · exact onlyExtends_pure _
    · split
      · exact onlyExtends_pure _
      · exact (onlyExtends_read _).bind fun a => onlyExtends_pure _

theorem onlyExtends_relations (d : ℤ) : OnlyExtends (relations d) := by
  rw [relations]
  refine onlyExtends_get.bind fun A => ?_
  dsimp only
  split
  · exact onlyExtends_pure _
  · exact (onlyExtends_compute d).bind fun _ => onlyExtends_read _

/-- The relations of a degree are listed. -/
theorem exists_run_relations (hp : A.prime.val < 1073741824) {d : ℤ} (hd : 0 ≤ d) (ht : d < trackedBelow) :
    ∃ rels A', (relations d).run A = (.ok rels, A') ∧ Follows A A' ∧ ∀ rel, rel ∈ rels ↔ IsRelation A.prime d rel := by
  obtain ⟨rels, A', hrun, hfollows, hrels⟩ := run_relations hp hd ht
  refine ⟨rels, A', hrun, hfollows, fun rel => ?_⟩
  have hadem : ∀ {x e y : ℕ}, 0 < x → A.prime.Bockstein e → A.prime.isOdd → step A.prime * (x + y) + e ≠ 2 := by
    intro x e y hx he hodd
    have hstep := four_le_step hodd
    have := Nat.mul_le_mul hstep (Nat.le_add_right_of_le hx : 1 ≤ x + y)
    omega
  rcases hrels with ⟨hodd, rfl, rfl⟩ | ⟨hnot, hrels⟩
  · rw [List.mem_singleton]
    constructor
    · rintro rfl
      exact .bockstein hodd
    · intro h
      generalize htwo : (2 : ℤ) = d at h
      cases h with
      | bockstein => rfl
      | @adem x e y hx he _ => exact absurd (by omega) (hadem (y := y) hx he hodd)
  · rw [hrels]
    constructor
    · rintro ⟨x, e, y, rfl, hx, he, hdegree, hlt⟩
      obtain rfl : d = (step A.prime * (x + y) + e : ℕ) := by omega
      exact .adem hx he hlt
    · intro h
      cases h with
      | bockstein hodd => exact absurd ⟨hodd, rfl⟩ hnot
      | @adem x e y hx he hlt => exact ⟨x, e, y, rfl, hx, he, (Int.toNat_natCast _).symm, hlt⟩

end Growing

namespace FiniteModule

open Vec Milnor Growing

variable {p : Prime} {M M' M'' : FiniteModule} {A A' : Algebra} {input output : ℤ}

theorem termAct_congr {X Y : Representation p} {terms : List Term} {d : ℤ}
    (hright : ∀ t ∈ terms, X.act t.right d = Y.act t.right d)
    (hleft : ∀ t ∈ terms, X.act t.left (d + t.right.degree) = Y.act t.left (d + t.right.degree)) :
    termAct X terms d = termAct Y terms d :=
  congrArg List.sum (List.map_congr_left fun t ht => by rw [hright t ht, hleft t ht])

/-- The actions from one degree to another, of whatever operations. -/
def Between (x : ℤ × ℤ) (a : Operation) (d : ℤ) : Prop := d = x.1 ∧ a.degree = x.2 - x.1

/-- A decomposition reads actions between closer degrees only. -/
theorem termAct_decomposition_of_changes (hp : p.val < 1073741824) (hlt : input < output) (ht : output - input < trackedBelow) {k : ℕ}
    (hk : k < dim p (output - input)) (hgen : ¬IsGenerator p ⟨output - input, k⟩) (h : ChangesOnly (Between (input, output)) M M') :
    termAct (M'.rep p) (decomposition p ⟨output - input, k⟩) input = termAct (M.rep p) (decomposition p ⟨output - input, k⟩) input := by
  have hd : 0 < output - input := by omega
  have hdecomposes := decomposes_decomposition hp (a := ⟨output - input, k⟩) ⟨hd.le, hk⟩ hd ht
  refine termAct_congr (fun t ht => h.act_eq fun hbetween => ?_) fun t ht => h.act_eq fun hbetween => ?_
  · have hdegree := (hdecomposes.liesIn t ht).degree_eq
    have := (hdecomposes.smaller hgen t ht).1
    have := hbetween.2
    simp only at *
    omega
  · have := (hdecomposes.smaller hgen t ht).2
    have := hbetween.1
    simp only at *
    omega

/-- The operations that are filled in from one degree to another. -/
def FilledIn (p : Prime) (input output : ℤ) (a : Operation) (d : ℤ) : Prop :=
  d = input ∧ a.degree = output - input ∧ ¬IsGenerator p a

/-- What is to be stored for an operation that is not a generator. -/
def FilledAt (p : Prime) (M : FiniteModule) (input output : ℤ) (M' : FiniteModule) (k i : ℕ) : Prop :=
  M'.stored p ⟨output - input, k⟩ input i =
    termAct (M.rep p) (decomposition p ⟨output - input, k⟩) input (Pi.single i 1)

/-- The table is complete, and only actions from one degree to another differ from what they were. -/
structure Extending (p : Prime) (M : FiniteModule) (input output : ℤ) (M' : FiniteModule) : Prop where
  changes : ChangesOnly (FilledIn p input output) M M'
  stores : M'.Stores p

/-- One pass of the loop fills in one entry, from actions that the loop does not touch. -/
theorem exists_fillIn (hp : A.prime.val < 1073741824) (hlt : input < output) (ht : output - input < trackedBelow)
    (hA : output - input < A.computed) {k i : ℕ} (hk : k < dim A.prime (output - input))
    (hgen : ¬IsGenerator A.prime ⟨output - input, k⟩) (hi : i < M.dimension input) (hout : 0 < M.dimension output)
    (h : Extending A.prime M input output M') :
    ∃ M'', (do
      let terms ← A.decompose ⟨output - input, k⟩
      let v ← M'.actByTerms A terms input i (Vec.zero (M'.dimension output))
      (Except.ok (M'.setAction ⟨output - input, k⟩ input i v) : Result FiniteModule)) = .ok M'' ∧
      Extending A.prime M input output M'' ∧ FilledAt A.prime M input output M'' k i ∧
      ∀ l j, FilledAt A.prime M input output M' l j → FilledAt A.prime M input output M'' l j := by
  obtain ⟨hchanges, hstores⟩ := h
  have hd : 0 < output - input := by omega
  have htarget : input + (output - input) = output := by omega
  have hbasis : Operation.IsBasis A.prime ⟨output - input, k⟩ := ⟨hd.le, hk⟩
  have hdecomposes := decomposes_decomposition hp hbasis hd ht
  have hi' : i < M'.dimension input := by rwa [hchanges.dimension_eq]
  have hout' : 0 < M'.dimension (input + (output - input)) := by rwa [htarget, hchanges.dimension_eq]
  obtain ⟨v, hv, hvp, hvc⟩ := actByTerms_eq (hstores.storedBelow _) hA hi' hdecomposes.liesIn
    (u := Vec.zero (M'.dimension output)) (by rw [htarget]; exact Proper.zero)
  have hbetween := hchanges.mono (T := Between (input, output)) fun a d hfilled => ⟨hfilled.1, hfilled.2.1⟩
  have hsame := termAct_decomposition_of_changes hp hlt ht hk hgen hbetween
  have hnew : FilledAt A.prime M input output (M'.setAction ⟨output - input, k⟩ input i v) k i := by
    rw [FilledAt, stored_setAction hstores hbasis hd hi' hout', hvc, coords_zero, zero_add, hsame]
  refine ⟨M'.setAction ⟨output - input, k⟩ input i v, ?_, ⟨?_, hstores.setAction hvp⟩, hnew, fun l j hold => ?_⟩
  · rw [Algebra.decompose_eq hp hbasis hd ht hA, Result.ok_bind, hv, Result.ok_bind]
  · exact hchanges.trans (ChangesOnly.setAction ⟨rfl, rfl, hgen⟩ M' i v)
  · by_cases hentry : l = k ∧ j = i
    · rw [hentry.1, hentry.2]
      exact hnew
    · have hkept : (M'.setAction ⟨output - input, k⟩ input i v).action? ⟨output - input, l⟩ input j =
          M'.action? ⟨output - input, l⟩ input j := by
        rw [action?_setAction, if_neg]
        rintro ⟨hop, _, hindex⟩
        exact hentry ⟨(Operation.mk.inj hop).2, hindex⟩
      simp only [FilledAt, stored, dimension_setAction] at hold ⊢
      rwa [hkept]

/-- Extending the actions fills in what the decompositions say. -/
theorem run_extendActions (hp : A.prime.val < 1073741824) (hM : M.Stores A.prime) (hlt : input < output)
    (ht : output - input < trackedBelow) :
    ∃ M' A', (M.extendActions input output).run A = (.ok M', A') ∧ Extending A.prime M input output M' ∧
      ∀ k i, k < dim A.prime (output - input) → ¬IsGenerator A.prime ⟨output - input, k⟩ → i < M.dimension input →
        0 < M.dimension output → FilledAt A.prime M input output M' k i := by
  rw [extendActions]
  simp only
  split
  · next hzero =>
    refine ⟨M, A, rfl, ⟨ChangesOnly.refl _ M, hM⟩, fun k i _ _ hi hout => ?_⟩
    rcases hzero with hzero | hzero <;> omega
  · next hzero =>
    rw [not_or] at hzero
    obtain ⟨ks, hrun, hks⟩ := run_generators hp (d := output - input) (by omega) ht
    have hprime := A.prime_extend (output - input)
    have hcomputed : output - input < (A.extend (output - input)).computed := by
      rw [A.computed_extend]
      split <;> omega
    rw [run_bind, hrun]
    simp only [run_read]
    rw [Algebra.dimension_of_lt hcomputed, Result.ok_bind, hprime]
    generalize A.extend (output - input) = B at hprime hcomputed
    rw [← hprime] at hp hM hks ⊢
    have hmem : ∀ k, k ∈ (List.range (dim B.prime (output - input))).filter (!ks.contains ·) ↔
        k < dim B.prime (output - input) ∧ ¬IsGenerator B.prime ⟨output - input, k⟩ := by
      intro k
      rw [← hks]
      simp
    obtain ⟨M', hM', hextending, hall, _⟩ := Result.exists_foldlM (s := M) (l := List.range (M.dimension input))
      (I := Extending B.prime M input output) (Q := fun (y : ℕ × ℕ) s => FilledAt B.prime M input output s y.2 y.1)
      (R := fun i y => y.1 = i ∧ y.2 ∈ (List.range (dim B.prime (output - input))).filter (!ks.contains ·))
      (fun i hi s hs => by
        obtain ⟨s', hs', hI, hnew, hold⟩ := Result.exists_foldlM
          (Q := fun (y : ℕ × ℕ) s => FilledAt B.prime M input output s y.2 y.1) (R := fun k y => y = (i, k))
          (fun k hk s hs => by
            obtain ⟨hk, hgen⟩ := (hmem k).mp hk
            obtain ⟨s', hs', hI, hnew, hold⟩ := exists_fillIn hp hlt ht hcomputed hk hgen (List.mem_range.mp hi) (by omega) hs
            exact ⟨s', hs', hI, fun y hy => hy ▸ hnew, fun y => hold y.2 y.1⟩) hs
        exact ⟨s', hs', hI, fun y hy => hnew y.2 hy.2 y (Prod.ext hy.1 rfl), hold⟩) ⟨ChangesOnly.refl _ M, hM⟩
    exact ⟨M', B, congrArg (·, B) hM', hextending,
      fun k i hk hgen hi _ => hall i (List.mem_range.mpr hi) (i, k) ⟨rfl, (hmem k).mpr ⟨hk, hgen⟩⟩⟩

theorem onlyExtends_extendActions (M : FiniteModule) (input output : ℤ) : OnlyExtends (M.extendActions input output) := by
  rw [extendActions]
  simp only
  split
  · exact onlyExtends_pure _
  · exact (onlyExtends_generators _).bind fun _ => onlyExtends_read _

/-- However large the degrees are, only actions from the one to the other are touched. -/
theorem of_run_extendActions (hp : A.prime = p) (hM : M.Stores p) (h : (M.extendActions input output).run A = (.ok M', A')) :
    ChangesOnly (fun a d => d = input ∧ a.degree = output - input) M M' ∧ M'.Stores p := by
  have htarget : input + (output - input) = output := by omega
  rw [extendActions] at h
  simp only at h
  split at h
  · obtain rfl := Except.ok.inj (Prod.mk.inj h).1
    exact ⟨ChangesOnly.refl _ M, hM⟩
  · obtain ⟨ks, B, hks, h⟩ := run_bind_eq_ok.mp h
    have hB : B.prime = p := by
      have hfollows := (onlyExtends_generators (output - input)).follows hks
      exact hfollows.prime_eq.symm.trans hp
    obtain ⟨h, _⟩ := run_read_eq_ok.mp h
    obtain ⟨count, _, h⟩ := Result.bind_eq_ok.mp h
    refine Result.foldlM_invariant (I := fun s => ChangesOnly (fun a d => d = input ∧ a.degree = output - input) M s ∧ s.Stores p)
      (fun i _ s s' hs h => ?_) ⟨ChangesOnly.refl _ M, hM⟩ h
    refine Result.foldlM_invariant (I := fun s => ChangesOnly (fun a d => d = input ∧ a.degree = output - input) M s ∧ s.Stores p)
      (fun k _ s s' hs h => ?_) hs h
    obtain ⟨terms, _, h⟩ := Result.bind_eq_ok.mp h
    obtain ⟨v, hv, h⟩ := Result.bind_eq_ok.mp h
    obtain rfl := Except.ok.inj h
    refine ⟨hs.1.trans (ChangesOnly.setAction ⟨rfl, rfl⟩ s i v), hs.2.setAction ?_⟩
    simp only
    rw [htarget]
    exact actByTerms_proper Proper.zero hB hv

/-- The relations between the generators hold on the basis elements of a degree, as far as they go to another. -/
def RelationsHold (p : Prime) (M : FiniteModule) (input output : ℤ) : Prop :=
  ∀ rel, IsRelation p (output - input) rel → ∀ i < M.dimension input, termAct (M.rep p) rel input (Pi.single i 1) = 0

theorem onlyExtends_checkRelations (M : FiniteModule) (input output : ℤ) : OnlyExtends (M.checkRelations input output) :=
  (onlyExtends_read _).bind fun _ => (onlyExtends_relations _).bind fun _ => onlyExtends_read _

/-- The check goes through exactly if the relations hold. -/
theorem run_checkRelations_iff (hp : A.prime.val < 1073741824) (hM : M.Stores A.prime) (hlt : input < output)
    (ht : output - input < trackedBelow) (hA : output - input < A.computed) :
    (∃ A', (M.checkRelations input output).run A = (.ok (), A')) ↔ RelationsHold A.prime M input output := by
  have htarget : input + (output - input) = output := by omega
  obtain ⟨rels, B, hrun, hfollows, hrels⟩ := exists_run_relations hp (d := output - input) (by omega) ht
  have hcomputed : output - input < B.computed := by
    have := hfollows.computed_le
    omega
  have hstep : ∀ i < M.dimension input, ∀ rel, IsRelation A.prime (output - input) rel →
      ((do
        let v ← M.actByTerms B rel input i (Vec.zero (M.dimension output))
        if v.isZero then .ok ()
        else do
          let terms ← rel.mapM (termText B)
          let value ← M.elementText B output v
          let name ← M.nameOf input i
          refuse (.brokenRelation ("  +  ".intercalate terms) s!"{value} on {name}") : Result Unit) = .ok () ↔
        termAct (M.rep A.prime) rel input (Pi.single i 1) = 0) := by
    intro i hi rel hrel
    have hliesIn := hrel.liesIn hp
    rw [hfollows.prime_eq] at hM hliesIn ⊢
    obtain ⟨v, hv, hvp, hvc⟩ := actByTerms_eq (hM.storedBelow _) hcomputed hi hliesIn (u := Vec.zero (M.dimension output))
      (by rw [htarget]; exact Proper.zero)
    rw [coords_zero, zero_add] at hvc
    rw [hv, Result.ok_bind, ← hvc, ← isZero_iff hvp.reduced]
    split
    · next hzero => exact ⟨fun _ => hzero, fun _ => rfl⟩
    · next hzero =>
      refine ⟨fun h => ?_, fun h => absurd h hzero⟩
      obtain ⟨_, _, h⟩ := Result.bind_eq_ok.mp h
      obtain ⟨_, _, h⟩ := Result.bind_eq_ok.mp h
      obtain ⟨_, _, h⟩ := Result.bind_eq_ok.mp h
      cases h
  have hcheck : (M.checkRelations input output).run A = ((List.range (M.dimension input)).forM fun i => rels.forM fun rel => do
      let v ← M.actByTerms B rel input i (Vec.zero (M.dimension output))
      if v.isZero then .ok ()
      else do
        let terms ← rel.mapM (termText B)
        let value ← M.elementText B output v
        let name ← M.nameOf input i
        refuse (.brokenRelation ("  +  ".intercalate terms) s!"{value} on {name}"), B) := by
    rw [checkRelations, run_bind, run_read, decide_eq_true hlt]
    simp only [require_true]
    rw [run_bind, hrun]
    exact run_read _ B
  rw [hcheck]
  constructor
  · rintro ⟨A', h⟩ rel hrel i hi
    have hi' := Result.forM_eq_ok.mp (Prod.mk.inj h).1 i (List.mem_range.mpr hi)
    exact (hstep i hi rel hrel).mp (Result.forM_eq_ok.mp hi' rel ((hrels rel).mpr hrel))
  · intro h
    refine ⟨B, congrArg (·, B) (Result.forM_eq_ok.mpr fun i hi => Result.forM_eq_ok.mpr fun rel hrel => ?_)⟩
    have hrel := (hrels rel).mp hrel
    exact (hstep i (List.mem_range.mp hi) rel hrel).mpr (h rel hrel i (List.mem_range.mp hi))

/-- The order in which degrees are visited: inputs from the top down, and outputs from the bottom up. -/
def Before (x y : ℤ × ℤ) : Prop := y.1 < x.1 ∨ y.1 = x.1 ∧ x.2 < y.2

theorem mem_closingOrder {x : ℤ × ℤ} : x ∈ M.closingOrder ↔ M.minDegree ≤ x.1 ∧ x.1 < x.2 ∧ x.2 ≤ M.maxDegree := by
  obtain ⟨i, o⟩ := x
  simp only [closingOrder, List.mem_flatMap, List.mem_reverse, List.mem_map, GradedModule.mem_degreesBetween, Prod.mk.injEq]
  constructor
  · rintro ⟨_, ⟨hlow, _⟩, _, ⟨hlt, hhigh⟩, rfl, rfl⟩
    exact ⟨hlow, by omega, hhigh⟩
  · rintro ⟨hlow, hlt, hhigh⟩
    exact ⟨i, ⟨hlow, by omega⟩, o, ⟨by omega, hhigh⟩, rfl, rfl⟩

theorem closingOrder_congr (h : M'.dims = M.dims) : M'.closingOrder = M.closingOrder := by
  rw [closingOrder, closingOrder, minDegree, minDegree, maxDegree, maxDegree, h]

theorem pairwise_degreesBetween (low high : ℤ) : (GradedModule.degreesBetween low high).Pairwise (· < ·) := by
  refine List.Pairwise.map _ (fun a b h => ?_) List.pairwise_lt_range
  omega

theorem pairwise_closingOrder (M : FiniteModule) : M.closingOrder.Pairwise Before := by
  refine List.pairwise_flatMap.mpr ⟨fun i _ => ?_, ?_⟩
  · exact List.Pairwise.map _ (fun a b h => .inr ⟨rfl, h⟩) (pairwise_degreesBetween _ _)
  · refine List.pairwise_reverse.mpr ((pairwise_degreesBetween _ _).imp fun h x hx y hy => ?_)
    obtain ⟨_, _, rfl⟩ := List.mem_map.mp hx
    obtain ⟨_, _, rfl⟩ := List.mem_map.mp hy
    exact .inl h

/-- What closing establishes from one degree to another. -/
structure ClosedAt (p : Prime) (M : FiniteModule) (x : ℤ × ℤ) : Prop where
  filled : ∀ k i, k < dim p (x.2 - x.1) → ¬IsGenerator p ⟨x.2 - x.1, k⟩ → i < M.dimension x.1 → 0 < M.dimension x.2 →
    FilledAt p M x.1 x.2 M k i
  relations : RelationsHold p M x.1 x.2

/-- A sum of products reads only what is visited before, or the actions between the same degrees. -/
theorem termAct_of_changes {x y : ℤ × ℤ} (hbefore : Before x y) (h : ChangesOnly (Between y) M M') {terms : List Term}
    (hterms : ∀ t ∈ terms, t.LiesIn p (x.2 - x.1)) : termAct (M'.rep p) terms x.1 = termAct (M.rep p) terms x.1 := by
  have hdegrees : ∀ t ∈ terms, 0 ≤ t.left.degree ∧ 0 ≤ t.right.degree ∧ t.left.degree + t.right.degree = x.2 - x.1 := fun t ht =>
    ⟨(hterms t ht).left.nonneg, (hterms t ht).right.nonneg, (hterms t ht).degree_eq⟩
  refine termAct_congr (fun t ht => h.act_eq ?_) fun t ht => h.act_eq ?_
  · rintro ⟨hinput, hdegree⟩
    obtain ⟨hl, hr, hsum⟩ := hdegrees t ht
    rcases hbefore with hlt | ⟨heq, hlt⟩ <;> omega
  · rintro ⟨hinput, hdegree⟩
    obtain ⟨hl, hr, hsum⟩ := hdegrees t ht
    rcases hbefore with hlt | ⟨heq, hlt⟩ <;> omega

/-- What has been established is not undone. -/
theorem ClosedAt.of_changes (hp : p.val < 1073741824) {x y : ℤ × ℤ} (h : ClosedAt p M x) (hlt : x.1 < x.2)
    (ht : x.2 - x.1 < trackedBelow) (hbefore : Before x y) (hchanges : ChangesOnly (Between y) M M') : ClosedAt p M' x where
  filled k i hk hgen hi hout := by
    have hdecomposes := decomposes_decomposition hp (a := ⟨x.2 - x.1, k⟩) ⟨by simp only; omega, hk⟩ (by simp only; omega) ht
    rw [hchanges.dimension_eq] at hi hout
    have hfilled := h.filled k i hk hgen hi hout
    rw [FilledAt, termAct_of_changes hbefore hchanges hdecomposes.liesIn, hchanges.stored_eq]
    · exact hfilled
    · rintro ⟨hinput, hdegree⟩
      simp only at hdegree
      rcases hbefore with hlt | ⟨heq, hlt⟩ <;> omega
  relations rel hrel i hi := by
    rw [hchanges.dimension_eq] at hi
    rw [termAct_of_changes hbefore hchanges (hrel.liesIn hp)]
    exact h.relations rel hrel i hi

/-- One step of closing a module. -/
def closeStep (M : FiniteModule) (x : ℤ × ℤ) : Growing FiniteModule := do
  let M ← M.extendActions x.1 x.2
  M.checkRelations x.1 x.2
  pure M

theorem onlyExtends_closeStep (M : FiniteModule) (x : ℤ × ℤ) : OnlyExtends (M.closeStep x) :=
  (onlyExtends_extendActions _ _ _).bind fun _ => (onlyExtends_checkRelations _ _ _).bind fun _ => onlyExtends_pure _

theorem of_run_closeStep (hp : p.val < 1073741824) {x : ℤ × ℤ} (hA : A.prime = p) (hM : M.Stores p) (hlt : x.1 < x.2)
    (hcomputed : x.2 - x.1 < A.computed) (h : (M.closeStep x).run A = (.ok M', A')) :
    ChangesOnly (Between x) M M' ∧ M'.Stores p ∧ (x.2 - x.1 < trackedBelow → ClosedAt p M' x) := by
  subst hA
  obtain ⟨M₁, B, hextend, h⟩ := run_bind_eq_ok.mp h
  obtain ⟨_, C, hcheck, h⟩ := run_bind_eq_ok.mp h
  obtain rfl := Except.ok.inj (Prod.mk.inj h).1
  obtain ⟨hchanges, hstores⟩ := of_run_extendActions rfl hM hextend
  refine ⟨hchanges, hstores, fun ht => ?_⟩
  have hfollows := (onlyExtends_extendActions M x.1 x.2).follows hextend
  obtain ⟨M₂, B₂, hrun, hextending, hfilled⟩ := run_extendActions hp hM hlt ht
  obtain ⟨hsame, _⟩ := Prod.mk.inj (hrun.symm.trans hextend)
  obtain rfl := Except.ok.inj hsame
  have hprime : B.prime = A.prime := hfollows.prime_eq.symm
  have hrelations := (run_checkRelations_iff (M := M₂) (by rwa [hprime]) (by rwa [hprime]) hlt ht
    (by have := hfollows.computed_le; omega)).mp ⟨C, hcheck⟩
  rw [hprime] at hrelations
  refine ⟨fun k i hk hgen hi hout => ?_, hrelations⟩
  rw [hextending.changes.dimension_eq] at hi hout
  rw [FilledAt, hfilled k i hk hgen hi hout, termAct_decomposition_of_changes hp hlt ht hk hgen hchanges]

/-- A module that could be closed is closed between any two of the degrees that were visited. -/
theorem of_run_closeSteps (hp : p.val < 1073741824) {l : List (ℤ × ℤ)} (hl : l.Pairwise Before) (hA : A.prime = p) (hM : M.Stores p)
    (hcomputed : ∀ x ∈ l, x.1 < x.2 ∧ x.2 - x.1 < A.computed) (h : (l.foldlM closeStep M).run A = (.ok M', A')) :
    M'.dims = M.dims ∧ M'.Stores p ∧ (∀ x ∈ l, x.2 - x.1 < trackedBelow → ClosedAt p M' x) ∧
      ∀ x : ℤ × ℤ, x.1 < x.2 → x.2 - x.1 < trackedBelow → (∀ y ∈ l, Before x y) → ClosedAt p M x → ClosedAt p M' x := by
  induction l generalizing M A with
  | nil =>
    obtain rfl := Except.ok.inj (Prod.mk.inj h).1
    exact ⟨rfl, hM, by simp, fun _ _ _ _ hx => hx⟩
  | cons y l ih =>
    rw [List.foldlM_cons] at h
    obtain ⟨M₁, B, hstep, h⟩ := run_bind_eq_ok.mp h
    obtain ⟨hbefore, hl⟩ := List.pairwise_cons.mp hl
    obtain ⟨hlt, hy⟩ := hcomputed y (by simp)
    obtain ⟨hchanges, hstores, hclosed⟩ := of_run_closeStep hp hA hM hlt hy hstep
    have hfollows := (onlyExtends_closeStep M y).follows hstep
    have hle : A.computed ≤ B.computed := hfollows.computed_le
    have hcomputed' : ∀ x ∈ l, x.1 < x.2 ∧ x.2 - x.1 < B.computed := fun x hx => by
      have := hcomputed x (by simp [hx])
      omega
    obtain ⟨hdims, hstores', hdone, hkept⟩ := ih hl (hfollows.prime_eq.symm.trans hA) hstores hcomputed' h
    refine ⟨hdims.trans hchanges.dims_eq, hstores', fun x hx ht => ?_, fun x hxlt ht hx hclosedx => ?_⟩
    · rcases List.mem_cons.mp hx with rfl | hx
      · exact hkept x hlt ht hbefore (hclosed ht)
      · exact hdone x hx ht
    · obtain ⟨hxy, hx⟩ := List.forall_mem_cons.mp hx
      exact hkept x hxlt ht hx (hclosedx.of_changes hp hxlt ht hxy hchanges)

theorem close_eq (M : FiniteModule) : M.close = M.closingOrder.foldlM closeStep M := rfl

theorem onlyExtends_close (M : FiniteModule) : OnlyExtends M.close := by
  rw [close_eq]
  exact onlyExtends_foldlM onlyExtends_closeStep _ M

/-- What is kept when actions are extended is kept when a module is closed: the checks change nothing. -/
theorem close_invariant {I : FiniteModule → Prop} (hA : A.prime = p) (hM : I M) (h : M.close.run A = (.ok M', A'))
    (hstep : ∀ {x : ℤ × ℤ} {N N' : FiniteModule} {B B' : Algebra}, x.1 < x.2 → B.prime = p → I N →
      (N.extendActions x.1 x.2).run B = (.ok N', B') → I N') : I M' := by
  have hsteps : ∀ (l : List (ℤ × ℤ)) (M : FiniteModule) (A : Algebra), (∀ x ∈ l, x.1 < x.2) → A.prime = p → I M →
      (l.foldlM closeStep M).run A = (.ok M', A') → I M' := by
    intro l
    induction l with
    | nil =>
      intro M A _ _ hM h
      obtain rfl := Except.ok.inj (Prod.mk.inj h).1
      exact hM
    | cons x l ih =>
      intro M A hl hA hM h
      rw [List.foldlM_cons] at h
      obtain ⟨M₁, B, hfirst, hrest⟩ := run_bind_eq_ok.mp h
      have hfollows := (onlyExtends_closeStep M x).follows hfirst
      obtain ⟨N, C, hextend, hfirst⟩ := run_bind_eq_ok.mp hfirst
      obtain ⟨_, D, _, hfirst⟩ := run_bind_eq_ok.mp hfirst
      obtain rfl := Except.ok.inj (Prod.mk.inj hfirst).1
      obtain ⟨hlt, hl⟩ := List.forall_mem_cons.mp hl
      exact ih _ _ hl (hfollows.prime_eq.symm.trans hA) (hstep hlt hA hM hextend) hrest
  rw [close_eq] at h
  exact hsteps _ _ _ (fun x hx => (mem_closingOrder.mp hx).2.1) hA hM h

end FiniteModule
end Steenrod
