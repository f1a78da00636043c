import Steenrod.Proofs.Milnor.WordDegree
import Steenrod.Proofs.Session.Keeping
/-!
Algebras with a cap.
-/
namespace Steenrod

open Milnor

variable {p : Prime} {P : Presentation} {m b : ℤ}

/-- The algebra at `p` with cap `m`, computed in no degree above `b`. -/
structure Algebra.Within (p : Prime) (m b : ℤ) (A : Algebra) : Prop where
  prime_eq : A.prime = p
  cap_eq : A.cap = some m
  le : ∀ d : ℕ, d < A.computed → (d : ℤ) ≤ b

theorem Algebra.Within.extend {A : Algebra} (h : A.Within p m b) {d : ℤ} (hd : d ≤ b) : (A.extend d).Within p m b where
  prime_eq := (A.prime_extend d).trans h.prime_eq
  cap_eq := (A.cap_extend d).trans h.cap_eq
  le := by
    intro n hn
    rw [A.computed_extend] at hn
    split at hn
    · exact h.le n hn
    · omega

namespace Growing

variable {α : Type}

theorem keeps_read {I : Algebra → Prop} (f : Algebra → Result α) :
    Keeps I (read f) fun a => ∃ A, I A ∧ f A = .ok a := by
  refine Keeps.get.bind fun A hA => ?_
  split
  · next a h => exact Keeps.pure ⟨A, hA, h⟩
  · exact Keeps.throw _

theorem keeps_compute {d : ℤ} (hd : d ≤ b) : Keeps (Algebra.Within p m b) (compute d) fun _ => True := by
  refine Keeps.get.bind fun A hA => ?_
  split
  · exact Keeps.pure trivial
  · split
    · exact (Keeps.throw (Q := fun _ => False) _).bind fun _ h => h.elim
    · exact Keeps.set (hA.extend hd)

/-- Only what the cap admits is computed. -/
theorem keeps_ensure (hb : m ≤ b) (d : ℤ) : Keeps (Algebra.Within p m b) (ensure d) fun _ => d ≤ m := by
  refine Keeps.get.bind fun A hA => ?_
  rw [hA.cap_eq]
  simp only
  split
  · exact Keeps.throw _
  · next h => exact (keeps_compute ((not_lt.mp h).trans hb)).mono fun _ _ => not_lt.mp h

/-- The degree of which looking up a name computes the basis, if it computes any. -/
def degreeNamed? (p : Prime) (text : String) : Option ℤ :=
  match Product.parse text with
  | .error _ => none
  | .ok product =>
    if product.usesSquares ∧ p.isOdd then none
    else (elementOf? p 0 product.factors).bind fun x =>
      if p.xiDegrees.length < x.exponents.length then none
      else (exteriorDegree? p x.exterior).map (· + powerDegree p x.exponents)

theorem keeps_elementNamed {text : String} (hb : ∀ d ∈ degreeNamed? p text, d ≤ b) :
    Keeps (Algebra.Within p m b) (elementNamed text) fun a? => ∀ a ∈ a?, a.degree ≤ b := by
  refine Keeps.get.bind fun A hA => ?_
  rw [hA.prime_eq]
  unfold degreeNamed? at hb
  split
  · exact Keeps.pure (by simp)
  · next product hparse =>
    rw [hparse] at hb
    simp only at hb ⊢
    split
    · exact Keeps.pure (by simp)
    · next hsquares =>
      rw [if_neg hsquares] at hb
      split
      · exact Keeps.pure (by simp)
      · next x hx =>
        rw [hx, Option.bind_some] at hb
        split
        · exact Keeps.pure (by simp)
        · next hlength =>
          rw [if_neg hlength] at hb
          split
          · exact Keeps.throw _
          · next d hword =>
            have hd := hb d (degree_of_wordDegree? hword).1
            refine (keeps_compute hd).bind fun _ _ => Keeps.get.bind fun A _ => Keeps.pure fun a ha => ?_
            obtain ⟨i, -, rfl⟩ := Option.map_eq_some_iff.mp ha
            exact hd

theorem keeps_generators {d : ℤ} (hd : d ≤ b) : Keeps (Algebra.Within p m b) (generators d) fun _ => True := by
  unfold generators
  split
  · exact Keeps.pure trivial
  · refine (keeps_compute hd).bind fun _ _ => Keeps.get.bind fun A _ => ?_
    simp only
    split
    · exact Keeps.pure trivial
    · split
      · exact Keeps.pure trivial
      · exact (keeps_read _).bind fun _ _ => Keeps.pure trivial

theorem keeps_relations {d : ℤ} (hd : d ≤ b) : Keeps (Algebra.Within p m b) (relations d) fun _ => True := by
  refine Keeps.get.bind fun A _ => ?_
  simp only
  split
  · exact Keeps.pure trivial
  · exact (keeps_compute hd).bind fun _ _ => (keeps_read _).mono fun _ _ => trivial

end Growing

namespace FiniteModule

open Growing Presentation

theorem keeps_zeroAction (name : String) {dims : Graded ℕ} (hb : dims.nextDegree - dims.minDegree ≤ b) :
    Keeps (Algebra.Within p m b) (zeroAction name dims) fun M => M.dims = dims :=
  (keeps_compute hb).bind fun _ _ => (keeps_read _).bind fun _ _ => Keeps.pure rfl

theorem keeps_extendActions (M : FiniteModule) {input output : ℤ} (hb : output - input ≤ b) :
    Keeps (Algebra.Within p m b) (M.extendActions input output) fun _ => True := by
  unfold extendActions
  simp only
  split
  · exact Keeps.pure trivial
  · exact (keeps_generators hb).bind fun _ _ => (keeps_read _).mono fun _ _ => trivial

theorem keeps_checkRelations (M : FiniteModule) {input output : ℤ} (hb : output - input ≤ b) :
    Keeps (Algebra.Within p m b) (M.checkRelations input output) fun _ => True :=
  (keeps_read _).bind fun _ _ => (keeps_relations hb).bind fun _ _ => (keeps_read _).mono fun _ _ => trivial

/-- The closing of a module stays within its span. -/
theorem keeps_close (M : FiniteModule) (hb : M.maxDegree - M.minDegree ≤ b) :
    Keeps (Algebra.Within p m b) M.close fun _ => True := by
  refine Keeps.foldlM (fun N x hx _ => ?_) trivial
  have hspan : x.2 - x.1 ≤ b := by
    obtain ⟨hlow, -, hhigh⟩ := mem_closingOrder.mp hx
    omega
  exact (keeps_extendActions N hspan).bind fun N' _ =>
    (keeps_checkRelations N' hspan).bind fun _ _ => Keeps.pure trivial

theorem dims_of_foldlM {ι : Type} {step : FiniteModule → ι → Result FiniteModule} {l : List ι} {M N : FiniteModule}
    (hstep : ∀ K i K', step K i = .ok K' → K'.dims = K.dims) (h : l.foldlM step M = .ok N) : N.dims = M.dims :=
  Result.foldlM_invariant (I := fun K : FiniteModule => K.dims = M.dims) (fun i _ K K' hK hi => (hstep K i K' hi).trans hK) rfl h

/-- A cut stays within the degrees that it keeps and the one after them. -/
theorem keeps_truncate (N : GradedModule) {top : ℤ} (hb : max 0 (top + 1 - N.minDegree) ≤ b) :
    Keeps (Algebra.Within p m b) (truncate N top) fun M => M.maxDegree - M.minDegree ≤ max 0 (top - N.minDegree) := by
  refine (keeps_read _).bind fun dims ⟨A, hA, hdims⟩ => ?_
  have hlength : dims.length = (top + 1 - N.minDegree).toNat := by
    rw [← (Result.of_mapM_eq_ok hdims).length_eq, GradedModule.length_degreesBetween]
  have hnext : (Graded.ofList N.minDegree dims).nextDegree = N.minDegree + dims.length := rfl
  have hmin : (Graded.ofList N.minDegree dims).minDegree = N.minDegree := rfl
  refine (keeps_zeroAction N.name (by omega)).bind fun M hM => (keeps_read _).bind fun names _ => (keeps_read _).mono fun M' ⟨B, hB, h⟩ => ?_
  have hset : ∀ {K K' : FiniteModule} {a : Operation} {input : ℤ} {i : ℕ} {x : Result Vec} {f : Vec → Vec},
      (x >>= fun v => .ok (K.setAction a input i (f v))) = .ok K' → K'.dims = K.dims := by
    intro K K' a input i x f h
    obtain ⟨v, -, h⟩ := Result.bind_eq_ok.mp h
    rw [← Except.ok.inj h]
    rfl
  have hkept : M'.dims = M.dims := by
    refine (dims_of_foldlM (fun K x K' hx => ?_) h).trans rfl
    simp only at hx
    split at hx
    · rw [← Except.ok.inj hx]
    · split at hx
      · exact dims_of_foldlM (fun _ _ _ hi => dims_of_foldlM (fun _ _ _ hk => hset hk) hi) hx
      · obtain ⟨count, -, hx⟩ := Result.bind_eq_ok.mp hx
        exact dims_of_foldlM (fun _ _ _ hi => dims_of_foldlM (fun _ _ _ hk => hset hk) hi) hx
  have hmax : M'.dims.maxDegree = M'.dims.nextDegree - 1 := rfl
  rw [maxDegree, minDegree, hmax, hkept, hM]
  omega

end FiniteModule

namespace Presentation

open Growing

theorem keeps_addAction (P : Presentation) {text : String}
    (hb : ∀ r, Relation.parse text = .ok r → ∀ d ∈ degreeNamed? p r.operation, d ≤ b) (hP : ∀ a ∈ P.actions, a.operation.degree ≤ b) :
    Keeps (Algebra.Within p m b) (P.addAction text) fun P' => ∀ a ∈ P'.actions, a.operation.degree ≤ b := by
  unfold addAction
  split
  · exact Keeps.throw _
  · next r hr =>
    refine (keeps_elementNamed (hb r hr)).bind fun a? ha => ?_
    split
    · exact Keeps.get.bind fun _ _ => Keeps.throw _
    · next a =>
      refine Keeps.pure fun x hx => ?_
      rcases List.mem_append.mp hx with hx | hx
      · exact hP x hx
      · rw [List.mem_singleton.mp hx]
        exact ha a rfl

/-- What is declared is an operation of one of the actions. -/
theorem operation_of_declares {actions : List Action} {declared : List Declared} (h : actions.foldlM (P.declare p) [] = .ok declared) :
    ∀ x ∈ declared, ∃ a ∈ actions, a.operation = x.operation := by
  refine Result.foldlM_invariant (I := fun l : List Declared => ∀ x ∈ l, ∃ a ∈ actions, a.operation = x.operation)
    (fun a ha l l' hl h => ?_) (by simp) h
  obtain ⟨⟨input, output⟩, -, h⟩ := Result.bind_eq_ok.mp h
  simp only at h
  split at h
  · rw [← Except.ok.inj h]
    exact hl
  · split at h
    · split at h
      · rw [← Except.ok.inj h]
        exact hl
      · cases h
    · split at h
      · split at h
        · rw [← Except.ok.inj h]
          exact hl
        · cases h
      · rw [← Except.ok.inj h]
        exact List.forall_mem_append.mpr ⟨hl, List.forall_mem_singleton.mpr ⟨a, ha, rfl⟩⟩

/-- A presentation is accepted only where its span is within the cap; building it goes at most one degree beyond. -/
theorem dims_of_foldl {α : Type} {step : FiniteModule → α → FiniteModule} (h : ∀ M a, (step M a).dims = M.dims) {l : List α}
    {M : FiniteModule} : (l.foldl step M).dims = M.dims :=
  List.foldlRecOn (motive := fun N : FiniteModule => N.dims = M.dims) l step rfl fun N hN a _ => (h N a).trans hN

theorem keeps_build (hm : m + 1 ≤ b) (hP : ∀ a ∈ P.actions, a.operation.degree ≤ b) :
    Keeps (Algebra.Within p m b) P.build fun M => M.maxDegree - M.minDegree ≤ m := by
  refine Keeps.of_run (Q := fun _ => True) ?_ fun A M A' hA hrun => ?_
  case refine_2 =>
    obtain ⟨_, _, hsteps⟩ := steps_of_run_build hrun
    obtain ⟨_, hensure⟩ := hsteps.ensures
    obtain ⟨hmin, hmax⟩ := degrees_of_run_build hrun
    rw [hmin, hmax]
    exact le_cap_of_run_ensure hensure m hA.cap_eq
  refine Keeps.get.bind fun A hA => (keeps_read _).bind fun _ _ => (keeps_read _).bind fun declared ⟨_, _, hdeclared⟩ =>
    (keeps_ensure (by omega) _).bind fun _ hspan => ?_
  have hdims : P.dims.nextDegree - P.dims.minDegree ≤ b := by
    rw [nextDegree_dims]
    have hmin : P.dims.minDegree = P.minDegree := rfl
    omega
  have hunderlying : Keeps (Algebra.Within p m b) P.underlying fun M => M.dims = P.dims :=
    (FiniteModule.keeps_zeroAction P.name hdims).bind fun M hM => Keeps.pure hM
  refine hunderlying.bind fun M hM => ?_
  have hsort : Keeps (Algebra.Within p m b) (sort declared) fun _ => True := by
    refine Keeps.mapM fun x hx => ?_
    obtain ⟨a, ha, hop⟩ := operation_of_declares hdeclared x hx
    exact (keeps_generators (hop ▸ hP a ha)).bind fun _ _ => Keeps.pure trivial
  refine hsort.bind fun sorted _ => ?_
  refine (FiniteModule.keeps_close _ ?_).bind fun M' _ => (keeps_read _).bind fun _ _ => Keeps.pure trivial
  have hmax : P.dims.maxDegree = P.dims.nextDegree - 1 := rfl
  rw [FiniteModule.maxDegree, FiniteModule.minDegree, dims_of_foldl, hM]
  · omega
  · exact fun _ _ => rfl

theorem actions_of_addGenerator {P' : Presentation} {d : ℤ} {name : String} (h : P.addGenerator d name = .ok P') :
    P'.actions = P.actions := by
  unfold addGenerator at h
  split at h
  · cases h
  · split at h
    · cases h
    · rw [← Except.ok.inj h]

/-- The degree of the operation that a relation names, if there is one. -/
def degreeIn? (p : Prime) (text : String) : Option ℤ :=
  match Relation.parse text with
  | .error _ => none
  | .ok relation => degreeNamed? p relation.operation

theorem keeps_addActions {texts : List String} (hb : ∀ text ∈ texts, ∀ d ∈ degreeIn? p text, d ≤ b)
    (hP : ∀ a ∈ P.actions, a.operation.degree ≤ b) :
    Keeps (Algebra.Within p m b) (texts.foldlM addAction P) fun P' => ∀ a ∈ P'.actions, a.operation.degree ≤ b := by
  refine Keeps.foldlM (fun P text htext hP => P.keeps_addAction (fun r hr => ?_) hP) hP
  have hdegree := hb text htext
  rwa [degreeIn?, hr] at hdegree

/-- Generators declared by steps that leave the relations alone, then relations, and the module that they present. -/
theorem keeps_presented {α : Type} (hm : m + 1 ≤ b) {step : Presentation → α → Growing Presentation}
    (hstep : ∀ P g, Keeps (Algebra.Within p m b) (step P g) fun P' => P'.actions = P.actions) (generators : List α) (name : String)
    {texts : List String} (hb : ∀ text ∈ texts, ∀ d ∈ degreeIn? p text, d ≤ b) :
    Keeps (Algebra.Within p m b) (do
      let P ← generators.foldlM step (empty name)
      let P ← texts.foldlM addAction P
      P.build) fun M => M.maxDegree - M.minDegree ≤ m := by
  have hgenerators : Keeps (Algebra.Within p m b) (generators.foldlM step (empty name)) fun P => P.actions = [] :=
    Keeps.foldlM (fun P g _ hP => (hstep P g).mono fun P' hP' => hP'.trans hP) rfl
  refine hgenerators.bind fun P hP => (keeps_addActions hb ?_).bind fun P' hP' => keeps_build hm hP'
  rw [hP]
  simp

theorem keeps_addGenerator (P : Presentation) (d : ℤ) (name : String) :
    Keeps (Algebra.Within p m b) (Growing.read fun _ => P.addGenerator d name) fun P' => P'.actions = P.actions := by
  refine (keeps_read _).mono fun P' hread => ?_
  obtain ⟨_, _, hadd⟩ := hread
  exact actions_of_addGenerator hadd

theorem keeps_buildFrom (hm : m + 1 ≤ b) (name : String) (generators : List (String × ℤ)) {texts : List String}
    (hb : ∀ text ∈ texts, ∀ d ∈ degreeIn? p text, d ≤ b) :
    Keeps (Algebra.Within p m b) (buildFrom name generators texts) fun M => M.maxDegree - M.minDegree ≤ m :=
  keeps_presented hm (fun P _ => P.keeps_addGenerator _ _) generators name hb

/-- A generator whose degree may be missing. -/
theorem keeps_addGenerator? (P : Presentation) (e : Failure) (d? : Option ℤ) (name : String) :
    Keeps (Algebra.Within p m b) (match d? with
      | none => throw e
      | some d => Growing.read fun _ => P.addGenerator d name) fun P' => P'.actions = P.actions := by
  cases d? with
  | none => exact Keeps.throw _
  | some d => exact P.keeps_addGenerator d name

end Presentation

/-- Reading a document is building what it presents. -/
theorem FiniteModule.keeps_ofJson (hm : m + 1 ≤ b) {j : Json}
    (hb : ∀ document, ModuleDocument.ofJson? j = some document → ∀ text ∈ document.actions, ∀ d ∈ Presentation.degreeIn? p text, d ≤ b) :
    Keeps (Algebra.Within p m b) (FiniteModule.ofJson j) fun M => M.maxDegree - M.minDegree ≤ m := by
  unfold ofJson
  simp only
  split
  · exact Keeps.throw _
  · next document hdocument =>
    refine Keeps.get.bind fun A _ => ?_
    split
    · split
      · exact (Keeps.throw (Q := fun _ => False) _).bind fun _ h => h.elim
      · exact Presentation.keeps_presented hm (fun P _ => P.keeps_addGenerator? _ _ _) _ _ (hb document hdocument)
    · exact Presentation.keeps_presented hm (fun P _ => P.keeps_addGenerator? _ _ _) _ _ (hb document hdocument)

end Steenrod
