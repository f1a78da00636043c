import Steenrod.Proofs.Session.Alike
import Steenrod.Proofs.Session.Cap
import Steenrod.Proofs.Module.Sphere
/-!
Sessions over an algebra with a cap. Main statement: whatever is asked of the modules, homomorphisms, resolutions and lifts of a session,
the algebra is computed at most one degree beyond its cap, except for the operations that relations name.
-/
namespace Steenrod

variable {p : Prime} {m b : ℤ}

/-- The algebras respect the cap as far as `b`, and the finite modules span no more than the cap. -/
structure Workspace.Within (p : Prime) (m b : ℤ) (w : Workspace) : Prop where
  algebras : ∀ (place : ℕ) (A : Algebra), w.algebras[place]? = some A → A.Within p m b
  spans : ∀ (place : ℕ) (node : Node) (M : FiniteModule), w.modules.get? place = some node → node.shape = .finite M → M.maxDegree - M.minDegree ≤ m

namespace Workspace

variable {w w' : Workspace}

theorem Within.setAlgebra (h : w.Within p m b) (place : ℕ) {A : Algebra} (hA : A.Within p m b) :
    ({ w with algebras := w.algebras.setIfInBounds place A } : Workspace).Within p m b where
  algebras q B hB := by
    rw [Array.getElem?_setIfInBounds] at hB
    split at hB
    · split at hB
      · exact Option.some.inj hB ▸ hA
      · cases hB
    · exact h.algebras q B hB
  spans := h.spans

theorem Within.alike (h : w.Within p m b) (halike : Alike w w') (halgebras : w'.algebras = w.algebras) : w'.Within p m b where
  algebras := halgebras ▸ h.algebras
  spans place node M hnode hshape := by
    have hsame := halike.modules place
    rw [hnode] at hsame
    cases hget : w.modules.get? place with
    | none =>
      rw [hget] at hsame
      cases hsame
    | some node' =>
      rw [hget] at hsame
      obtain ⟨-, hsame⟩ := Option.rel_some_some.mp hsame
      refine h.spans place node' M hget ?_
      rw [hshape] at hsame
      generalize node'.shape = s at hsame ⊢
      cases s <;> simp_all [Shape.Alike]

/-- Nothing but what is computed differs from `w`. -/
structure Since (p : Prime) (m b : ℤ) (w w' : Workspace) : Prop where
  within : w'.Within p m b
  alike : Alike w w'

theorem Alike.setAlgebra (place : ℕ) (A : Algebra) : Alike w { w with algebras := w.algebras.setIfInBounds place A } where
  algebras := Array.size_setIfInBounds.symm
  resolutions := rfl
  modules := (Alike.refl w).modules

theorem Within.put (h : w.Within p m b) (name : String) {node : Node}
    (hspan : ∀ M, node.shape = .finite M → M.maxDegree - M.minDegree ≤ m) :
    ({ w with modules := w.modules.put name node } : Workspace).Within p m b where
  algebras := h.algebras
  spans place node' M hnode hshape := by
    change (w.modules.entries.push node)[place]? = _ at hnode
    rw [Array.getElem?_push] at hnode
    split at hnode
    · exact hspan M (Option.some.inj hnode ▸ hshape)
    · exact h.spans place node' M hnode hshape

end Workspace

namespace Session

variable {α : Type} {I : Workspace → Prop}

theorem keeps_ofResult (x : Result α) : Keeps I (ofResult x) fun a => x = .ok a := by
  cases x with
  | ok a => exact Keeps.pure rfl
  | error e => exact Keeps.throw _

theorem keeps_found (x : Option α) : Keeps I (found x) fun a => x = some a := by
  cases x with
  | some a => exact Keeps.pure rfl
  | none => exact Keeps.throw _

theorem keeps_read (f : Workspace → Result α) : Keeps I (read f) fun a => ∃ w, I w ∧ f w = .ok a :=
  Keeps.get.bind fun w hw => (keeps_ofResult (f w)).mono fun _ h => ⟨w, hw, h⟩

theorem keeps_update {f : Workspace → Result Workspace} (h : ∀ w w', I w → f w = .ok w' → I w') :
    Keeps I (update f) fun _ => True :=
  (keeps_read f).bind fun w' ⟨w, hw, hf⟩ => Keeps.set (h w w' hw hf)

theorem keeps_module (name : String) : Keeps I (module name) fun _ => True :=
  Keeps.get.bind fun _ _ => (keeps_found _).mono fun _ _ => trivial

theorem keeps_algebraPlace (place : ℕ) : Keeps I (algebraPlace place) fun _ => True :=
  (keeps_read _).bind fun _ _ => Keeps.pure trivial

theorem keeps_finiteModule (name : String) : Keeps I (finiteModule name) fun _ => True :=
  (keeps_module name).bind fun _ _ => Keeps.get.bind fun _ _ => (keeps_found _).bind fun _ _ => Keeps.pure trivial

theorem keeps_growing {x : Growing α} {Q : α → Prop} (place : ℕ) (hx : Keeps (Algebra.Within p m b) x Q)
    (hread : ∀ w A, I w → w.algebras[place]? = some A → A.Within p m b)
    (hset : ∀ w A, I w → A.Within p m b → I { w with algebras := w.algebras.setIfInBounds place A }) :
    Keeps I (growing place x) Q := by
  refine (keeps_read _).bind fun A ⟨w, hw, hA⟩ => ?_
  obtain ⟨hkept, hanswer⟩ := hx A (hread w A hw (Result.ofOption_eq_ok.mp hA))
  refine (Keeps.modify fun s hs => hset s _ hs hkept).bind fun _ _ => (keeps_ofResult _).mono fun a ha => hanswer a ha

/-- With everything else kept too. -/
theorem keeps_growing_within {x : Growing α} {Q : α → Prop} (place : ℕ) (hx : Keeps (Algebra.Within p m b) x Q) :
    Keeps (Workspace.Within p m b) (growing place x) Q :=
  keeps_growing place hx (fun _ A h hA => h.algebras place A hA) fun _ _ h hA => h.setAlgebra place hA

theorem keeps_compute (place : ℕ) (d : ℤ) : Keeps (Workspace.Within p m b) (update (·.compute place d)) fun _ => True :=
  keeps_update fun _ _ hw h => hw.alike (Workspace.alike_compute h).1 (Workspace.alike_compute h).2

theorem keeps_addModule (name : String) (algebra : ℕ) {shape : Shape}
    (hspan : ∀ M, shape = .finite M → M.maxDegree - M.minDegree ≤ m) :
    Keeps (Workspace.Within p m b) (addModule name algebra shape) fun _ => True :=
  (Keeps.modify fun _ hw => hw.put name hspan).bind fun _ _ => (keeps_module name).bind fun _ _ =>
    (keeps_read _).bind fun _ _ => Keeps.pure trivial

/-- What is neither an algebra nor a module does not matter. -/
theorem keeps_modify {f : Workspace → Workspace} (halgebras : ∀ w, (f w).algebras = w.algebras) (hmodules : ∀ w, (f w).modules = w.modules) :
    Keeps (Workspace.Within p m b) (modify f : Session PUnit) fun _ => True :=
  Keeps.modify fun w hw => ⟨halgebras w ▸ hw.algebras, hmodules w ▸ hw.spans⟩

theorem keeps_build (hm : m + 1 ≤ b) (as name : String) (generators : List (String × ℤ)) {texts : List String}
    (hb : ∀ text ∈ texts, ∀ d ∈ Presentation.degreeIn? p text, d ≤ b) :
    Keeps (Workspace.Within p m b) (build as name generators texts) fun _ => True := by
  rw [Presentation.session_build_eq]
  refine (keeps_growing_within _ (Presentation.keeps_buildFrom hm name generators hb)).bind fun M hM => ?_
  exact keeps_addModule as _ (by rintro M' ⟨⟩; exact hM)

theorem keeps_fromDocument (hm : m + 1 ≤ b) (as : String) {j : Json}
    (hb : ∀ document, ModuleDocument.ofJson? j = some document → ∀ text ∈ document.actions, ∀ d ∈ Presentation.degreeIn? p text, d ≤ b) :
    Keeps (Workspace.Within p m b) (fromDocument as j) fun _ => True :=
  (keeps_growing_within _ (FiniteModule.keeps_ofJson hm hb)).bind fun M hM => keeps_addModule as _ (by rintro M' ⟨⟩; exact hM)

theorem keeps_tensor (as left right : String) : Keeps (Workspace.Within p m b) (tensor as left right) fun _ => True :=
  (keeps_module _).bind fun _ _ => (keeps_module _).bind fun _ _ => (keeps_read _).bind fun _ _ => (keeps_read _).bind fun _ _ =>
    (keeps_algebraPlace _).bind fun _ _ => keeps_addModule as _ (by rintro M' ⟨⟩)

theorem keeps_directSum (as : String) (summands : List String) (minDegree : ℤ) :
    Keeps (Workspace.Within p m b) (directSum as summands minDegree) fun _ => True :=
  (Keeps.mapM fun name _ => keeps_module name).bind fun _ _ => keeps_addModule as _ (by rintro M' ⟨⟩)

/-- A cut first asks for the algebra as far as it needs it; the module starts where it did when that was asked. -/
theorem keeps_truncate (hm : m + 1 ≤ b) (as name : String) (top : ℤ) :
    Keeps (Workspace.Within p m b) (truncate as name top) fun _ => True := by
  refine Keeps.of_leads fun w hw => ⟨Workspace.Since p m b w, ⟨hw, .refl w⟩, ?_⟩
  have hwithin : ∀ v, Workspace.Since p m b w v → v.Within p m b := fun v hv => hv.within
  have hcompute : ∀ place d, Keeps (Workspace.Since p m b w) (update (·.compute place d)) fun _ => True := fun place d =>
    keeps_update fun v v' hv h =>
      ⟨hv.within.alike (Workspace.alike_compute h).1 (Workspace.alike_compute h).2, hv.alike.trans (Workspace.alike_compute h).1⟩
  have hgrowing : ∀ {α : Type} {x : Growing α} {Q : α → Prop} (place : ℕ), Keeps (Algebra.Within p m b) x Q →
      Keeps (Workspace.Since p m b w) (growing place x) Q := fun place hx =>
    keeps_growing place hx (fun v A hv hA => hv.within.algebras place A hA) fun v A hv hA =>
      ⟨hv.within.setAlgebra place hA, hv.alike.trans (.setAlgebra place A)⟩
  refine Leads.bind hwithin (keeps_module name) fun place _ => Leads.bind hwithin (keeps_algebraPlace place) fun algebra _ =>
    Leads.bind hwithin (keeps_read _) fun N ⟨v, hv, hN⟩ => ?_
  have hrest : Leads (Workspace.Since p m b w) (Workspace.Within p m b) (do
      growing algebra (Growing.ensure (max 0 (FiniteModule.cutDegree N top - N.minDegree)))
      update (·.compute place (FiniteModule.cutDegree N top))
      let N' ← read (·.view place)
      let M ← growing algebra (FiniteModule.truncate N' (FiniteModule.cutDegree N top))
      addModule as algebra (.finite M)) fun _ => True := by
    refine Leads.bind hwithin (hgrowing algebra (Growing.keeps_ensure (by omega) _)) fun _ hcap =>
      Leads.bind hwithin (hcompute place _) fun _ _ => Leads.bind hwithin (keeps_read _) fun N' ⟨v', hv', hN'⟩ => ?_
    have hmin : N.minDegree = N'.minDegree := (hv.alike.symm.trans hv'.alike).minDegree_eq hN hN'
    refine Leads.bind hwithin (hgrowing algebra (FiniteModule.keeps_truncate N' (by omega))) fun M hM => ?_
    refine Leads.of_keeps hwithin (keeps_addModule as algebra ?_)
    rintro M' ⟨⟩
    omega
  split
  · split
    · exact Leads.bind hwithin (hcompute place _) fun _ _ => hrest
    · exact hrest
  · exact hrest

theorem keeps_homomorphism (hm : m ≤ b) (as source target : String) (shift : ℤ) (values : List (String × String)) :
    Keeps (Workspace.Within p m b) (homomorphism as source target shift values) fun _ => True :=
  (keeps_finiteModule _).bind fun _ _ => (keeps_finiteModule _).bind fun _ _ => (keeps_algebraPlace _).bind fun _ _ =>
    (keeps_read _).bind fun _ _ => (keeps_ofResult _).bind fun _ _ => (keeps_growing_within _ (Growing.keeps_ensure hm _)).bind fun _ _ =>
    (keeps_read _).bind fun _ _ => (keeps_read _).bind fun _ _ => (keeps_read _).bind fun _ _ => (keeps_ofResult _).bind fun _ _ =>
    keeps_modify (fun _ => rfl) fun _ => rfl

theorem keeps_identity (as name : String) : Keeps (Workspace.Within p m b) (identity as name) fun _ => True :=
  (keeps_finiteModule _).bind fun _ _ => keeps_modify (fun _ => rfl) fun _ => rfl

theorem keeps_resolve (as name : String) (budget : Option ℤ) : Keeps (Workspace.Within p m b) (resolve as name budget) fun _ => True := by
  refine (keeps_module _).bind fun _ _ => (keeps_read _).bind fun _ _ => Keeps.bind (Q := fun _ => True) ?_ fun _ _ => Keeps.pure trivial
  exact keeps_modify (fun _ => rfl) fun _ => rfl

theorem keeps_prepare (hm : m ≤ b) (R : Resolution) (t : ℤ) : Keeps (Algebra.Within p m b) (R.prepare t) fun _ => True := by
  have hensure : Keeps (Algebra.Within p m b) (Growing.ensure (max 0 (t - R.minDegree))) fun _ => True :=
    (Growing.keeps_ensure hm _).mono fun _ _ => trivial
  unfold Resolution.prepare
  split
  · split
    · exact (Keeps.throw (Q := fun _ => False) _).bind fun _ h => h.elim
    · exact hensure
  · exact hensure

theorem keeps_computeAt (hm : m ≤ b) (place s : ℕ) (t : ℤ) : Keeps (Workspace.Within p m b) (computeAt place s t) fun _ => True :=
  (keeps_read _).bind fun _ _ => (keeps_algebraPlace _).bind fun _ _ => (keeps_growing_within _ (keeps_prepare hm _ t)).bind fun _ _ =>
    (keeps_compute _ _).bind fun _ _ => (keeps_read _).bind fun _ _ => (keeps_read _).bind fun _ _ => (keeps_ofResult _).bind fun _ _ =>
    keeps_modify (fun _ => rfl) fun _ => rfl

theorem keeps_computeThrough (hm : m ≤ b) (name : String) (s : ℕ) (t : ℤ) :
    Keeps (Workspace.Within p m b) (computeThrough name s t) fun _ => True :=
  (Keeps.get.bind fun _ _ => (keeps_found _).mono fun _ _ => trivial).bind fun _ _ => keeps_computeAt hm _ s t

theorem keeps_checkEnds (name : String) (source target : Resolving) (f : Arrow FiniteMap) :
    Keeps I (checkEnds name source target f) fun _ => True := by
  unfold checkEnds
  simp only [bind_assoc, pure_bind]
  split
  · exact (keeps_read _).bind fun _ _ => (keeps_read _).bind fun _ _ => (Keeps.throw (Q := fun _ => False) _).bind fun _ h => h.elim
  · split
    · exact (keeps_read _).bind fun _ _ => (keeps_read _).bind fun _ _ => Keeps.throw _
    · exact Keeps.pure trivial

theorem keeps_finiteResolution (name : String) : Keeps I (finiteResolution name) fun _ => True :=
  (Keeps.get.bind fun _ _ => (keeps_found _).mono fun _ _ => trivial).bind fun _ (_ : True) => (keeps_read _).bind fun _ _ =>
    Keeps.get.bind fun _ _ => (keeps_found _).bind fun _ _ => Keeps.pure trivial

theorem keeps_finiteArrow (name : String) : Keeps I (finiteArrow name) fun _ => True :=
  Keeps.get.bind fun _ _ => (keeps_found _).bind fun _ _ => (keeps_found _).mono fun _ _ => trivial

theorem keeps_finiteMap (name : String) : Keeps I (finiteMap name) fun _ => True :=
  (keeps_finiteArrow name).bind fun _ _ => (keeps_read _).bind fun _ _ => (keeps_read _).bind fun _ _ => Keeps.pure trivial

theorem keeps_lift (hm : m ≤ b) (as name source target hom : String) :
    Keeps (Workspace.Within p m b) (lift as name source target hom) fun _ => True := by
  refine (keeps_finiteResolution _).bind fun _ _ => (keeps_finiteResolution _).bind fun _ _ => (keeps_finiteArrow _).bind fun _ _ =>
    (keeps_checkEnds _ _ _ _).bind fun _ _ => (keeps_computeAt hm _ _ _).bind fun _ _ => (keeps_computeAt hm _ _ _).bind fun _ _ =>
    (keeps_read _).bind fun _ _ => (keeps_read _).bind fun _ _ => (keeps_read _).bind fun _ _ => (keeps_read _).bind fun _ _ =>
    (keeps_finiteMap _).bind fun _ _ => (keeps_ofResult _).bind fun _ _ => Keeps.bind (Q := fun _ => True) ?_ fun _ _ => Keeps.pure trivial
  exact keeps_modify (fun _ => rfl) fun _ => rfl

theorem keeps_liftNamed (name : String) : Keeps I (liftNamed name) fun _ => True :=
  Keeps.get.bind fun _ _ => (keeps_found _).bind fun _ _ => (keeps_found _).bind fun _ _ => (keeps_read _).bind fun _ _ =>
    (keeps_read _).bind fun _ _ => (keeps_read _).bind fun _ _ => (keeps_read _).bind fun _ _ => Keeps.pure trivial

theorem keeps_changeLift (name : String) (f : LiftContext → Result Lift) :
    Keeps (Workspace.Within p m b) (changeLift name f) fun _ => True :=
  (keeps_liftNamed name).bind fun _ _ => (keeps_ofResult _).bind fun _ _ => keeps_modify (fun _ => rfl) fun _ => rfl

theorem keeps_extendResolving (hm : m ≤ b) (name : String) (s : ℕ) (t : ℤ) :
    Keeps (Workspace.Within p m b) (extendResolving name s t) fun _ => True :=
  (keeps_liftNamed name).bind fun _ _ => (keeps_computeAt hm _ _ _).bind fun _ _ => (keeps_computeAt hm _ _ _).bind fun _ _ =>
    keeps_changeLift name _

/-- The steps that make and extend what a session holds, other than asking the algebra itself to be computed. -/
inductive Command
  | build (as name : String) (generators : List (String × ℤ)) (relations : List String)
  | fromDocument (as : String) (document : Json)
  | tensor (as left right : String)
  | directSum (as : String) (summands : List String) (minDegree : ℤ)
  | truncate (as name : String) (top : ℤ)
  | homomorphism (as source target : String) (shift : ℤ) (values : List (String × String))
  | identity (as name : String)
  | resolve (as name : String) (budget : Option ℤ)
  | computeThrough (name : String) (s : ℕ) (t : ℤ)
  | computeThroughDegree (name : String) (n : ℤ)
  | lift (as name source target hom : String)
  | extend (name : String) (s : ℕ) (t : ℤ)
  | extendAll (name : String)
  | extendResolving (name : String) (s : ℕ) (t : ℤ)

namespace Command

/-- The session afterwards, whether the step was met or not. -/
def run : Command → Workspace → Workspace
  | .build as name generators relations, w => ((Session.build as name generators relations).run.run w).2
  | .fromDocument as document, w => ((Session.fromDocument as document).run.run w).2
  | .tensor as left right, w => ((Session.tensor as left right).run.run w).2
  | .directSum as summands minDegree, w => ((Session.directSum as summands minDegree).run.run w).2
  | .truncate as name top, w => ((Session.truncate as name top).run.run w).2
  | .homomorphism as source target shift values, w => ((Session.homomorphism as source target shift values).run.run w).2
  | .identity as name, w => ((Session.identity as name).run.run w).2
  | .resolve as name budget, w => ((Session.resolve as name budget).run.run w).2
  | .computeThrough name s t, w => ((Session.computeThrough name s t).run.run w).2
  | .computeThroughDegree name n, w => ((Session.computeThroughDegree name n).run.run w).2
  | .lift as name source target hom, w => ((Session.lift as name source target hom).run.run w).2
  | .extend name s t, w => ((Session.extend name s t).run.run w).2
  | .extendAll name, w => ((Session.extendAll name).run.run w).2
  | .extendResolving name s t, w => ((Session.extendResolving name s t).run.run w).2

/-- The relations that a step reads. -/
def relations : Command → List String
  | .build _ _ _ relations => relations
  | .fromDocument _ document => (ModuleDocument.ofJson? document).elim [] (·.actions)
  | _ => []

/-- The degrees of the operations that the relations of a step name. -/
def named (p : Prime) (c : Command) : List ℤ := c.relations.filterMap (Presentation.degreeIn? p)

/-- One step. -/
theorem within_run (hm : m + 1 ≤ b) {c : Command} (hb : ∀ d ∈ c.named p, d ≤ b) {w : Workspace} (hw : w.Within p m b) :
    (c.run w).Within p m b := by
  have hnamed : ∀ text ∈ c.relations, ∀ d ∈ Presentation.degreeIn? p text, d ≤ b := fun text htext d hd =>
    hb d (List.mem_filterMap.mpr ⟨text, htext, hd⟩)
  cases c with
  | build as name generators relations => exact (keeps_build hm as name generators hnamed w hw).1
  | fromDocument as document =>
    refine (keeps_fromDocument hm as (fun x hx text htext => hnamed text ?_) w hw).1
    rw [relations, hx]
    exact htext
  | tensor as left right => exact (keeps_tensor as left right w hw).1
  | directSum as summands minDegree => exact (keeps_directSum as summands minDegree w hw).1
  | truncate as name top => exact (keeps_truncate hm as name top w hw).1
  | homomorphism as source target shift values => exact (keeps_homomorphism (by omega) as source target shift values w hw).1
  | identity as name => exact (keeps_identity as name w hw).1
  | resolve as name budget => exact (keeps_resolve as name budget w hw).1
  | computeThrough name s t => exact (keeps_computeThrough (by omega) name s t w hw).1
  | computeThroughDegree name n => exact (keeps_computeThrough (by omega) name n.toNat n w hw).1
  | lift as name source target hom => exact (keeps_lift (by omega) as name source target hom w hw).1
  | extend name s t => exact (keeps_changeLift name _ w hw).1
  | extendAll name => exact (keeps_changeLift name _ w hw).1
  | extendResolving name s t => exact (keeps_extendResolving (by omega) name s t w hw).1

/-- Steps one after the other, whatever becomes of them. -/
def runAll (cs : List Command) (w : Workspace) : Workspace := cs.foldl (fun w c => c.run w) w

theorem within_runAll (hm : m + 1 ≤ b) {cs : List Command} (hb : ∀ c ∈ cs, ∀ d ∈ c.named p, d ≤ b) {w : Workspace} (hw : w.Within p m b) :
    (runAll cs w).Within p m b := by
  induction cs generalizing w with
  | nil => exact hw
  | cons c cs ih =>
    exact ih (fun c' hc' => hb c' (List.mem_cons_of_mem _ hc')) (within_run hm (hb c List.mem_cons_self) hw)

/-- The greatest degree that the cap and the relations of a run account for. -/
def reach (p : Prime) (m : ℤ) (cs : List Command) : ℤ := (cs.flatMap (named p)).foldl max (m + 1)

theorem within_new (p : Prime) (m b : ℤ) : (Workspace.new (Algebra.new p (some m))).Within p m b where
  algebras place A hA := by
    cases place with
    | zero =>
      obtain rfl := Option.some.inj hA
      exact ⟨rfl, rfl, fun d hd => absurd hd (Nat.not_lt_zero d)⟩
    | succ place => cases hA
  spans place node M hnode := by cases hnode

/-- In every run over an algebra with cap `m`, the only degrees above `m` that the algebra is computed in are the one after `m` and those
up to a degree of an operation that a relation of the run names, and no module is made that spans more than `m`. -/
theorem computed_within_cap (p : Prime) (m : ℤ) (cs : List Command) :
    let w := runAll cs (Workspace.new (Algebra.new p (some m)))
    (∀ (place : ℕ) (A : Algebra), w.algebras[place]? = some A → A.cap = some m ∧
      ∀ d : ℕ, d < A.computed → (d : ℤ) ≤ m + 1 ∨ ∃ c ∈ cs, ∃ t ∈ c.named p, (d : ℤ) ≤ t) ∧
    ∀ (place : ℕ) (node : Node) (M : FiniteModule), w.modules.get? place = some node → node.shape = .finite M →
      M.maxDegree - M.minDegree ≤ m := by
  intro w
  have hb : ∀ c ∈ cs, ∀ d ∈ c.named p, d ≤ reach p m cs := fun c hc d hd =>
    (Presentation.le_foldl_max _ _).2 d (List.mem_flatMap.mpr ⟨c, hc, hd⟩)
  have hw : w.Within p m (reach p m cs) := within_runAll (Presentation.le_foldl_max _ _).1 hb (within_new p m _)
  refine ⟨fun place A hA => ⟨(hw.algebras place A hA).cap_eq, fun d hd => ?_⟩, hw.spans⟩
  have hle := (hw.algebras place A hA).le d hd
  rcases List.mem_cons.mp (Presentation.foldl_max_mem (m + 1) (cs.flatMap (named p))) with heq | hmem
  · exact .inl (hle.trans heq.le)
  · obtain ⟨c, hc, ht⟩ := List.mem_flatMap.mp hmem
    exact .inr ⟨c, hc, _, ht, hle⟩

/-- The degree after the cap is reached: a module concentrated in one degree needs nothing but the unit, and has the algebra computed in
degree 1. -/
theorem computed_beyond_cap :
    let w := runAll [.build "m" "" [("x", 0)] []] (Workspace.new (Algebra.new Prime.two (some 0)))
    w.algebras.toList.map (fun A => (A.cap, A.computed)) = [(some 0, 2)] ∧ (w.algebras.toList.map fun A => (A.dimension 1).toOption) = [some 1] := by
  decide +kernel

end Command

end Session
end Steenrod
