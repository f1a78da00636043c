import Steenrod.Session.FiniteModules
import Steenrod.Session.Modules
import Steenrod.Proofs.Milnor.Growth
/-!
How steps of sessions run. Main statements: what follows a step that is answered runs on from where that left the workspace, and what
holds at the end of a session, however it ends, is shown step by step.
-/
namespace Steenrod

/-- The workspace with another module. -/
def Workspace.withModule (w : Workspace) (name : String) (node : Node) : Workspace := { w with modules := w.modules.put name node }

/-- The workspace with another algebra at a place. -/
def Workspace.withAlgebra (w : Workspace) (place : ℕ) (A : Algebra) : Workspace :=
  { w with algebras := w.algebras.setIfInBounds place A }

namespace Workspace

variable (w : Workspace) (name : String) (node : Node) {other : String} {place : ℕ}

theorem get?_withModule_self : (w.withModule name node).modules.get? w.modules.entries.size = some node := by
  simp [withModule, Shelf.get?, Shelf.put]

theorem get?_withModule_of_lt (h : place < w.modules.entries.size) : (w.withModule name node).modules.get? place = w.modules.get? place :=
  Shelf.get?_put_of_lt w.modules name node h

theorem size_withModule : (w.withModule name node).modules.entries.size = w.modules.entries.size + 1 := Array.size_push ..

theorem find?_withModule_self : (w.withModule name node).modules.find? name = some w.modules.entries.size :=
  Shelf.find?_put_self w.modules name node

theorem find?_withModule_of_ne {name : String} (node : Node) (h : other ≠ name) :
    (w.withModule name node).modules.find? other = w.modules.find? other := by
  rw [withModule, Shelf.find?, Shelf.put, List.lookup_cons, beq_false_of_ne h]
  rfl

end Workspace

namespace Session

open Growing

variable {α β : Type} {x : Session α} {w w' : Workspace} {P : Workspace → Prop} {name : String} {place : ℕ}

theorem run_bind_of_ok {a : α} (h : x.run.run w = (.ok a, w')) (f : α → Session β) :
    (x >>= f).run.run w = (f a).run.run w' := by
  rw [ExceptT.run_bind, StateT.run_bind, h]
  rfl

theorem run_bind_of_error {e : Obstacle} (h : x.run.run w = (.error e, w')) (f : α → Session β) :
    (x >>= f).run.run w = (.error e, w') := by
  rw [ExceptT.run_bind, StateT.run_bind, h]
  rfl

theorem run_read_of_ok {f : Workspace → Result α} {a : α} (h : f w = .ok a) : (read f).run.run w = (.ok a, w) := by
  change (ofResult (f w)).run.run w = _
  rw [h]
  rfl

theorem run_read_of_error {f : Workspace → Result α} {e : Failure} (h : f w = .error e) :
    (read f).run.run w = (.error (.failed e), w) := by
  change (ofResult (f w)).run.run w = _
  rw [h]
  rfl

theorem run_update_of_ok {f : Workspace → Result Workspace} (h : f w = .ok w') : (update f).run.run w = (.ok (), w') := by
  rw [update, run_bind_of_ok (run_read_of_ok h)]
  rfl

theorem run_update_of_error {f : Workspace → Result Workspace} {e : Failure} (h : f w = .error e) :
    (update f).run.run w = (.error (.failed e), w) := by
  rw [update, run_bind_of_error (run_read_of_error h)]

theorem run_module_of_some (h : w.modules.find? name = some place) : (module name).run.run w = (.ok place, w) := by
  change (found (w.modules.find? name)).run.run w = _
  rw [h]
  rfl

theorem run_module_of_none (h : w.modules.find? name = none) : (module name).run.run w = (.error .missing, w) := by
  change (found (w.modules.find? name)).run.run w = _
  rw [h]
  rfl

theorem run_algebraPlace {node : Node} (h : w.modules.get? place = some node) : (algebraPlace place).run.run w = (.ok node.algebra, w) := by
  have hnode : w.node place = .ok node := by rw [Workspace.node, h]; rfl
  rw [algebraPlace, run_bind_of_ok (run_read_of_ok hnode)]
  rfl

theorem run_growing {A A' : Algebra} {r : Result α} {y : Growing α} (hA : w.algebras[place]? = some A) (hy : y.run A = (r, A')) :
    (growing place y).run.run w = (ofResult r).run.run (w.withAlgebra place A') := by
  have hread : w.algebra place = .ok A := by rw [Workspace.algebra, hA]; rfl
  rw [growing, run_bind_of_ok (run_read_of_ok hread)]
  simp only [hy]
  rfl

theorem run_growing_of_ok {A A' : Algebra} {a : α} {y : Growing α} (hA : w.algebras[place]? = some A) (hy : y.run A = (.ok a, A')) :
    (growing place y).run.run w = (.ok a, w.withAlgebra place A') := run_growing hA hy

theorem run_finiteModule {M : FiniteModule} (hname : w.modules.find? name = some place) (hM : w.finiteAt? place = some M) :
    (finiteModule name).run.run w = (.ok (place, M), w) := by
  rw [finiteModule, run_bind_of_ok (run_module_of_some hname)]
  change (found (w.finiteAt? place) >>= fun M => pure (place, M)).run.run w = _
  rw [hM]
  rfl

/-- However it is answered, a module that is added is put on the shelf. -/
theorem state_addModule (w : Workspace) (name : String) (k : ℕ) (shape : Shape) :
    ((addModule name k shape).run.run w).2 = w.withModule name ⟨k, shape⟩ := by
  let v := w.withModule name ⟨k, shape⟩
  have hmodify : (modify (fun w : Workspace => { w with modules := w.modules.put name ⟨k, shape⟩ }) : Session PUnit).run.run w =
      (.ok ⟨⟩, v) := rfl
  have hfind : v.modules.find? name = some w.modules.entries.size := w.find?_withModule_self name ⟨k, shape⟩
  rw [addModule, run_bind_of_ok hmodify, run_bind_of_ok (run_module_of_some hfind)]
  cases hview : v.view w.modules.entries.size with
  | ok N =>
    rw [run_bind_of_ok (run_read_of_ok hview)]
    rfl
  | error e => rw [run_bind_of_error (run_read_of_error hview)]

theorem run_addModule {k : ℕ} {shape : Shape} {N : GradedModule}
    (h : (w.withModule name ⟨k, shape⟩).view w.modules.entries.size = .ok N) :
    (addModule name k shape).run.run w = (.ok N.name, w.withModule name ⟨k, shape⟩) := by
  let v := w.withModule name ⟨k, shape⟩
  have hmodify : (modify (fun w : Workspace => { w with modules := w.modules.put name ⟨k, shape⟩ }) : Session PUnit).run.run w =
      (.ok ⟨⟩, v) := rfl
  have hfind : v.modules.find? name = some w.modules.entries.size := w.find?_withModule_self name ⟨k, shape⟩
  rw [addModule, run_bind_of_ok hmodify, run_bind_of_ok (run_module_of_some hfind), run_bind_of_ok (run_read_of_ok h)]
  rfl

section After

variable {f : α → Session β}

theorem after_read {g : Workspace → Result α} (h : P w) (hok : ∀ a, g w = .ok a → P ((f a).run.run w).2) :
    P ((read g >>= f).run.run w).2 := by
  cases hg : g w with
  | error e => rwa [run_bind_of_error (run_read_of_error hg)]
  | ok a =>
    rw [run_bind_of_ok (run_read_of_ok hg)]
    exact hok a hg

theorem after_module {f : ℕ → Session β} (h : P w) (hok : ∀ place, w.modules.find? name = some place → P ((f place).run.run w).2) :
    P ((module name >>= f).run.run w).2 := by
  cases hname : w.modules.find? name with
  | none => rwa [run_bind_of_error (run_module_of_none hname)]
  | some place =>
    rw [run_bind_of_ok (run_module_of_some hname)]
    exact hok place hname

theorem after_algebraPlace {f : ℕ → Session β} (h : P w) (hok : ∀ node, w.modules.get? place = some node → P ((f node.algebra).run.run w).2) :
    P ((algebraPlace place >>= f).run.run w).2 := by
  cases hnode : w.modules.get? place with
  | none =>
    have hread : w.node place = .error .breach := by rw [Workspace.node, hnode]; rfl
    have hrun : (algebraPlace place).run.run w = (.error (.failed .breach), w) := run_bind_of_error (run_read_of_error hread) _
    rwa [run_bind_of_error hrun]
  | some node =>
    rw [run_bind_of_ok (run_algebraPlace hnode)]
    exact hok node hnode

theorem after_update {g : Workspace → Result Workspace} {f : Unit → Session β} (h : P w)
    (hok : ∀ w', g w = .ok w' → P ((f ()).run.run w').2) : P ((update g >>= f).run.run w).2 := by
  cases hg : g w with
  | error e => rwa [run_bind_of_error (run_update_of_error hg)]
  | ok w' =>
    rw [run_bind_of_ok (run_update_of_ok hg)]
    exact hok w' hg

theorem after_growing {A : Algebra} {y : Growing α} (hA : w.algebras[place]? = some A)
    (h : P (w.withAlgebra place (y.run A).2))
    (hok : ∀ a, (y.run A).1 = .ok a → P ((f a).run.run (w.withAlgebra place (y.run A).2)).2) :
    P ((growing place y >>= f).run.run w).2 := by
  rcases hy : y.run A with ⟨e | a, A'⟩
  · have hrun : (growing place y).run.run w = (.error (.failed e), w.withAlgebra place A') :=
      run_growing hA hy
    rw [hy] at h
    rwa [run_bind_of_error hrun]
  · rw [hy] at hok
    rw [run_bind_of_ok (run_growing_of_ok hA hy)]
    exact hok a rfl

end After

end Session
end Steenrod
