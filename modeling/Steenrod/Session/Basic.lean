import Steenrod.Session.Workspace
/-!
Sessions: steps on a workspace, each of which answers or says what is in the way. What a step did before it was
stopped stays done.
-/
namespace Steenrod

/-- What can be in the way of a step. -/
inductive Obstacle
  /-- A name stands for nothing, or for something of another kind. -/
  | missing
  /-- A text names no operation. -/
  | noOperation
  | failed (f : Failure)
  | config (f : ConfigFault)

abbrev Session := ExceptT Obstacle (StateM Workspace)

/-- An element of a module: its coordinates and its text. -/
structure Spelled where
  vector : Vec
  text : String

namespace Session

def ofResult {α : Type} : Result α → Session α
  | .ok a => pure a
  | .error e => throw (.failed e)

/-- What can be read off the workspace as it is. -/
def read {α : Type} (f : Workspace → Result α) : Session α := do ofResult (f (← get))

/-- Change the workspace. -/
def update (f : Workspace → Result Workspace) : Session Unit := do
  let w ← read f
  set w

/-- What a name has to stand for. -/
def found {α : Type} : Option α → Session α
  | some a => pure a
  | none => throw .missing

/-- Run on the algebra at a place. -/
def growing {α : Type} (place : Nat) (x : Growing α) : Session α := do
  let A ← read (·.algebra place)
  let (r, A) := x.run A
  modify fun w => { w with algebras := w.algebras.setIfInBounds place A }
  ofResult r

/-- The place of a module. -/
def module (name : String) : Session Nat := do found ((← get).modules.find? name)

/-- The place of a finite module, and the module. -/
def finiteModule (name : String) : Session (Nat × FiniteModule) := do
  let place ← module name
  let M ← found ((← get).finiteAt? place)
  pure (place, M)

/-- The place of a free module, and the module. -/
def freeModule (name : String) : Session (Nat × FreeModule) := do
  let place ← module name
  let F ← found ((← get).freeAt? place)
  pure (place, F)

/-- The place of the algebra of a module. -/
def algebraPlace (place : Nat) : Session Nat := do
  let node ← read (·.node place)
  pure node.algebra

/-- Put a module into the workspace; answers with its name in formulas. -/
def addModule (name : String) (algebra : Nat) (shape : Shape) : Session String := do
  modify fun w => { w with modules := w.modules.put name ⟨algebra, shape⟩ }
  let place ← module name
  let M ← read (·.view place)
  pure M.name

def spell (M : GradedModule) (d : Int) (v : Vec) : Session Spelled := do
  let text ← ofResult (M.elementText d v)
  pure ⟨v, text⟩

end Session
end Steenrod
