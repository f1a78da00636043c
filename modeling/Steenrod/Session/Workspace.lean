import Steenrod.Session.Shelf
import Steenrod.Map.Finite
import Steenrod.Module.Tensor
import Steenrod.Module.DirectSum
import Steenrod.Resolution.Lift
import Steenrod.Resolution.Config
/-!
A workspace holds algebras, modules over them, homomorphisms, resolutions and lifts. Objects refer to the objects
that they were made from by their places, so that what one of them computes all others see. A tensor product and a
sum only refer to modules before them.
-/
namespace Steenrod

inductive Shape
  | finite (M : FiniteModule)
  | free (F : FreeModule)
  | stage (resolution s : Nat)
  | tensor (left right : Nat) (table : TensorTable)
  | sum (summands : List Nat) (table : SumTable)

/-- A module together with the place of its algebra. -/
structure Node where
  algebra : Nat
  shape : Shape

/-- A homomorphism with the places of its source and target. -/
structure Arrow (α : Type) where
  source : Nat
  target : Nat
  map : α

/-- A resolution with the place of what it resolves. -/
structure Resolving where
  module : Nat
  resolution : Resolution

structure Workspace where
  algebras : Array Algebra
  modules : Shelf Node
  finiteMaps : Shelf (Arrow FiniteMap)
  freeMaps : Shelf (Arrow FreeMap)
  resolutions : Shelf Resolving
  /-- Between places of resolutions. -/
  lifts : Shelf (Arrow Lift)

namespace Workspace

/-- Nothing but one algebra. -/
def new (A : Algebra) : Workspace :=
  ⟨#[A], Shelf.empty, Shelf.empty, Shelf.empty, Shelf.empty, Shelf.empty⟩

def algebra (w : Workspace) (place : Nat) : Result Algebra := Result.ofOption w.algebras[place]?

def node (w : Workspace) (place : Nat) : Result Node := Result.ofOption (w.modules.get? place)

def algebraOf (w : Workspace) (place : Nat) : Result Algebra := do
  let node ← w.node place
  w.algebra node.algebra

def resolving (w : Workspace) (place : Nat) : Result Resolving :=
  Result.ofOption (w.resolutions.get? place)

/-- The free module at a place, if there is one. -/
def freeAt? (w : Workspace) (place : Nat) : Option FreeModule := do
  let node ← w.modules.get? place
  match node.shape with
  | .free F => some F
  | .stage r s => do
    let x ← w.resolutions.get? r
    let stage ← x.resolution.stages[s]?
    some stage.module
  | _ => none

/-- The finite module at a place, if there is one. -/
def finiteAt? (w : Workspace) (place : Nat) : Option FiniteModule := do
  let node ← w.modules.get? place
  match node.shape with
  | .finite M => some M
  | _ => none

/-- The module at a place as it is now. -/
def view (w : Workspace) (place : Nat) : Result GradedModule := do
  let node ← w.node place
  let A ← w.algebra node.algebra
  match node.shape with
  | .finite M => .ok (M.toGraded A)
  | .free F => .ok (F.toGraded A)
  | .stage _ _ => do
    let F ← Result.ofOption (w.freeAt? place)
    .ok (F.toGraded A)
  | .tensor l r table =>
    if _h : l < place ∧ r < place then do
      let L ← view w l
      let R ← view w r
      .ok (Tensor.toGraded A L R table)
    else breach
  | .sum ids table => do
    let summands ← ids.mapM fun i => if _h : i < place then view w i else breach
    .ok (DirectSum.toGraded A.prime summands table)
  termination_by place

/-- Replace the module at a place. -/
def setShape (w : Workspace) (place : Nat) (node : Node) (shape : Shape) : Workspace :=
  { w with modules := w.modules.set place { node with shape } }

/-- Replace the free module at a place. -/
def setFree (w : Workspace) (place : Nat) (F : FreeModule) : Result Workspace := do
  let node ← w.node place
  match node.shape with
  | .free _ => .ok (w.setShape place node (.free F))
  | .stage r s => do
    let x ← w.resolving r
    let stage ← x.resolution.stage s
    let stages := x.resolution.stages.setIfInBounds s { stage with module := F }
    .ok { w with resolutions := w.resolutions.set r { x with resolution := { x.resolution with stages } } }
  | _ => breach

/-- Make the tables of the module at a place reach degree `d`, which has to be a signed word. -/
def compute (w : Workspace) (place : Nat) (d : Int) : Result Workspace := do
  require (isSigned d)
  let node ← w.node place
  match node.shape with
  | .tensor l r table =>
    if _h : l < place ∧ r < place then do
      let L ← w.view l
      let R ← w.view r
      let w ← compute w l (d - R.minDegree)
      let w ← compute w r (d - L.minDegree)
      let L ← w.view l
      let R ← w.view r
      let table ← table.extend L R d
      .ok (w.setShape place node (.tensor l r table))
    else breach
  | .sum ids table => do
    let w ← ids.foldlM (fun w i => if _h : i < place then compute w i d else breach) w
    let summands ← ids.mapM w.view
    let table ← table.extend summands d
    .ok (w.setShape place node (.sum ids table))
  | _ => .ok w
  termination_by place

end Workspace
end Steenrod
