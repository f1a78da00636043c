import Steenrod.Module.Basic
import Steenrod.Linear.QuasiInverse
/-!
What can be asked of a homomorphism of graded modules at one moment. A homomorphism of shift `k` sends degree `d` of
its source to degree `d - k` of its target.
-/
namespace Steenrod

structure ModuleMap where
  source : GradedModule
  target : GradedModule
  shift : Int
  minDegree : Int
  /-- `c f(x)` for a basis element `x`. -/
  applyToBasis : (c : Nat) → (d : Int) → (i : Nat) → Result Vec
  /-- The kernel in a degree, where it has been recorded. -/
  kernel? : Int → Option Subspace
  /-- A quasi-inverse in a degree, where it has been recorded. -/
  quasiInverse? : Int → Option QuasiInverse

namespace ModuleMap

/-- `c f(v)` for an element `v` of degree `d`. -/
def apply (f : ModuleMap) (c : Nat) (d : Int) (v : Vec) : Result Vec := do
  let n ← f.target.dimension (d - f.shift)
  v.nonzero.foldlM (fun w (i, x) => do
    let u ← f.applyToBasis (f.source.prime.product c x) d i
    .ok (w.add f.source.prime 1 u)) (Vec.zero n)

/-- The images of the basis elements of degree `d`, as rows. -/
def matrixAt (f : ModuleMap) (d : Int) : Result Matrix := do
  let m ← f.source.dimension d
  let n ← f.target.dimension (d - f.shift)
  if n = 0 then .ok (Matrix.zero m 0)
  else do
    let rows ← (List.range m).mapM (f.applyToBasis 1 d)
    .ok ⟨n, rows⟩

end ModuleMap
end Steenrod
