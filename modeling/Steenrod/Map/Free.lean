import Steenrod.Map.Basic
import Steenrod.Module.Free
/-!
Homomorphisms out of a free module, determined by the images of its generators. The images are recorded one degree of
generators at a time; kernels and quasi-inverses are recorded where somebody has computed them.
-/
namespace Steenrod

structure FreeMap where
  shift : Int
  /-- By degree of the generators. -/
  outputs : Graded (List Vec)
  kernels : Graded Subspace
  quasiInverses : Graded QuasiInverse
  deriving DecidableEq, Repr

namespace FreeMap

/-- No outputs yet; generators below the least degree of the outputs go to zero. -/
def new (sourceMin targetMin shift : Int) : FreeMap :=
  let low := max sourceMin (targetMin + shift)
  ⟨shift, Graded.empty low, Graded.empty low, Graded.empty low⟩

def minDegree (f : FreeMap) : Int := f.outputs.minDegree

/-- The first degree of generators without outputs. -/
def nextDegree (f : FreeMap) : Int := f.outputs.nextDegree

def output (F : FreeModule) (f : FreeMap) (g : Generator) : Result Vec := do
  require (f.minDegree ≤ g.degree ∧ g.index < F.count g.degree)
  Result.ofOption ((f.outputs.get? g.degree).bind (·[g.index]?))

/-- `c a f(g)` for the basis element `a g`. -/
def applyToBasis (A : Algebra) (F : FreeModule) (T : GradedModule) (f : FreeMap) (c : Nat) (d : Int) (i : Nat) :
    Result Vec := do
  require (F.minDegree ≤ d)
  let m ← F.dimension A d
  require (i < m)
  let n ← T.dimension (d - f.shift)
  let (a, g) ← F.elementAt A d i
  if g.degree < f.minDegree then .ok (Vec.zero n)
  else do
    let v ← f.output F g
    T.act A.prime c a (g.degree - f.shift) v

/-- The homomorphism from its source to a view of its target. -/
def toMap (A : Algebra) (F : FreeModule) (T : GradedModule) (f : FreeMap) : ModuleMap where
  source := F.toGraded A
  target := T
  shift := f.shift
  minDegree := f.minDegree
  applyToBasis := f.applyToBasis A F T
  kernel? := f.kernels.get?
  quasiInverse? := f.quasiInverses.get?

/-- Set the outputs of the generators of the next degree. -/
def addRows (F : FreeModule) (T : GradedModule) (f : FreeMap) (d : Int) (rows : List Vec) : Result FreeMap := do
  require (rows.length = F.count d)
  rows.forM fun r => do
    let n ← T.dimension (d - f.shift)
    require (r.size = n)
  let outputs ← Result.ofOption (f.outputs.pushAt? d rows)
  .ok { f with outputs }

/-- Send the generators through degree `d` that have no outputs yet to zero. -/
def extendByZero (F : FreeModule) (T : GradedModule) (f : FreeMap) (d : Int) : Result FreeMap := do
  let outputs ← (GradedModule.degreesBetween f.nextDegree d).foldlM (fun outputs i => do
    let n ← T.dimension (i - f.shift)
    .ok (outputs.push (List.replicate (F.count i) (Vec.zero n)))) f.outputs
  .ok { f with outputs }

def setKernel (f : FreeMap) (d : Int) (K : Subspace) : Result FreeMap := do
  let kernels ← Result.ofOption (f.kernels.pushAt? d K)
  .ok { f with kernels }

def setQuasiInverse (f : FreeMap) (d : Int) (Q : QuasiInverse) : Result FreeMap := do
  let quasiInverses ← Result.ofOption (f.quasiInverses.pushAt? d Q)
  .ok { f with quasiInverses }

end FreeMap
end Steenrod
