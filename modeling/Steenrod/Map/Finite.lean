import Steenrod.Map.Basic
import Steenrod.Module.Finite
/-!
Homomorphisms of finite modules, as one matrix for each degree of the target, and how to find one that takes given
values. In every degree the action of the algebra on lower degrees and the given values are a linear system for
the images; directions that it leaves free go to zero.
-/
namespace Steenrod

structure FiniteMap where
  source : FiniteModule
  target : FiniteModule
  shift : Int
  /-- By degree of the target: row `i` is the image of basis element `i` of the source. -/
  matrices : Graded Matrix
  deriving DecidableEq, Repr

namespace FiniteMap

def identity (M : FiniteModule) : FiniteMap where
  source := M
  target := M
  shift := 0
  matrices := M.dims.map Matrix.identity

def applyToBasis (p : Prime) (f : FiniteMap) (c : Nat) (d : Int) (i : Nat) : Result Vec :=
  let zero := Vec.zero (f.target.dimension (d - f.shift))
  match f.matrices.get? (d - f.shift) with
  | none => .ok zero
  | some M =>
    if M.columns = 0 then .ok zero
    else do
      let row ← Result.ofOption (M.row? i)
      .ok (zero.add p c row)

def imageOf (p : Prime) (f : FiniteMap) (d : Int) (i : Nat) : Result Vec := f.applyToBasis p 1 d i

/-- The homomorphism between views of its source and target. -/
def toMap (S T : GradedModule) (f : FiniteMap) : ModuleMap where
  source := S
  target := T
  shift := f.shift
  minDegree := S.minDegree
  applyToBasis := f.applyToBasis S.prime
  kernel? _ := none
  quasiInverse? _ := none

end FiniteMap

/-- Values that a homomorphism should take, the latest first. -/
structure PartialMap where
  source : FiniteModule
  target : FiniteModule
  shift : Int
  values : List ((Int × Nat) × Vec)
  deriving DecidableEq, Repr

namespace PartialMap

def empty (source target : FiniteModule) (shift : Int) : PartialMap := ⟨source, target, shift, []⟩

def lookup (M : FiniteModule) (name : String) : Result (Int × Nat) :=
  match M.find? name with
  | some x => .ok x
  | none => refuse (.unknownGenerator name)

/-- Send the basis element of that name to the sum that a text denotes. -/
def set (p : Prime) (f : PartialMap) (name text : String) : Result PartialMap := do
  let x ← lookup f.source name
  let output := x.1 - f.shift
  match ModuleSum.parse text with
  | .error e => refuse e
  | .ok sum => do
    let v ← sum.foldlM (fun v (c, term) => do
      let (degree, i) ← lookup f.target term
      if degree ≠ output then refuse (.inconsistentMap (.wrongDegree name x.1 output term degree))
      else .ok (v.addAt p i c)) (Vec.zero (f.target.dimension output))
    .ok { f with values := (x, v) :: f.values }

/-- The degree through which the algebra has to be known to find the homomorphism. -/
def algebraDegree (f : PartialMap) : Int :=
  max 0 (f.target.maxDegree + f.shift - f.source.minDegree)

/-- The equations `f(a x) = a f(x)` in degree `d` for the basis elements `x` of degree `input`. The first columns
of a row stand for the source, the others for the target. -/
def actionRows (A : Algebra) (S T : GradedModule) (f : PartialMap) (matrices : Graded Matrix) (d input : Int) :
    Result (List Vec) := do
  let p := S.prime
  let count ← A.dimension (d - input)
  let lower? := (matrices.get? (input - f.shift)).filter (0 < ·.columns)
  let rows ← (List.range (f.source.dimension input)).mapM fun i =>
    (List.range count).mapM fun k => do
      let a : Operation := ⟨d - input, k⟩
      let left ← S.actOnBasis p 1 a input i
      let right ← match lower? with
        | none => .ok (Vec.zero (f.target.dimension (d - f.shift)))
        | some lower => do
          let image ← Result.ofOption (lower.row? i)
          T.act p 1 a (input - f.shift) image
      .ok ((left.padTo (f.source.dimension d)).append right)
  .ok (rows.flatten.filter (!·.isZero))

/-- The given values in degree `d`. -/
def valueRows (f : PartialMap) (d : Int) : List Vec :=
  (List.range (f.source.dimension d)).filterMap fun i =>
    (f.values.find? (·.1 = (d, i))).map fun (_, v) => (Vec.unit (f.source.dimension d) i).append v

/-- The linear system for the images in degree `output` of the target. -/
def system (A : Algebra) (S T : GradedModule) (f : PartialMap) (matrices : Graded Matrix) (output : Int) :
    Result Subspace := do
  let d := output + f.shift
  let m := f.source.dimension d
  let n := f.target.dimension output
  if n = 0 then .ok (Subspace.empty (m + n))
  else do
    let rows ← (GradedModule.degreesBetween f.source.minDegree (d - 1)).mapM (actionRows A S T f matrices d)
    .ok (Subspace.span S.prime (m + n) (rows.flatten ++ f.valueRows d))

/-- The matrix that solves a system with `m` columns for the source. -/
def solution (m n : Nat) (E : Subspace) : Matrix :=
  ⟨n, (List.range m).map fun i =>
    match E.leads.find? (·.1 = i) with
    | some (_, row) => row.block m (m + n)
    | none => Vec.zero n⟩

/-- The homomorphism that takes the given values, between views of its source and target. -/
def solve (A : Algebra) (S T : GradedModule) (f : PartialMap) : Result FiniteMap := do
  let matrices ← f.target.dims.degrees.foldlM (fun matrices output => do
    let d := output + f.shift
    let m := f.source.dimension d
    let n := f.target.dimension output
    let E ← f.system A S T matrices output
    match E.leads.find? (m ≤ ·.1) with
    | some (_, row) => do
      let value ← T.elementText output (row.block m (m + n))
      refuse (.inconsistentMap (.zeroForced d value))
    | none => .ok (matrices.push (solution m n E))) (Graded.empty f.target.minDegree)
  .ok ⟨f.source, f.target, f.shift, matrices⟩

end PartialMap
end Steenrod
