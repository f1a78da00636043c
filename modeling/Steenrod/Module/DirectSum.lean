import Steenrod.Module.Basic
import Steenrod.Graded
/-!
Direct sums of modules, cut off below a least degree. The basis of a degree is the concatenation of the bases of
the summands, which keep their names.
-/
namespace Steenrod

/-- For each known degree the offsets of the blocks of the summands, and the total dimension as the last
one. -/
structure SumTable where
  offsets : Graded (Array Nat)
  deriving DecidableEq, Repr

namespace SumTable

def new (minDegree : Int) : SumTable := ⟨Graded.empty minDegree⟩

def summandDimension (M : GradedModule) (t : Int) : Result Nat :=
  if t < M.minDegree then .ok 0 else M.dimension t

/-- The offsets of one degree. -/
def row (summands : List GradedModule) (t : Int) : Result (Array Nat) := do
  let (offsets, total) ← summands.foldlM (fun (offsets, total) M => do
    let n ← summandDimension M t
    .ok (offsets.push total, total + n)) ((#[] : Array Nat), 0)
  .ok (offsets.push total)

/-- The table through degree `t`, where the summands are known far enough. -/
def extend (summands : List GradedModule) (T : SumTable) (t : Int) : Result SumTable := do
  let rows ← (GradedModule.degreesBetween T.offsets.nextDegree t).mapM (row summands)
  .ok ⟨rows.foldl Graded.push T.offsets⟩

def offset (T : SumTable) (t : Int) (j : Nat) : Result Nat :=
  Result.ofOption ((T.offsets.get? t).bind (·[j]?))

def dimension (T : SumTable) (t : Int) : Nat := ((T.offsets.get? t).bind Array.back?).getD 0

/-- The summand that an index falls into, the last one that starts at it or before, and the place in it. -/
def locate (T : SumTable) (t : Int) (i : Nat) : Result (Nat × Nat) := do
  let offsets ← Result.ofOption (T.offsets.get? t)
  require (i < T.dimension t)
  let j := (offsets.toList.takeWhile (· ≤ i)).length - 1
  let start ← Result.ofOption offsets[j]?
  .ok (j, i - start)

end SumTable

namespace DirectSum

/-- A degree above which every summand is zero, if all are bounded. -/
def maxDegree? (summands : List GradedModule) (minDegree : Int) : Option Int :=
  summands.foldlM (fun top M => M.maxDegree.map (max top)) (minDegree - 1)

/-- `c a x` for a basis element `x`, modulo `q`. -/
def actOnBasis (summands : List GradedModule) (T : SumTable) (q : Prime) (c : Nat) (a : Operation) (t : Int)
    (i : Nat) : Result Vec := do
  let n := T.dimension (t + a.degree)
  if n = 0 then .ok (Vec.zero 0)
  else do
    let (j, k) ← T.locate t i
    let start ← T.offset (t + a.degree) j
    let stop ← T.offset (t + a.degree) (j + 1)
    if start = stop then .ok (Vec.zero n)
    else do
      let M ← Result.ofOption summands[j]?
      let v ← M.actOnBasis q c a t k
      Result.ofOption ((Vec.zero n).splice? start (v.block 0 (stop - start)))

def nameOf (summands : List GradedModule) (T : SumTable) (t : Int) (i : Nat) : Result String := do
  let (j, k) ← T.locate t i
  let M ← Result.ofOption summands[j]?
  M.nameOf t k

def sumName (summands : List GradedModule) : String :=
  if summands.isEmpty then "0" else " + ".intercalate (summands.map (·.name))

/-- The sum of modules as known by a table. -/
def toGraded (p : Prime) (summands : List GradedModule) (T : SumTable) : GradedModule where
  name := sumName summands
  prime := p
  minDegree := T.offsets.minDegree
  maxDegree := maxDegree? summands T.offsets.minDegree
  lastKnown := T.offsets.maxDegree
  dimension t := .ok (T.dimension t)
  actOnBasis := actOnBasis summands T
  act := GradedModule.actLinearly p (fun t => .ok (T.dimension t)) (actOnBasis summands T)
  nameOf := nameOf summands T

end DirectSum
end Steenrod
