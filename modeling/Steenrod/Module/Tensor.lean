import Steenrod.Module.Basic
import Steenrod.Graded
/-!
Tensor products of modules. The basis of degree `t` consists of blocks by the degree of the left factor, ascending;
inside a block the right factor runs fastest. Operations act through the coproduct, with the sign that moving
an operation past a left factor costs. The prime is that of the left factor.
-/
namespace Steenrod

/-- For each known degree the offsets of the blocks by left degree, and the total dimension as the last one. -/
structure TensorTable where
  offsets : Graded (Graded Nat)
  deriving DecidableEq, Repr

namespace TensorTable

def new (L R : GradedModule) : TensorTable := ⟨Graded.empty (L.minDegree + R.minDegree)⟩

/-- The degrees of left factors in degree `t`. -/
def leftDegrees (L R : GradedModule) (t : Int) : List Int :=
  let top := t - R.minDegree
  GradedModule.degreesBetween L.minDegree
    (match L.maxDegree with
      | some m => min m top
      | none => top)

/-- The offsets of one degree. -/
def row (L R : GradedModule) (t : Int) : Result (Graded Nat) := do
  let start : Graded Nat := Graded.empty L.minDegree
  let (offsets, total) ← (leftDegrees L R t).foldlM (fun (offsets, total) l => do
    let m ← L.dimension l
    let n ← R.dimension (t - l)
    .ok (offsets.push total, total + m * n)) (start, 0)
  .ok (offsets.push total)

/-- The table through degree `t`, where both factors are known far enough. -/
def extend (L R : GradedModule) (T : TensorTable) (t : Int) : Result TensorTable := do
  let rows ← (GradedModule.degreesBetween T.offsets.nextDegree t).mapM (row L R)
  .ok ⟨rows.foldl Graded.push T.offsets⟩

def offset (T : TensorTable) (t l : Int) : Result Nat :=
  Result.ofOption ((T.offsets.get? t).bind (·.get? l))

end TensorTable

namespace Tensor

def maxDegree? (L R : GradedModule) : Option Int := do
  let l ← L.maxDegree
  let r ← R.maxDegree
  some (l + r)

def dimension (L R : GradedModule) (T : TensorTable) (t : Int) : Result Nat :=
  if t < L.minDegree + R.minDegree then .ok 0
  else if (maxDegree? L R).any (· < t) then .ok 0
  else do
    let offsets ← Result.ofOption (T.offsets.get? t)
    .ok (offsets.last?.getD 0)

/-- The left degree of the block that an index falls into: the last block that starts at it or before. -/
def leftDegreeOf (L R : GradedModule) (T : TensorTable) (t : Int) (i : Nat) : Result Int := do
  let offsets ← Result.ofOption (T.offsets.get? t)
  let n ← dimension L R T t
  require (i < n)
  .ok (((offsets.pairs.dropLast.reverse.find? fun (_, start) => start ≤ i).map (·.1)).getD L.minDegree)

def nameOf (L R : GradedModule) (T : TensorTable) (t : Int) (i : Nat) : Result String := do
  let l ← leftDegreeOf L R T t i
  let start ← T.offset t l
  let n ← R.dimension (t - l)
  require (start ≤ i ∧ 0 < n)
  let left ← L.nameOf l ((i - start) / n)
  let right ← R.nameOf (t - l) ((i - start) % n)
  .ok s!"{left}.{right}"

/-- Add, modulo `q`, the images of the block of left degree `l` under one summand `a ⊗ b` of a coproduct, applied
to `v` of degree `t`. -/
def actOnBlock (L R : GradedModule) (T : TensorTable) (q : Prime) (c : Nat) (a b : Operation) (t : Int) (v : Vec)
    (l : Int) (result : Vec) : Result Vec := do
  let p := L.prime
  let r := t - l
  let m ← L.dimension l
  let n ← R.dimension r
  let m' ← L.dimension (l + a.degree)
  let n' ← R.dimension (r + b.degree)
  if m' = 0 ∨ n' = 0 ∨ m = 0 ∨ n = 0 then .ok result
  else do
    let sign := p.sign (b.degree * l)
    let block ← T.offset t l
    let target ← T.offset (t + a.degree + b.degree) (l + a.degree)
    (List.range m).foldlM (fun result i => do
      let left ← L.actOnBasis p (p.product c sign) a l i
      if left.isZero then .ok result
      else
        (List.range n).foldlM (fun result j => do
          let x ← Result.ofOption (v.entry? (block + i * n + j))
          if x = 0 then .ok result
          else do
            let right ← R.actOnBasis p x b r j
            if right.isZero then .ok result
            else Result.ofOption (result.addTensor? q target 1 left right)) result) result

/-- Act by an element whose coproduct is known on its own. -/
def actThroughCoproduct (A : Algebra) (L R : GradedModule) (T : TensorTable) (q : Prime) (c : Nat) (a : Operation)
    (t : Int) (v : Vec) : Result Vec := do
  let n ← dimension L R T (t + a.degree)
  let summands ← A.coproduct a
  summands.foldlM (fun result (x, y) =>
    (TensorTable.leftDegrees L R t).foldlM (fun result l => actOnBlock L R T q c x y t v l result) result)
    (Vec.zero n)

/-- Act by factors one after the other, the coefficient with the last one. -/
def actByFactors (A : Algebra) (L R : GradedModule) (T : TensorTable) (q : Prime) (c : Nat) :
    List Operation → (t : Int) → Vec → Result Vec
  | [], _, _ => breach
  | [a], t, v => actThroughCoproduct A L R T q c a t v
  | a :: rest, t, v => do
    let v ← actThroughCoproduct A L R T L.prime 1 a t v
    actByFactors A L R T q c rest (t + a.degree) v

/-- `c a v` modulo `q`. -/
def act (A : Algebra) (L R : GradedModule) (T : TensorTable) (q : Prime) (c : Nat) (a : Operation) (t : Int)
    (v : Vec) : Result Vec := do
  let n ← dimension L R T (t + a.degree)
  if a.degree = 0 then .ok ((Vec.zero n).add q c v)
  else if n = 0 then .ok (Vec.zero 0)
  else do
    let factors ← A.factors a
    actByFactors A L R T q c factors t v

/-- `c a x` for a basis element `x`, modulo `q`. -/
def actOnBasis (A : Algebra) (L R : GradedModule) (T : TensorTable) (q : Prime) (c : Nat) (a : Operation)
    (t : Int) (i : Nat) : Result Vec := do
  let n ← dimension L R T t
  require (i < n)
  act A L R T q c a t (Vec.unit n i)

/-- The product of two modules as known by a table. -/
def toGraded (A : Algebra) (L R : GradedModule) (T : TensorTable) : GradedModule where
  name := s!"{L.name} (x) {R.name}"
  prime := L.prime
  minDegree := L.minDegree + R.minDegree
  maxDegree := maxDegree? L R
  lastKnown := T.offsets.maxDegree
  dimension := dimension L R T
  actOnBasis := actOnBasis A L R T
  act := act A L R T
  nameOf := nameOf L R T

end Tensor
end Steenrod
