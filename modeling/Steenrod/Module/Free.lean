import Steenrod.Module.Basic
import Steenrod.Graded
/-!
Free modules, with generators added degree by degree. The basis of a degree consists of the products of an
operation and a generator: by generator, in the order of their degrees, and then by operation. It is known in the
degrees that its table has been extended to.
-/
namespace Steenrod

structure FreeModule where
  name : String
  /-- The names of the generators of each degree. -/
  generators : Graded (List String)
  /-- The first degree that the table does not reach. -/
  tableEnd : Int
  deriving DecidableEq, Repr

/-- A generator, by its degree and its place among those of that degree. -/
structure Generator where
  degree : Int
  index : Nat
  deriving DecidableEq, Repr

namespace FreeModule

def new (name : String) (minDegree : Int) : FreeModule := ⟨name, Graded.empty minDegree, minDegree⟩

def minDegree (F : FreeModule) : Int := F.generators.minDegree

/-- The first degree without a list of generators. -/
def nextDegree (F : FreeModule) : Int := F.generators.nextDegree

def count (F : FreeModule) (d : Int) : Nat := ((F.generators.get? d).map List.length).getD 0

/-- The generators of degree at most `d`, in order. -/
def generatorsThrough (F : FreeModule) (d : Int) : List Generator :=
  F.generators.pairs.flatMap fun (g, names) =>
    if g ≤ d then (List.range names.length).map fun i => ⟨g, i⟩ else []

/-- The number of generators of degree less than `d`. -/
def countBelow (F : FreeModule) (d : Int) : Result Nat := do
  require (F.minDegree ≤ d ∧ d ≤ F.nextDegree)
  .ok (F.generatorsThrough (d - 1)).length

/-- Whether the table reaches degree `d`. -/
def reaches (F : FreeModule) (d : Int) : Bool := F.minDegree ≤ d && d < F.tableEnd

/-- The dimensions of the blocks of the generators in degree `d`. -/
def blocks (A : Algebra) (F : FreeModule) (d : Int) : Result (List (Generator × Nat)) :=
  (F.generatorsThrough d).mapM fun g => do
    let n ← A.dimension (d - g.degree)
    .ok (g, n)

/-- The dimension in degree `d`, as long as the end of the table is a signed word. -/
def dimension (A : Algebra) (F : FreeModule) (d : Int) : Result Nat := do
  if d < F.minDegree then .ok 0
  else do
    require (F.reaches d && F.tableEnd ≤ maxSigned)
    let blocks ← F.blocks A d
    .ok (total (blocks.map (·.2)))

/-- Extend the table through degree `d`. The algebra has to be known far enough for the generators there
are. -/
def extendTable (A : Algebra) (F : FreeModule) (d : Int) : Result FreeModule := do
  if d < F.tableEnd then .ok F
  else do
    let degrees := F.generators.degrees
    let _ ← degrees.mapM fun g => A.dimension (d - g)
    .ok { F with tableEnd := d + 1 }

/-- The names that generators get by themselves. -/
def defaultNames (d : Int) (n : Nat) : List String :=
  (List.range n).map fun i => "x_\x7b" ++ s!"{d},{i}" ++ "\x7d"

/-- Add the generators of the next degree, which the table has to reach. -/
def addGenerators (A : Algebra) (F : FreeModule) (d : Int) (n : Nat) (names : Option (List String)) :
    Result FreeModule := do
  require (F.reaches d && F.tableEnd ≤ maxSigned)
  let names := names.getD (defaultNames d n)
  require (names.length = n)
  let generators ← Result.ofOption (F.generators.pushAt? d names)
  let _ ← A.dimension (F.tableEnd - 1 - d)
  .ok { F with generators }

/-- The place in a list of blocks where the one of a generator starts. -/
def startOf? (g : Generator) : List (Generator × Nat) → Option Nat
  | [] => none
  | (h, n) :: rest => if h = g then some 0 else (startOf? g rest).map (n + ·)

/-- The first index in degree `d` of the elements `a g`. -/
def offset (A : Algebra) (F : FreeModule) (d : Int) (g : Generator) : Result Nat := do
  require (F.minDegree ≤ g.degree ∧ g.index < F.count g.degree)
  require (F.reaches d)
  let blocks ← F.blocks A d
  Result.ofOption (startOf? g blocks)

/-- The index of `a g`. -/
def indexOf (A : Algebra) (F : FreeModule) (a : Operation) (g : Generator) : Result Nat := do
  require (0 ≤ a.degree)
  let start ← F.offset A (a.degree + g.degree) g
  .ok (start + a.index)

/-- The block that an index falls into, and the place in it. -/
def locate? : (i : Nat) → List (Generator × Nat) → Option (Nat × Generator)
  | _, [] => none
  | i, (g, n) :: rest => if i < n then some (i, g) else locate? (i - n) rest

/-- The operation and the generator whose product is basis element `i` of degree `d`. -/
def elementAt (A : Algebra) (F : FreeModule) (d : Int) (i : Nat) : Result (Operation × Generator) := do
  require (F.reaches d)
  let blocks ← F.blocks A d
  let (k, g) ← Result.ofOption (locate? i blocks)
  .ok (⟨d - g.degree, k⟩, g)

def nameOf (A : Algebra) (F : FreeModule) (d : Int) (i : Nat) : Result String := do
  let (a, g) ← F.elementAt A d i
  let name ← Result.ofOption ((F.generators.get? g.degree).bind (·[g.index]?))
  if a.degree = 0 then .ok name
  else do
    let operation ← A.nameOf a
    .ok s!"{operation} {name}"

/-- `c a (b g) = c (a b) g` modulo `q`, in the block of the generator `g`. -/
def actOnBasis (A : Algebra) (F : FreeModule) (q : Prime) (c : Nat) (a : Operation) (d : Int) (i : Nat) :
    Result Vec := do
  let (b, g) ← F.elementAt A d i
  let start ← F.indexOf A ⟨b.degree + a.degree, 0⟩ g
  let n ← F.dimension A (d + a.degree)
  let v ← A.multiplyModulo q c a b
  Result.ofOption ((Vec.zero n).splice? start v)

/-- The module as seen through the algebra as it is. -/
def toGraded (A : Algebra) (F : FreeModule) : GradedModule where
  name := F.name
  prime := A.prime
  minDegree := F.minDegree
  maxDegree := none
  lastKnown := F.nextDegree - 1
  dimension := F.dimension A
  actOnBasis := F.actOnBasis A
  act := GradedModule.actLinearly A.prime (F.dimension A) (F.actOnBasis A)
  nameOf := F.nameOf A

end FreeModule
end Steenrod
