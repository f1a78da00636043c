import Steenrod.Milnor.Coproduct
/-!
What can be asked of a graded module over the algebra, at one moment: dimensions, names of basis elements, and
the action in coordinates. Degrees that are not known yet are a breach. Who asks for an action names the prime `q`
that the coordinates are reduced by: that of the module, or that of what the module is a part of.
-/
namespace Steenrod

structure GradedModule where
  name : String
  prime : Prime
  minDegree : Int
  /-- A degree above which the module is zero, if it is bounded. -/
  maxDegree : Option Int
  /-- The last degree in which the module is known. -/
  lastKnown : Int
  dimension : Int → Result Nat
  /-- `c a x` for a basis element `x`, modulo `q`. -/
  actOnBasis : (q : Prime) → (c : Nat) → (a : Operation) → (d : Int) → (i : Nat) → Result Vec
  /-- `c a v` modulo `q` for an element `v` of degree `d`; entries that `v` lacks count as zero. -/
  act : (q : Prime) → (c : Nat) → (a : Operation) → (d : Int) → (v : Vec) → Result Vec
  nameOf : (d : Int) → (i : Nat) → Result String

namespace GradedModule

/-- Extend an action on basis elements to all elements of a module over `p`. -/
def actLinearly (p : Prime) (dimension : Int → Result Nat)
    (actOnBasis : Prime → Nat → Operation → Int → Nat → Result Vec)
    (q : Prime) (c : Nat) (a : Operation) (d : Int) (v : Vec) : Result Vec := do
  let n ← dimension d
  require (v.size ≤ n)
  let m ← dimension (d + a.degree)
  v.nonzero.foldlM (fun w (i, x) => do
    let u ← actOnBasis q (p.product c x) a d i
    .ok (w.add q 1 u)) (Vec.zero m)

/-- `c a v` for an element `a` of the algebra, in a degree of dimension `count`. -/
def actByElement (M : GradedModule) (count : Nat) (c : Nat) (degree : Int) (a : Vec) (d : Int) (v : Vec) :
    Result Vec := do
  require (a.size = count)
  let m ← M.dimension (d + degree)
  a.nonzero.foldlM (fun w (i, x) => do
    let u ← M.act M.prime (M.prime.product c x) ⟨degree, i⟩ d v
    .ok (w.add M.prime 1 u)) (Vec.zero m)

/-- The text of an element: coefficients other than 1 before names, or `0`. -/
def elementText (M : GradedModule) (d : Int) (v : Vec) : Result String := do
  let terms ← v.nonzero.mapM fun (i, c) => do
    let name ← M.nameOf d i
    .ok (if c = 1 then name else s!"{c} {name}")
  let text := " + ".intercalate terms
  .ok (if text.isEmpty then "0" else text)

/-- The degrees from `low` up to and including `high`. -/
def degreesBetween (low high : Int) : List Int :=
  (List.range (high + 1 - low).toNat).map fun (i : Nat) => low + i

def totalDimension (M : GradedModule) : Result Nat := do
  let top ← Result.ofOption M.maxDegree
  let dims ← (degreesBetween M.minDegree top).mapM M.dimension
  .ok (total dims)

def names (M : GradedModule) (d : Int) : Result (List String) := do
  let n ← M.dimension d
  (List.range n).mapM (M.nameOf d)

/-- The names in `count` degrees from `d` on, before which those in `known` come, the last degree first. -/
def namesAfter (M : GradedModule) (known : List (List String)) (d : Int) :
    (count : Nat) → Result (List (List String))
  | 0 => .ok known.reverse
  | count + 1 => do
    let here ← M.names d
    M.namesAfter (here :: known) (d + 1) count

/-- The names of the basis elements of each degree of a range. -/
def namesBetween (M : GradedModule) (low high : Int) : Result (List (List String)) :=
  M.namesAfter [] low (high + 1 - low).toNat

end GradedModule
end Steenrod
