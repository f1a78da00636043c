import Steenrod.Milnor.Product
import Steenrod.Text.Expression
/-!
Generators of the algebra, and its elements written by them: the names that are understood, the
decomposition of basis elements into products of smaller degree, and the relations between the generators.
-/
namespace Steenrod
namespace Milnor

/-- Whether `n` is a power of `p`. -/
def isPowerOf (p : Prime) (n : Nat) : Bool :=
  if n = 0 then false
  else if n % p.val = 0 then isPowerOf p (n / p.val) else n == 1
  termination_by n
  decreasing_by exact Nat.div_lt_self (by omega) p.two_le

/-- The largest power of `p` that divides `n`. -/
def powerIn (p : Prime) (n : Nat) : Nat :=
  if n = 0 then 1
  else if n % p.val = 0 then p.val * powerIn p (n / p.val) else 1
  termination_by n
  decreasing_by exact Nat.div_lt_self (by omega) p.two_le

/-- The least member of a set that is not empty. -/
def firstMember? (mask : Nat) : Option Nat := (members mask).head?

/-- The sets and sequences that a product of factors names: exterior factors in increasing order and at most
one power after them. -/
def elementOf? (p : Prime) : (mask : Nat) → List Factor → Option MilnorElement
  | mask, [] => some ⟨mask, []⟩
  | mask, .exterior k :: rest =>
    if p.isOdd ∧ k < 32 ∧ mask >>> k = 0 then elementOf? p (mask ||| (1 <<< k)) rest else none
  | mask, [.power n] => some ⟨mask, trim [n]⟩
  | mask, [.powers r] => some ⟨mask, trim r⟩
  | mask, [.unit] => some ⟨mask, []⟩
  | _, _ => none

end Milnor

namespace Algebra

def hasSquares (A : Algebra) : Bool := !A.prime.isOdd

/-- `Q_k` alone. -/
def exteriorOperation (A : Algebra) (k : Nat) : Result Operation := do
  let d ← Result.ofOption A.prime.tauDegrees[k]?
  let index ← A.indexIn d ⟨1 <<< k, []⟩
  .ok ⟨d, index⟩

/-- The decomposition of an element with exterior factors: `Q_{k+1} = P(p^k) Q_k - Q_k P(p^k)`, and the
first factor split off elsewhere. -/
def decomposeExterior (A : Algebra) (a : Operation) (x : MilnorElement) : Result (List Term) := do
  let p := A.prime
  let k ← Result.ofOption (Milnor.firstMember? x.exterior)
  if x.exterior = 1 <<< k ∧ x.exponents.isEmpty then
    if k = 0 then .ok [⟨1, a, ⟨0, 0⟩⟩]
    else do
      let power ← A.bocksteinPower 0 (Nat.pow p.val (k - 1))
      let exterior ← A.exteriorOperation (k - 1)
      .ok [⟨1, power, exterior⟩, ⟨p.negate 1, exterior, power⟩]
  else do
    let first ← A.exteriorOperation k
    let d := a.degree - first.degree
    let index ← A.indexIn d ⟨x.exterior ^^^ (1 <<< k), x.exponents⟩
    .ok [⟨1, first, ⟨d, index⟩⟩]

/-- The product of two smaller powers in which `P(R)` occurs; nothing for generators. -/
def powerFactors (A : Algebra) (a : Operation) (x : MilnorElement) :
    Result (Option (Operation × Operation)) := do
  let p := A.prime
  match x.exponents with
  | [] => breach
  | [n] =>
    let pow := Milnor.powerIn p n
    if n = pow then .ok none
    else do
      let first ← A.bocksteinPower 0 pow
      let second ← A.bocksteinPower 0 (n - pow)
      .ok (some (first, second))
  | r :: rest => do
    let first ← A.bocksteinPower 0 ((r :: rest).foldr (fun r acc => r + p.val * acc) 0)
    let d := a.degree - first.degree
    let index ← A.indexIn d ⟨0, rest⟩
    .ok (some (first, ⟨d, index⟩))

/-- The decomposition of `P(R)`: solve a product in which it occurs for it, and decompose the other terms. -/
def decomposePower (A : Algebra) : (fuel : Nat) → Operation → Result (List Term)
  | 0, _ => breach
  | fuel + 1, a => do
    let p := A.prime
    let x ← A.element a
    match ← A.powerFactors a x with
    | none => .ok [⟨1, a, ⟨0, 0⟩⟩]
    | some (first, second) =>
      let v ← A.multiply 1 first second
      let c := v.entry a.index
      require (c ≠ 0)
      let inv := p.inverse c
      let others ← (v.nonzero.filter (·.1 ≠ a.index)).mapM fun (i, e) => do
        let terms ← decomposePower A fuel ⟨a.degree, i⟩
        .ok (terms.map fun t =>
          { t with coefficient := p.negate (p.product inv (p.product e t.coefficient)) })
      .ok (⟨inv, first, second⟩ :: others.flatten)

/-- A basis element as a sum of products of elements of smaller degree; a generator is itself times 1. -/
def decompose (A : Algebra) (a : Operation) : Result (List Term) := do
  let x ← A.element a
  if x.exterior = 0 then do
    let n ← A.dimension a.degree
    A.decomposePower (n + 1) a
  else A.decomposeExterior a x

/-- The operation with degree `q n + e` of one summand in an Adem relation. -/
def ademTerm (A : Algebra) (x y e1 e2 j : Nat) : Result (Option Term) := do
  let c := A.prime.ademCoefficient x y j e1 e2
  if c = 0 then .ok none
  else if j = 0 then do
    let left ← A.bocksteinPower e1 (x + y)
    .ok (some ⟨c, left, ⟨e2, 0⟩⟩)
  else do
    let left ← A.bocksteinPower e1 (x + y - j)
    let right ← A.bocksteinPower e2 j
    .ok (some ⟨c, left, right⟩)

/-- The Adem relation for `P^x b^e P^y`, as terms whose sum is zero. -/
def ademRelation (A : Algebra) (x e y : Nat) : Result (List Term) := do
  let left ← A.bocksteinPower 0 x
  let right ← A.bocksteinPower e y
  let terms ← (List.range (e + 1)).mapM fun e1 =>
    (List.range (x / A.prime.val + 1)).mapM fun j => A.ademTerm x y e1 (e - e1) j
  .ok (⟨A.prime.negate 1, left, right⟩ :: terms.flatten.filterMap id)

end Algebra

namespace Growing

/-- The basis element with that name; computes the basis of its degree, which has to be found in signed words. -/
def elementNamed (text : String) : Growing (Option Operation) := do
  let p := (← get).prime
  match Product.parse text with
  | .error _ => pure none
  | .ok product =>
    if product.usesSquares ∧ p.isOdd then pure none
    else
      match Milnor.elementOf? p 0 product.factors with
      | none => pure none
      | some x =>
        if p.xiDegrees.length < x.exponents.length then pure none
        else
          match x.wordDegree? p with
          | none => throw Failure.breach
          | some d =>
            compute d
            pure (((← get).indexIn? d x).map fun i => ⟨d, i⟩)

/-- Multiply an element of degree `d` by the elements of those names, one after the other; nothing from the
first name on that is not understood. -/
def timesNamed (d : Int) (v : Vec) : List String → Growing (Option (Int × Vec))
  | [] => do
    compute d
    pure (some (d, v))
  | text :: rest => do
    match ← elementNamed text with
    | none => pure none
    | some b => do
      compute (d + b.degree)
      let w ← read fun A => A.multiplyBy d v b
      timesNamed (d + b.degree) w rest

/-- The product of the elements of those names, with its degree. -/
def productNamed (names : List String) : Growing (Option (Int × Vec)) := timesNamed 0 (Vec.unit 1 0) names

/-- The places in the basis of degree `d` of the generators of the algebra. -/
def generators (d : Int) : Growing (List Nat) := do
  if d ≤ 0 then pure []
  else
    compute d
    let A ← get
    let p := A.prime
    if p.isOdd ∧ d = 1 then pure [0]
    else if Int.tmod d p.q ≠ 0 ∨ !Milnor.isPowerOf p (Int.tdiv d p.q).toNat then pure []
    else
      let a ← read fun A => A.bocksteinPower 0 (Int.tdiv d p.q).toNat
      pure [a.index]

/-- The relations between generators in degree `d`: the Adem relations, and `b b = 0` at odd primes. -/
def relations (d : Int) : Growing (List (List Term)) := do
  let p := (← get).prime
  if p.isOdd ∧ d = 2 then pure [[⟨1, ⟨1, 0⟩, ⟨1, 0⟩⟩]]
  else
    compute d
    read fun A => do
      let pairs ← p.inadmissible d
      pairs.mapM fun (x, e, y) => A.ademRelation x e y

end Growing
end Steenrod
