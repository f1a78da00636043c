import Steenrod.Module.Basic
import Steenrod.Graded
/-!
Modules of finite total dimension, with the action of every basis element of the algebra on every basis element of
the module stored. The action of generators of the algebra determines the rest, and the relations between
generators say whether it is one.
-/
namespace Steenrod

structure FiniteModule where
  name : String
  dims : Graded Nat
  names : Graded (List String)
  /-- The action by the degree of the input, that of the output, the operation and the input. -/
  actions : Graded (Graded (Array (Array Vec)))
  deriving DecidableEq, Repr

namespace FiniteModule

def minDegree (M : FiniteModule) : Int := M.dims.minDegree

def maxDegree (M : FiniteModule) : Int := M.dims.maxDegree

def dimension (M : FiniteModule) (d : Int) : Nat := (M.dims.get? d).getD 0

/-- The name and the dimensions of the module. -/
def describe (M : FiniteModule) : String :=
  let dims := ", ".intercalate (M.dims.pairs.map fun (d, n) => s!"({d}, {n})")
  s!"FDModule({M.name}, graded dimension [{dims}])"

/-- The actions that leave one degree: the identity, and zero for the other degrees above. -/
def zeroActions (A : Algebra) (dims : Graded Nat) (input : Int) : Result (Graded (Array (Array Vec))) := do
  let n := (dims.get? input).getD 0
  let identity := (Array.range n).map (Vec.unit n)
  let rest ← (GradedModule.degreesBetween (input + 1) dims.maxDegree).mapM fun output => do
    let count ← A.dimension (output - input)
    let m := (dims.get? output).getD 0
    .ok (Array.replicate count (Array.replicate n (Vec.zero m)))
  .ok (Graded.ofList input (#[identity] :: rest))

/-- The module of that dimension on which every operation of positive degree is zero. -/
def zeroAction (name : String) (dims : Graded Nat) : Growing FiniteModule := do
  Growing.compute (dims.nextDegree - dims.minDegree)
  let actions ← Growing.read fun A => dims.degrees.mapM (zeroActions A dims)
  let names := dims.pairs.map fun (d, n) => (List.range n).map fun i => s!"x{d}_{i}"
  pure ⟨name, dims, Graded.ofList dims.minDegree names, Graded.ofList dims.minDegree actions⟩

/-- The stored action of `a` on basis element `i` of degree `d`. -/
def action? (M : FiniteModule) (a : Operation) (d : Int) (i : Nat) : Option Vec := do
  let outputs ← M.actions.get? d
  let operations ← outputs.get? (d + a.degree)
  let inputs ← operations[a.index]?
  inputs[i]?

def setAction (M : FiniteModule) (a : Operation) (d : Int) (i : Nat) (v : Vec) : FiniteModule :=
  { M with
    actions := M.actions.modify d fun outputs => outputs.modify (d + a.degree) fun operations =>
      operations.modify a.index fun inputs => inputs.setIfInBounds i v }

/-- Replace a stored action by a vector of its size. -/
def setAction? (A : Algebra) (M : FiniteModule) (a : Operation) (d : Int) (i : Nat) (v : Vec) :
    Result FiniteModule := do
  let count ← A.dimension a.degree
  require (a.index < count ∧ i < M.dimension d)
  let old ← Result.ofOption (M.action? a d i)
  let v ← Result.ofOption (old.assign? v)
  .ok (M.setAction a d i v)

def rename? (M : FiniteModule) (d : Int) (i : Nat) (name : String) : Result FiniteModule := do
  let names ← Result.ofOption (M.names.get? d)
  require (i < names.length)
  .ok { M with names := M.names.set d (names.set i name) }

def nameOf (M : FiniteModule) (d : Int) (i : Nat) : Result String :=
  Result.ofOption ((M.names.get? d).bind (·[i]?))

/-- The first basis element of that name. -/
def find? (M : FiniteModule) (name : String) : Option (Int × Nat) :=
  M.names.pairs.findSome? fun (d, names) => (names.idxOf? name).map fun i => (d, i)

/-- `c a x` for a basis element `x`, modulo `q`. -/
def actOnBasis (A : Algebra) (M : FiniteModule) (q : Prime) (c : Nat) (a : Operation) (d : Int) (i : Nat) :
    Result Vec := do
  let count ← A.dimension a.degree
  require (a.index < count)
  require (i < M.dimension d)
  let m := M.dimension (d + a.degree)
  if m = 0 then .ok (Vec.zero 0)
  else if a.degree = 0 then .ok ((Vec.zero m).addAt q i c)
  else do
    let v ← Result.ofOption (M.action? a d i)
    .ok ((Vec.zero m).add q c v)

/-- The module as seen through the algebra as it is. -/
def toGraded (A : Algebra) (M : FiniteModule) : GradedModule where
  name := M.name
  prime := A.prime
  minDegree := M.minDegree
  maxDegree := some M.maxDegree
  lastKnown := maxSigned
  dimension d := .ok (M.dimension d)
  actOnBasis := M.actOnBasis A
  act := GradedModule.actLinearly A.prime (fun d => .ok (M.dimension d)) (M.actOnBasis A)
  nameOf := M.nameOf

def elementText (A : Algebra) (M : FiniteModule) (d : Int) (v : Vec) : Result String :=
  (M.toGraded A).elementText d v

/-- `Σ c A (B x)` over the terms, for basis element `i` of degree `d`. -/
def actByTerms (A : Algebra) (M : FiniteModule) (terms : List Term) (d : Int) (i : Nat) (start : Vec) :
    Result Vec :=
  terms.foldlM (fun v t => do
    let inner ← M.actOnBasis A A.prime 1 t.right d i
    let outer ← (M.toGraded A).act A.prime t.coefficient t.left (d + t.right.degree) inner
    .ok (v.add A.prime 1 outer)) start

/-- Compute the action of the operations that are not generators from degree `input` to degree `output`,
where the action into lower degrees is known. -/
def extendActions (M : FiniteModule) (input output : Int) : Growing FiniteModule := do
  let d := output - input
  if M.dimension output = 0 ∨ M.dimension input = 0 then pure M
  else
    let generators ← Growing.generators d
    Growing.read fun A => do
      let count ← A.dimension d
      let indices := (List.range count).filter (!generators.contains ·)
      (List.range (M.dimension input)).foldlM (fun M i =>
        indices.foldlM (fun M k => do
          let terms ← A.decompose ⟨d, k⟩
          let v ← M.actByTerms A terms input i (Vec.zero (M.dimension output))
          .ok (M.setAction ⟨d, k⟩ input i v)) M) M

def termText (A : Algebra) (t : Term) : Result String := do
  let left ← A.nameOf t.left
  let right ← A.nameOf t.right
  .ok s!"{t.coefficient} * {left} * {right}"

/-- Whether every relation between generators of the algebra holds from degree `input` to degree
`output`. -/
def checkRelations (M : FiniteModule) (input output : Int) : Growing Unit := do
  Growing.read fun _ => require (input < output)
  let relations ← Growing.relations (output - input)
  Growing.read fun A =>
    (List.range (M.dimension input)).forM fun i =>
      relations.forM fun relation => do
        let v ← M.actByTerms A relation input i (Vec.zero (M.dimension output))
        if v.isZero then .ok ()
        else do
          let terms ← relation.mapM (termText A)
          let value ← M.elementText A output v
          let name ← M.nameOf input i
          refuse (.brokenRelation ("  +  ".intercalate terms) s!"{value} on {name}")

/-- The degrees of inputs from the top down, each with the degrees above it from the bottom up. -/
def closingOrder (M : FiniteModule) : List (Int × Int) :=
  (GradedModule.degreesBetween M.minDegree M.maxDegree).reverse.flatMap fun input =>
    (GradedModule.degreesBetween (input + 1) M.maxDegree).map fun output => (input, output)

/-- Extend the action of the generators to the whole algebra, and check it. -/
def close (M : FiniteModule) : Growing FiniteModule :=
  M.closingOrder.foldlM (fun M (input, output) => do
    let M ← M.extendActions input output
    M.checkRelations input output
    pure M) M

/-- The non-zero actions of the generators of the algebra, as relations. -/
def actionTexts (M : FiniteModule) : Growing (List String) := do
  let texts ← (GradedModule.degreesBetween M.minDegree M.maxDegree).mapM fun input =>
    (GradedModule.degreesBetween (input + 1) M.maxDegree).mapM fun output => do
      if M.dimension output = 0 then pure []
      else
        let generators ← Growing.generators (output - input)
        Growing.read fun A => do
          let texts ← generators.mapM fun k =>
            (List.range (M.dimension input)).mapM fun i => do
              let a : Operation := ⟨output - input, k⟩
              let v ← Result.ofOption (M.action? a input i)
              if v.isZero then .ok none
              else do
                let operation ← A.shortNameOf a
                let name ← M.nameOf input i
                let value ← M.elementText A output v
                .ok (some s!"{operation} {name} = {value}")
          .ok (texts.flatten.filterMap id)
  pure texts.flatten.flatten

/-- The degree up to which a cut at degree `d` goes. -/
def cutDegree (N : GradedModule) (d : Int) : Int :=
  match N.maxDegree with
  | some top => min top d
  | none => d

/-- The part of a module in degrees up to `top`, in which it is known. -/
def truncate (N : GradedModule) (top : Int) : Growing FiniteModule := do
  let degrees := GradedModule.degreesBetween N.minDegree top
  let dims ← Growing.read fun _ => degrees.mapM N.dimension
  let M ← zeroAction N.name (Graded.ofList N.minDegree dims)
  let names ← Growing.read fun _ => degrees.mapM N.names
  let M := { M with names := Graded.ofList N.minDegree names }
  Growing.read fun A =>
    M.closingOrder.foldlM (fun M (input, output) => do
      if M.dimension output = 0 then .ok M
      else do
        let count ← if M.dimension input = 0 then .ok 0 else A.dimension (output - input)
        (List.range (M.dimension input)).foldlM (fun M i =>
          (List.range count).foldlM (fun M k => do
            let a : Operation := ⟨output - input, k⟩
            let v ← N.actOnBasis A.prime 1 a input i
            .ok (M.setAction a input i ((Vec.zero (M.dimension output)).add A.prime 1 v))) M) M) M

end FiniteModule
end Steenrod
