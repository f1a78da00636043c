import Steenrod.Milnor.Generators
/-!
The coproduct, on the elements `Q_k` and `P(R)`, and the factorisation of every basis element into such ones.
-/
namespace Steenrod
namespace Milnor

/-- The sequences that are nowhere larger than `R`, the first entry running fastest. -/
def below : List Nat → List (List Nat)
  | [] => [[]]
  | r :: R => (below R).flatMap fun rest => (List.range (r + 1)).map (· :: rest)

end Milnor

namespace Algebra

/-- `P(R)` alone. -/
def powerOperation (A : Algebra) (exponents : List Nat) (d : Int) : Result Operation := do
  let index ← A.indexIn d ⟨0, exponents⟩
  .ok ⟨d, index⟩

/-- The summands `a' ⊗ a''` of the coproduct of `Q_k` or `P(R)`. -/
def coproduct (A : Algebra) (a : Operation) : Result (List (Operation × Operation)) := do
  if a.degree = 0 then .ok [(⟨0, 0⟩, ⟨0, 0⟩)]
  else do
    let x ← A.element a
    if x.exterior ≠ 0 then do
      require ((Milnor.members x.exterior).length = 1 ∧ x.exponents.isEmpty)
      .ok [(a, ⟨0, 0⟩), (⟨0, 0⟩, a)]
    else
      (Milnor.below x.exponents).mapM fun left => do
        let right := List.zipWith (· - ·) x.exponents left
        let d := Milnor.powerDegree A.prime (Milnor.trim left)
        let l ← A.powerOperation (Milnor.trim left) d
        let r ← A.powerOperation (Milnor.trim right) (a.degree - d)
        .ok (l, r)

/-- Elements `Q_k` and `P(R)` whose product is the basis element, the rightmost factor first. -/
def factors (A : Algebra) (a : Operation) : Result (List Operation) := do
  let x ← A.element a
  let ks := Milnor.members x.exterior
  if x.exterior = 0 ∨ (ks.length = 1 ∧ x.exponents.isEmpty) then .ok [a]
  else do
    let power ←
      if x.exponents.isEmpty then .ok []
      else do
        let b ← A.powerOperation x.exponents (Milnor.powerDegree A.prime x.exponents)
        .ok [b]
    let exteriors ← ks.reverse.mapM A.exteriorOperation
    .ok (power ++ exteriors)

end Algebra
end Steenrod
