import Steenrod.Module.Finite
/-!
The first difference between two finite modules: in dimensions, in names, or in actions. The modules may be over
different primes; then no vector of one equals a vector of the other.
-/
namespace Steenrod
namespace FiniteModule

def listText {α : Type} (text : α → String) (l : List α) : String :=
  "[" ++ ", ".intercalate (l.map text) ++ "]"

def dimensionDifference? (M N : FiniteModule) : Option String :=
  let low := min M.minDegree N.minDegree
  let high := max M.maxDegree N.maxDegree
  let degrees := (GradedModule.degreesBetween low high).filter fun t => M.dimension t ≠ N.dimension t
  if degrees.isEmpty then none
  else
    let positions := listText Int.repr degrees
    let left := listText Nat.repr M.dims.toList
    let right := listText Nat.repr N.dims.toList
    some (s!"Graded dimensions disagree in positions {positions}. Left has graded dimensions:\n" ++
      s!"    {left}\nRight has graded dimension:\n    {right}\n")

def nameDifference? (M N : FiniteModule) : Option String :=
  M.names.pairs.findSome? fun (t, names) =>
    let others := (N.names.get? t).getD []
    if names = others then none
    else
      let left := Text.quoteList names
      let right := Text.quoteList others
      some s!"Names disagree in degree {t}: {left} vs {right}"

def actionDifference (A : Algebra) (q : Prime) (M N : FiniteModule) (a : Operation) (d : Int) (i : Nat) :
    Result String := do
  let left ← Result.ofOption (M.action? a d i)
  let right ← Result.ofOption (N.action? a d i)
  if A.prime = q ∧ left = right then .ok ""
  else do
    let operation ← A.nameOf a
    let name ← M.nameOf d i
    let leftText ← M.elementText A (d + a.degree) left
    let rightText ← M.elementText A (d + a.degree) right
    .ok s!"  {operation} * {name} disagreement.\n    Left: {leftText}\n    Right: {rightText}\n"

def actionDifferences (A : Algebra) (q : Prime) (M N : FiniteModule) : Result String := do
  let texts ← M.actions.pairs.mapM fun (input, outputs) =>
    (outputs.pairs.drop 1).mapM fun (output, operations) =>
      if M.dimension output = 0 then .ok []
      else
        (List.range operations.size).mapM fun k =>
          (List.range (M.dimension input)).mapM fun i =>
            actionDifference A q M N ⟨output - input, k⟩ input i
  .ok (String.join (texts.flatten.flatten.flatten))

/-- A description of how a module over `A` differs from one over the prime `q`, if it does. -/
def difference? (A : Algebra) (q : Prime) (M N : FiniteModule) : Result (Option String) := do
  match M.dimensionDifference? N with
  | some text => .ok (some text)
  | none =>
    match M.nameDifference? N with
    | some text => .ok (some text)
    | none =>
      if A.prime = q ∧ M.actions = N.actions then .ok none
      else do
        let text ← actionDifferences A q M N
        .ok (if text.isEmpty then none else some ("Actions disagree.\n" ++ text))

end FiniteModule
end Steenrod
