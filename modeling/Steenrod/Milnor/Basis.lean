import Steenrod.Adem
/-!
The Milnor basis: the elements `Q(E) P(R)` for finite sets `E` and sequences `R` without trailing zeros. The
basis of a degree lists the sets in the order of their bit masks and for each of them the sequences of the
remaining degree. Each sequence arises by adding one to the last entry of a shorter or smaller one.
-/
namespace Steenrod

/-- The basis element `Q(E) P(R)`: bit `k` of `exterior` says whether `E` has `k`. -/
structure MilnorElement where
  exterior : Nat
  exponents : List Nat
  deriving DecidableEq, Repr

namespace Milnor

/-- A sequence without its trailing zeros. -/
def trim : List Nat → List Nat
  | [] => []
  | x :: xs =>
    match trim xs with
    | [] => if x = 0 then [] else [x]
    | ys => x :: ys

/-- The members of the set with a bit mask. -/
def members (mask : Nat) : List Nat := (List.range 32).filter mask.testBit

def degreeSum (degrees : List Int) : Int := degrees.foldr (· + ·) 0

/-- The degrees of the exterior factors; nothing where one of them is not tracked. -/
def exteriorDegree? (p : Prime) (mask : Nat) : Option Int :=
  ((members mask).mapM fun k => p.tauDegrees[k]?).map degreeSum

def exteriorDegree (p : Prime) (mask : Nat) : Int := (exteriorDegree? p mask).getD 0

/-- The degree of `P(R)`. -/
def powerDegree (p : Prime) (exponents : List Nat) : Int :=
  p.q * degreeSum (List.zipWith (fun (r : Nat) d => signed32 r * d) exponents p.xiDegrees)

/-- The degree of the exterior factors in signed words; nothing where one is not tracked or a sum is no word. -/
def exteriorWord? (p : Prime) (mask : Nat) : Option Int :=
  ((members mask).mapM fun k => p.tauDegrees[k]?).bind wordSum?

/-- The degree of `P(R)` in signed words; nothing where a product or a sum is no word. -/
def powerWord? (p : Prime) (exponents : List Nat) : Option Int := do
  let degrees ← (List.zipWith (fun (r : Nat) d => signed32 r * d) exponents p.xiDegrees).mapM word?
  let sum ← wordSum? degrees
  word? (p.q * sum)

/-- Add one to entry `i`, the last one or one beyond it. -/
def bump : Nat → List Nat → List Nat
  | 0, [] => [1]
  | 0, x :: xs => (x + 1) :: xs
  | i + 1, [] => 0 :: bump i []
  | i + 1, x :: xs => x :: bump i xs

/-- The sequences of weight `n`, from those of less weight. -/
def exponentRow (weights : List Nat) (earlier : Nat → List (List Nat)) (n : Nat) : List (List Nat) :=
  (if n = 0 then [[]] else []) ++
    (weights.takeWhile (· ≤ n)).zipIdx.flatMap fun (w, i) =>
      ((earlier (n - w)).filter (·.length ≤ i + 1)).map (bump i)

/-- The sequences `R` without trailing zeros whose weight is `n`. -/
def exponents (weights : List Nat) (n : Nat) : List (List Nat) :=
  exponentRow weights (fun m => if _h : m < n then exponents weights m else []) n
  termination_by n
  decreasing_by exact _h

/-- The degrees of the dual generators divided by `q`. -/
def weights (p : Prime) : List Nat := p.xiDegrees.map Int.toNat

/-- The sequences `R` with `P(R)` in degree `q n`. -/
@[irreducible]
def sequences (p : Prime) (n : Nat) : List (List Nat) := exponents (weights p) n

/-- The basis in degree `d`, from the sequences of each weight. -/
def basisRow (p : Prime) (exponents : Nat → List (List Nat)) (d : Nat) : Array MilnorElement :=
  if p.isOdd then
    let count := (p.tauDegrees.takeWhile (· ≤ (d : Int))).length
    ((List.range (1 <<< count)).flatMap fun mask =>
      let rest := (d : Int) - exteriorDegree p mask
      if 0 ≤ rest ∧ rest % p.q = 0 then
        (exponents (rest / p.q).toNat).map fun r => ⟨mask, r⟩
      else []).toArray
  else ((exponents d).map fun r => ⟨0, r⟩).toArray

/-- The Milnor basis in degree `d`. -/
@[irreducible]
def basis (p : Prime) (d : Nat) : Array MilnorElement := basisRow p (sequences p) d

end Milnor

namespace MilnorElement

/-- The degree of `Q(E) P(R)` in signed words, if it can be found in them. -/
def wordDegree? (p : Prime) (x : MilnorElement) : Option Int := do
  let e ← Milnor.exteriorWord? p x.exterior
  let n ← Milnor.powerWord? p x.exponents
  word? (e + n)

/-- The name of `Q(E) P(R)`, with `Sq` for `P` at the prime 2. -/
def name (p : Prime) (x : MilnorElement) : String :=
  if x.exterior = 0 ∧ x.exponents.isEmpty then "1"
  else
    let factors := (Milnor.members x.exterior).map fun k => s!"Q_{k}"
    let letter := if p.isOdd then "P" else "Sq"
    let power :=
      if x.exponents.isEmpty then []
      else [letter ++ "(" ++ ",".intercalate (x.exponents.map Nat.repr) ++ ")"]
    " ".intercalate (factors ++ power)

/-- The short name of an algebra generator, the full name of any other element. -/
def shortName (p : Prime) (x : MilnorElement) : String :=
  match p.isOdd, x.exterior, x.exponents with
  | false, _, [n] => s!"Sq{n}"
  | true, 1, [] => "b"
  | true, 0, [n] => s!"P{n}"
  | _, _, _ => x.name p

end MilnorElement
end Steenrod
