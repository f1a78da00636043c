import Steenrod.Prime.Binomial
/-!
Degrees of the dual generators and the Adem relations: the coefficient of `b^e1 P^(x+y-j) b^e2 P^j` in the
relation for `P^x b^(e1+e2) P^y`, and the words `P^x b^e P^y` that are not admissible.
-/
namespace Steenrod
namespace Prime

/-- The degree of `P^1`: `2p - 2`, and 1 at the prime 2. -/
def q (p : Prime) : Int := if p.isOdd then 2 * p.signed - 2 else 1

/-- No more generators than these are tracked. -/
def trackedGenerators : Nat := 24

def xiFrom (s : Int) : (fuel : Nat) → (degree power : Int) → List Int
  | 0, _, _ => []
  | fuel + 1, degree, power =>
    if degree * max (2 * s - 2) 1 < maxSigned then
      signed32 degree :: xiFrom s fuel (degree + power * s) (power * s)
    else []

/-- The degrees of `ξ_1, ξ_2, …` divided by `q`: the sums `1 + p + … + p^i`. -/
def xiDegrees (p : Prime) : List Int := xiFrom p.signed trackedGenerators 1 1

def tauFrom (s : Int) : (fuel : Nat) → (power : Int) → List Int
  | 0, _ => []
  | fuel + 1, power =>
    if 2 * power - 1 < maxSigned then signed32 (2 * power - 1) :: tauFrom s fuel (power * s) else []

/-- The degrees `2 p^i - 1` of `τ_0, τ_1, …`. -/
def tauDegrees (p : Prime) : List Int := tauFrom p.signed trackedGenerators 1

/-- The coefficient of `b^e1 P^(x+y-j) b^e2 P^j` in the relation for `P^x b^(e1+e2) P^y`. -/
def ademCoefficient (p : Prime) (x y j e1 e2 : Nat) : Nat :=
  let (x, y, j, e1, e2) := (signed32 x, signed32 y, signed32 j, signed32 e1, signed32 e2)
  let c := p.binomial ((y - j) * (p.signed - 1) + e1 - 1) (x - p.signed * j - e2)
  if c = 0 then 0 else p.product c (p.sign (x + j + e2))

/-- The words `P^x b^e P^y`, as `(x, e, y)`, of the given degree that are not admissible. -/
def inadmissible (p : Prime) (degree : Int) : Result (List (Nat × Nat × Nat)) :=
  let d := unsigned32 degree
  let q := unsigned32 p.q
  let n := d / q
  if d % q = 0 then do
    require (p.val * n + p.val ≤ maxWord)
    .ok ((List.range' 1 ((p.val * n + p.val) / (p.val + 1) - 1)).map fun x => (x, 0, n - x))
  else if p.isOdd && d % q == 1 then do
    require (p.val * n + p.val + 1 ≤ maxWord)
    .ok ((List.range' 1 ((p.val * n + p.val + 1) / (p.val + 1) - 1)).map fun x => (x, 1, n - x))
  else .ok []

end Prime
end Steenrod
