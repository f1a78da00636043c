import Steenrod.Milnor.Algebra
/-!
The product of basis elements by Milnor's formula. The terms of `P(R) P(S)` are given by the matrices of natural
numbers with `r_i = x_i0 + Σ_j p^j x_ij` and `s_j = x_0j + Σ_i x_ij`; the coefficient of a matrix is the product of
the multinomial coefficients of its diagonals. An exterior factor moves past `P(R)` by
`P(R) Q_k = Q_k P(R) + Q_{k+1} P(R - p^k e_1) + Q_{k+2} P(R - p^k e_2) + …`.
-/
namespace Steenrod
namespace Milnor

/-- The ways to take `x_1, x_2, …` with `Σ_j w p^(j-1) x_j ≤ r` from the column sums: what is left of `r`, the
entries, and what is left of the columns. -/
def rows (p w r : Nat) : List Nat → List (Nat × List Nat × List Nat)
  | [] => [(r, [], [])]
  | s :: ss =>
    (List.range (min (r / w) s + 1)).flatMap fun x =>
      (rows p (w * p) (r - x * w) ss).map fun (r₀, xs, rest) => (r₀, x :: xs, (s - x) :: rest)

/-- The matrices for `R` and `S`: the row of what is left of `S`, and the other rows, each headed by what is
left of its entry of `R`. -/
def matrices (p : Nat) : List Nat → List Nat → List (List Nat × List (List Nat))
  | [], S => [(S, [])]
  | r :: R, S =>
    (rows p p r S).flatMap fun (r₀, xs, S') =>
      (matrices p R S').map fun (top, below) => (top, (r₀ :: xs) :: below)

/-- Put each entry of a row in front of the list at its place. -/
def consEach : List Nat → List (List Nat) → List (List Nat)
  | [], ds => ds
  | x :: xs, [] => [x] :: consEach xs []
  | x :: xs, d :: ds => (x :: d) :: consEach xs ds

/-- The diagonals of a matrix, from the top left corner on. -/
def diagonals : List (List Nat) → List (List Nat)
  | [] => []
  | row :: rows => consEach row ([] :: diagonals rows)

/-- The coefficient of diagonals: the product of their multinomial coefficients. -/
def diagonalCoefficient (p : Prime) (ds : List (List Nat)) : Nat :=
  ds.foldr (fun d c => p.product (p.multinomial d) c) 1

/-- The terms of `P(R) P(S)` that do not vanish, one for each matrix. -/
def powerProduct (p : Prime) (R S : List Nat) : List (Nat × List Nat) :=
  (matrices p.val R S).filterMap fun (top, below) =>
    let ds := (diagonals ((0 :: top) :: below)).drop 1
    let c := diagonalCoefficient p ds
    if c = 0 then none else some (c, trim (ds.map total))

/-- Take `n` away from entry `i`, which has to be that large. -/
def lower? (n : Nat) : Nat → List Nat → Option (List Nat)
  | _, [] => none
  | 0, x :: xs => if x < n then none else some ((x - n) :: xs)
  | i + 1, x :: xs => (lower? n i xs).map (x :: ·)

/-- `c Q(E) P(R)`. -/
structure Monomial where
  coefficient : Nat
  exterior : Nat
  exponents : List Nat
  deriving DecidableEq, Repr

/-- The number of members of a set above `k`. -/
def countAbove (mask k : Nat) : Nat := ((members mask).filter (k < ·)).length

/-- `x Q_j`, where `x` is taken as `Q(E)` followed by a power that `Q_j` has already passed. -/
def Monomial.wedge (p : Prime) (x : Monomial) (j : Nat) (exponents : List Nat) : Option Monomial :=
  if x.exterior.testBit j then none
  else
    let c := if countAbove x.exterior j % 2 = 0 then x.coefficient else p.negate x.coefficient
    some ⟨c, x.exterior ||| (1 <<< j), trim exponents⟩

/-- The terms of `x Q_k`. -/
def Monomial.timesExterior (p : Prime) (x : Monomial) (k : Nat) : List Monomial :=
  (x.wedge p k x.exponents).toList ++
    (List.range x.exponents.length).filterMap fun i =>
      (lower? (Nat.pow p.val k) i x.exponents).bind (x.wedge p (k + i + 1))

/-- The terms of `x Q(E)`. -/
def Monomial.timesExteriors (p : Prime) (x : Monomial) (mask : Nat) : List Monomial :=
  (members mask).foldl (fun xs k => xs.flatMap (Monomial.timesExterior p · k)) [x]

/-- The terms of the product of two basis elements. -/
def product (p : Prime) (a b : MilnorElement) : List (Nat × MilnorElement) :=
  (Monomial.timesExteriors p ⟨1, a.exterior, a.exponents⟩ b.exterior).flatMap fun x =>
    (powerProduct p x.exponents b.exponents).map fun (c, t) =>
      (p.product x.coefficient c, ⟨x.exterior, t⟩)

end Milnor

namespace Algebra

/-- `c a b` for basis elements `a` and `b`, as coordinates in the degree of the product, added up modulo `q`. -/
def multiplyModulo (A : Algebra) (q : Prime) (c : Nat) (a b : Operation) : Result Vec := do
  let d := a.degree + b.degree
  let x ← A.element a
  let y ← A.element b
  let n ← A.dimension d
  (Milnor.product A.prime x y).foldlM (fun v (e, z) => do
    let i ← A.indexIn d z
    .ok (v.addAt q i (A.prime.product c e))) (Vec.zero n)

/-- `c a b` for basis elements `a` and `b`, as coordinates in the degree of the product. -/
def multiply (A : Algebra) (c : Nat) (a b : Operation) : Result Vec := A.multiplyModulo A.prime c a b

/-- `c a y` for a basis element `a` and an element `y` of degree `d`. -/
def multiplyElement (A : Algebra) (c : Nat) (a : Operation) (d : Int) (y : Vec) : Result Vec := do
  let n ← A.dimension (a.degree + d)
  y.nonzero.foldlM (fun v (i, e) => do
    let w ← A.multiply (A.prime.product c e) a ⟨d, i⟩
    .ok (v.add A.prime 1 w)) (Vec.zero n)

/-- `y b` for an element `y` of degree `d` and a basis element `b`. -/
def multiplyBy (A : Algebra) (d : Int) (y : Vec) (b : Operation) : Result Vec := do
  let n ← A.dimension (d + b.degree)
  y.nonzero.foldlM (fun v (i, e) => do
    let w ← A.multiply e ⟨d, i⟩ b
    .ok (v.add A.prime 1 w)) (Vec.zero n)

end Algebra
end Steenrod
