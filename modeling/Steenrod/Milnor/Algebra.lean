import Steenrod.Milnor.Basis
import Steenrod.Table
import Steenrod.Linear.Vec
/-!
The algebra with the part of its basis that has been computed. Reading a degree that was not computed is a
breach. Computing goes degree by degree and never changes what is there; only `ensure` respects the cap.
-/
namespace Steenrod

/-- A basis element of the algebra, by its degree and its place in the basis of that degree. -/
structure Operation where
  degree : Int
  index : Nat
  deriving DecidableEq, Repr

/-- The product `coefficient * left * right`. -/
structure Term where
  coefficient : Nat
  left : Operation
  right : Operation
  deriving DecidableEq, Repr

structure Algebra where
  prime : Prime
  cap : Option Int
  sequences : Table (Milnor.sequences prime)
  basis : Table (Milnor.basis prime)

/-- A computation that may extend the basis of the algebra. What it computed stays if it fails. -/
abbrev Growing := ExceptT Failure (StateM Algebra)

namespace Milnor

/-- The next row of the table of sequences. -/
def nextSequences (p : Prime) (t : Table (sequences p)) : { x // x = sequences p t.size } :=
  ⟨exponentRow (weights p) (fun m => if m < t.size then t.lookup m else []) t.size, by
    rw [sequences, exponents]
    simp [sequences]⟩

/-- The next row of the basis. -/
def nextBasis (p : Prime) (e : Table (sequences p)) (t : Table (basis p)) :
    { x // x = basis p t.size } :=
  ⟨basisRow p e.lookup t.size, by
    rw [basis]
    congr 1
    funext n
    simp⟩

end Milnor

namespace Algebra

def new (p : Prime) (cap : Option Int) : Algebra := ⟨p, cap, Table.empty, Table.empty⟩

def name (A : Algebra) : String := s!"MilnorAlgebra(p={A.prime.val})"

/-- The number of degrees computed. -/
def computed (A : Algebra) : Nat := A.basis.size

/-- The algebra with its basis through degree `d`. -/
def extend (A : Algebra) (d : Int) : Algebra :=
  if d < A.computed then A
  else
    let sequences := A.sequences.extendTo (Milnor.nextSequences A.prime) (d / A.prime.q).toNat
    { A with sequences, basis := A.basis.extendTo (Milnor.nextBasis A.prime sequences) d.toNat }

/-- The basis in degree `d`. -/
def basisAt (A : Algebra) (d : Int) : Result (Array MilnorElement) :=
  if d < 0 then breach else Result.ofOption (A.basis.get? d.toNat)

def dimension (A : Algebra) (d : Int) : Result Nat :=
  if d < 0 then .ok 0 else (A.basisAt d).map Array.size

def element (A : Algebra) (a : Operation) : Result MilnorElement := do
  let row ← A.basisAt a.degree
  Result.ofOption row[a.index]?

def indexIn? (A : Algebra) (d : Int) (x : MilnorElement) : Option Nat :=
  if d < 0 then none else (A.basis.get? d.toNat).bind (·.idxOf? x)

def indexIn (A : Algebra) (d : Int) (x : MilnorElement) : Result Nat := Result.ofOption (A.indexIn? d x)

/-- `Q_0^e P^n`. -/
def bocksteinPower (A : Algebra) (e n : Nat) : Result Operation := do
  let d := A.prime.q * n + e
  let index ← A.indexIn d ⟨e, if n = 0 then [] else [n]⟩
  .ok ⟨d, index⟩

def nameOf (A : Algebra) (a : Operation) : Result String := do
  let x ← A.element a
  .ok (x.name A.prime)

def shortNameOf (A : Algebra) (a : Operation) : Result String := do
  let x ← A.element a
  .ok (x.shortName A.prime)

/-- The text of an element of degree `d`: coefficients other than 1 before names, or `0`. -/
def elementText (A : Algebra) (d : Int) (v : Vec) : Result String := do
  let terms ← v.nonzero.mapM fun (i, c) => do
    let name ← A.nameOf ⟨d, i⟩
    .ok (if c = 1 then name else s!"{c} * {name}")
  .ok (if terms.isEmpty then "0" else " + ".intercalate terms)

@[simp] theorem prime_extend (A : Algebra) (d : Int) : (A.extend d).prime = A.prime := by
  unfold extend
  split <;> rfl

@[simp] theorem cap_extend (A : Algebra) (d : Int) : (A.extend d).cap = A.cap := by
  unfold extend
  split <;> rfl

theorem computed_extend (A : Algebra) (d : Int) :
    (A.extend d).computed = if d < A.computed then A.computed else (d + 1).toNat := by
  unfold extend
  split
  · rfl
  · next h =>
    simp only [computed, Table.size_extendTo] at h ⊢
    omega

theorem basisAt_eq (A : Algebra) (d : Nat) :
    A.basisAt d = if d < A.computed then .ok (Milnor.basis A.prime d) else breach := by
  have hd : ¬((d : Int) < 0) := by omega
  simp only [basisAt, hd, if_false, Int.toNat_natCast, Table.get?_eq, computed]
  by_cases h : d < A.basis.size <;> simp [h]

end Algebra

namespace Growing

/-- Compute the basis through degree `d`, which has to be a signed word. Primes whose signed word is negative
admit degree 0 only. -/
def compute (d : Int) : Growing Unit := do
  let A ← get
  if d < A.computed then pure ()
  else
    if maxSigned < d ∨ (A.prime.signed < 0 ∧ 0 < d) then throw Failure.breach
    set (A.extend d)

/-- Compute the basis through degree `d`, unless that exceeds the cap. -/
def ensure (d : Int) : Growing Unit := do
  match (← get).cap with
  | some cap => if cap < d then throw (Failure.refused (.insufficientAlgebra d cap)) else compute d
  | none => compute d

/-- What can be read off the algebra as it is. -/
def read {α : Type} (f : Algebra → Result α) : Growing α := do
  match f (← get) with
  | .ok a => pure a
  | .error e => throw e

/-- Run on an algebra: the outcome and the algebra afterwards. -/
def run {α : Type} (x : Growing α) (A : Algebra) : Result α × Algebra := StateT.run (ExceptT.run x) A

end Growing
end Steenrod
