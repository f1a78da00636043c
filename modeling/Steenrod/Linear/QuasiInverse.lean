import Steenrod.Linear.Matrix
/-!
Kernel, image and quasi-inverse of a matrix `A`, read off the reduced form of `[A | I]`. A quasi-inverse `Q`
sends every vector of the row space of `A` to a preimage of it.
-/
namespace Steenrod

/-- Row `i` of `preimage` is a preimage of the `i`-th vector of the reduced image; `image` says which
columns lead one, by a negative number for those that do not, and its absence that all do. -/
structure QuasiInverse where
  image : Option (List Int)
  preimage : Matrix
  deriving DecidableEq, Repr

namespace QuasiInverse

def sourceDimension (Q : QuasiInverse) : Nat := Q.preimage.columns

def targetDimension (Q : QuasiInverse) : Nat := (Q.image.map List.length).getD Q.preimage.height

/-- For each of the first `n` columns, whether it leads a vector of the image. -/
def leading? (Q : QuasiInverse) (n : Nat) : Option (List Bool) :=
  match Q.image with
  | none => some (List.replicate n true)
  | some pivots => if n ≤ pivots.length then some ((pivots.take n).map (0 ≤ ·)) else none

/-- Add, modulo `q`, `c` times the rows of the preimage, from row `row` on, as the leading entries say. -/
def accumulate (q p : Prime) (Q : QuasiInverse) (c : Nat) :
    (row : Nat) → List (Bool × Nat) → Vec → Option Vec
  | _, [], result => some result
  | row, (false, _) :: rest, result => accumulate q p Q c row rest result
  | row, (true, x) :: rest, result =>
    if x = 0 then accumulate q p Q c (row + 1) rest result
    else
      match Q.preimage.row? row with
      | none => none
      | some r => accumulate q p Q c (row + 1) rest (result.add q (p.product c x) r)

/-- `result`, taken modulo `q`, plus `c` times a preimage of `v` over `p`. -/
def pullBack? (q p : Prime) (Q : QuasiInverse) (result : Vec) (c : Nat) (v : Vec) : Option Vec := do
  let flags ← Q.leading? v.size
  Q.accumulate q p c 0 (flags.zip v.toList) result

end QuasiInverse

/-- The row space of `[A | I]`, with the width of `A`. -/
structure Augmented where
  width : Nat
  space : Subspace
  deriving DecidableEq, Repr

namespace Augmented

def ofMatrix (p : Prime) (A : Matrix) : Augmented := ⟨A.columns, A.withIdentity.rowSpace p⟩

def height (R : Augmented) : Nat := R.space.columns - R.width

/-- The rows that lead in a column of `A`. -/
def imageRows (R : Augmented) : List Vec :=
  (R.space.leads.filter fun (c, _) => c < R.width).map (·.2)

/-- The rows that are zero in `A`. -/
def kernelRows (R : Augmented) : List Vec :=
  (R.space.leads.filter fun (c, _) => R.width ≤ c).map (·.2)

/-- The pivots in the columns of `A`. -/
def imagePivots (R : Augmented) : List (Option Nat) := R.space.pivots.take R.width

def image (p : Prime) (R : Augmented) : Subspace :=
  Subspace.span p R.width (R.imageRows.map fun v => v.block 0 R.width)

def kernel (p : Prime) (R : Augmented) : Subspace :=
  Subspace.span p R.height (R.kernelRows.map fun v => v.block R.width R.space.columns)

def quasiInverse (R : Augmented) : QuasiInverse :=
  ⟨some (R.imagePivots.map fun row => (row.map Int.ofNat).getD (-1)),
   ⟨R.height, R.imageRows.map fun v => v.block R.width R.space.columns⟩⟩

end Augmented
end Steenrod
