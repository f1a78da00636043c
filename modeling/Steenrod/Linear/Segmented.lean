import Steenrod.Linear.Matrix
import Steenrod.Total
/-! Matrices whose columns are split into consecutive segments. -/
namespace Steenrod

structure Segmented where
  widths : List Nat
  matrix : Matrix
  deriving DecidableEq, Repr

namespace Segmented

def ofRows? (widths : List Nat) (rows : List Vec) : Option Segmented :=
  (Matrix.ofRows? (total widths) rows).map fun matrix => ⟨widths, matrix⟩

/-- The first column of segment `first` and the column after segment `last`. -/
def bounds? (M : Segmented) (first last : Nat) : Option (Nat × Nat) :=
  if first < M.widths.length ∧ last < M.widths.length then
    some (total (M.widths.take first), total (M.widths.take (last + 1)))
  else none

def width? (M : Segmented) (i : Nat) : Option Nat := M.widths[i]?

def rowSegment? (M : Segmented) (i first last : Nat) : Option Vec := do
  let r ← M.matrix.row? i
  let (start, stop) ← M.bounds? first last
  r.block? start stop

def addIdentity? (p : Prime) (M : Segmented) (first last : Nat) : Option Segmented := do
  let (start, stop) ← M.bounds? first last
  let matrix ← M.matrix.addIdentity? p start stop
  some { M with matrix }

def rowReduce (p : Prime) (M : Segmented) : Segmented := { M with matrix := M.matrix.rowReduce p }

end Segmented
end Steenrod
