import Steenrod.Linear.Subspace
/-!
Matrices, acting on row vectors: row `i` is the image of the `i`-th basis vector. Row reduction lists the
reduced basis of the row space and then zero rows.
-/
namespace Steenrod

structure Matrix where
  columns : Nat
  rows : List Vec
  deriving DecidableEq, Repr

namespace Matrix

def zero (rows columns : Nat) : Matrix := ⟨columns, List.replicate rows (Vec.zero columns)⟩

/-- The matrix with those rows, which all have to be of length `columns`. -/
def ofRows? (columns : Nat) (rows : List Vec) : Option Matrix :=
  if rows.all (·.size == columns) then some ⟨columns, rows⟩ else none

def identity (n : Nat) : Matrix := ⟨n, (List.range n).map (Vec.unit n)⟩

def height (M : Matrix) : Nat := M.rows.length

def rowSpace (p : Prime) (M : Matrix) : Subspace := Subspace.span p M.columns M.rows

def rank (p : Prime) (M : Matrix) : Nat := (M.rowSpace p).dimension

/-- The reduced row echelon form. -/
def rowReduce (p : Prime) (M : Matrix) : Matrix :=
  let S := M.rowSpace p
  ⟨M.columns, S.basis ++ List.replicate (M.height - S.dimension) (Vec.zero M.columns)⟩

def row? (M : Matrix) (i : Nat) : Option Vec := M.rows[i]?

def pushRow (M : Matrix) (v : Vec) : Matrix := { M with rows := M.rows ++ [v] }

/-- Change row `i`. -/
def modifyRow? (M : Matrix) (i : Nat) (f : Vec → Option Vec) : Option Matrix := do
  let r ← M.rows[i]?
  let r ← f r
  some { M with rows := M.rows.set i r }

def scale (p : Prime) (c : Nat) (M : Matrix) : Matrix := { M with rows := M.rows.map (Vec.scale p c) }

/-- `c v M`. -/
def image? (p : Prime) (M : Matrix) (c : Nat) (v : Vec) : Option Vec :=
  v.nonzero.foldlM
    (fun result (i, x) => (M.rows[i]?).map fun r => result.add p (p.product x c) r)
    (Vec.zero M.columns)

/-- Change the columns from `start` up to `stop` of one row. -/
def modifyBlock? (start stop : Nat) (f : Vec → Option Vec) (v : Vec) : Option Vec := do
  let b ← v.block? start stop
  let b ← f b
  v.splice? start b

/-- Add the identity to the top left square of the block of columns `start` up to `stop`. -/
def addIdentity? (p : Prime) (M : Matrix) (start stop : Nat) : Option Matrix :=
  if stop < start then none
  else do
    let n := min M.height (stop - start)
    let rows ← M.rows.zipIdx.mapM fun (r, i) =>
      if i < n then modifyBlock? start stop (fun b => b.addAt? p i 1) r else some r
    some { M with rows }

def scaleBlock? (p : Prime) (M : Matrix) (start stop c : Nat) : Option Matrix := do
  let rows ← M.rows.mapM (modifyBlock? start stop fun b => some (b.scale p c))
  some { M with rows }

def addToBlock? (p : Prime) (M : Matrix) (start stop i : Nat) (v : Vec) (c : Nat) : Option Matrix :=
  M.modifyRow? i (modifyBlock? start stop fun b => some (b.add p c v))

/-- `[M | I]`. -/
def withIdentity (M : Matrix) : Matrix :=
  ⟨M.columns + M.height, M.rows.zipIdx.map fun (r, i) => r.append (Vec.unit M.height i)⟩

def toString (M : Matrix) : String := "[" ++ ", ".intercalate (M.rows.map Vec.toString) ++ "]"

instance : ToString Matrix := ⟨toString⟩

def describe (p : Prime) (M : Matrix) : String := s!"Matrix(p = {p.val}, {M})"

@[simp] theorem height_withIdentity (M : Matrix) : M.withIdentity.height = M.height := by
  simp [withIdentity, height]

end Matrix
end Steenrod
