import Steenrod.Linear.Vec
/-!
Subspaces of coordinate spaces, kept as their reduced echelon basis: each row has a leading entry 1, the
leading columns increase, and every other row is zero there. The basis grows by inserting vectors.
-/
namespace Steenrod

structure Subspace where
  columns : Nat
  /-- The rows of the basis, each with the column of its leading entry. -/
  leads : List (Nat × Vec)
  deriving DecidableEq, Repr

namespace Subspace

def empty (n : Nat) : Subspace := ⟨n, []⟩

def entire (n : Nat) : Subspace := ⟨n, (List.range n).map fun i => (i, Vec.unit n i)⟩

def dimension (S : Subspace) : Nat := S.leads.length

def basis (S : Subspace) : List Vec := S.leads.map (·.2)

/-- For each column the row that leads in it. -/
def pivots (S : Subspace) : List (Option Nat) :=
  (List.range S.columns).map fun c => S.leads.findIdx? (·.1 == c)

/-- Subtract from `v` the multiples of rows that clear the leading columns. -/
def reduceBy (p : Prime) (leads : List (Nat × Vec)) (v : Vec) : Vec :=
  leads.foldl (fun v (c, row) => v.add p (p.negate (v.entry c)) row) v

def reduce (p : Prime) (S : Subspace) (v : Vec) : Vec := reduceBy p S.leads v

/-- Put a row at its place in the order of leading columns. -/
def place (c : Nat) (row : Vec) : List (Nat × Vec) → List (Nat × Vec)
  | [] => [(c, row)]
  | (d, r) :: rest => if c < d then (c, row) :: (d, r) :: rest else (d, r) :: place c row rest

/-- The span of `S` and `v`. -/
def insert (p : Prime) (S : Subspace) (v : Vec) : Subspace :=
  let r := S.reduce p v
  match r.firstNonzero? with
  | none => S
  | some (c, x) =>
    let u := r.scale p (p.inverse x)
    { S with leads := place c u (S.leads.map fun (d, row) => (d, row.add p (p.negate (row.entry c)) u)) }

def span (p : Prime) (n : Nat) (rows : List Vec) : Subspace :=
  rows.foldl (insert p) (empty n)

/-- The span of rows that all have to be of length `n`. -/
def ofRows? (p : Prime) (n : Nat) (rows : List Vec) : Option Subspace :=
  if rows.all (·.size == n) then some (span p n rows) else none

/-- Whether `v` has an entry in every leading column. -/
def covers (S : Subspace) (v : Vec) : Bool := S.leads.all fun (c, _) => c < v.size

def reduce? (p : Prime) (S : Subspace) (v : Vec) : Option Vec :=
  if S.covers v then some (S.reduce p v) else none

def contains? (p : Prime) (S : Subspace) (v : Vec) : Option Bool :=
  (S.reduce? p v).map Vec.isZero

/-- The span of `S` and `v`, and whether the dimension went up. -/
def insert? (p : Prime) (S : Subspace) (v : Vec) : Option (Bool × Subspace) := do
  let r ← S.reduce? p v
  if r.isZero then some (false, S) else some (true, S.insert p v)

def toString (S : Subspace) : String := "[" ++ ", ".intercalate (S.basis.map Vec.toString) ++ "]"

instance : ToString Subspace := ⟨toString⟩

def describe (p : Prime) (S : Subspace) : String := s!"Subspace(p = {p.val}, {S})"

@[simp] theorem length_place (c : Nat) (row : Vec) (l : List (Nat × Vec)) :
    (place c row l).length = l.length + 1 := by
  induction l with
  | nil => rfl
  | cons x l ih =>
    unfold place
    split <;> simp [ih]

@[simp] theorem columns_insert (p : Prime) (S : Subspace) (v : Vec) :
    (S.insert p v).columns = S.columns := by
  unfold insert
  dsimp only
  split <;> rfl

@[simp] theorem columns_span (p : Prime) (n : Nat) (rows : List Vec) :
    (span p n rows).columns = n := by
  have h : ∀ S : Subspace, (rows.foldl (insert p) S).columns = S.columns := by
    induction rows with
    | nil => intro S; rfl
    | cons v rows ih => intro S; rw [List.foldl_cons, ih, columns_insert]
  exact h _

@[simp] theorem length_pivots (S : Subspace) : S.pivots.length = S.columns := by simp [pivots]

end Subspace
end Steenrod
