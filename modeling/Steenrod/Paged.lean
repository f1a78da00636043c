import Steenrod.Graded
/-!
Append-only sequences kept in pages. Page `k` has room for `2 ^ k` entries, so that an entry never moves to
another place while the sequence grows. Main statement: an index and its place in the pages determine
each other.
-/
namespace Steenrod

structure Paged (α : Type) where
  pages : Array (Array α)
  size : Nat

namespace Paged

variable {α : Type}

/-- The page of an index and the offset in it: page `k` holds the indices from `2 ^ k - 1` on. -/
def locate (i : Nat) : Nat × Nat := ((i + 1).log2, i + 1 - (1 <<< (i + 1).log2))

/-- The index at an offset of a page. -/
def indexOf (page offset : Nat) : Nat := (1 <<< page) - 1 + offset

def empty : Paged α := ⟨#[], 0⟩

def isEmpty (s : Paged α) : Bool := s.size == 0

def get? (s : Paged α) (i : Nat) : Option α :=
  if i < s.size then
    let (page, offset) := locate i
    s.pages[page]?.bind (·[offset]?)
  else none

/-- Append at the next place, opening a new page where the last one is full. -/
def push (s : Paged α) (x : α) : Paged α :=
  let (page, offset) := locate s.size
  let pages := if offset = 0 then s.pages.push #[x] else s.pages.modify page (·.push x)
  ⟨pages, s.size + 1⟩

/-- Append an entry that has to land at index `i`. -/
def pushAt? (s : Paged α) (x : α) (i : Nat) : Option (Paged α) :=
  if i = s.size then some (s.push x) else none

/-- Append `f i` for the indices `i` from the end up to and including `last`. -/
def extend (s : Paged α) (last : Nat) (f : Nat → α) : Paged α :=
  (List.range' s.size (last + 1 - s.size)).foldl (fun s i => s.push (f i)) s

def ofList (l : List α) : Paged α := l.foldl push empty

def toList (s : Paged α) : List α := (List.range s.size).filterMap s.get?

def last? (s : Paged α) : Option α := if s.size = 0 then none else s.get? (s.size - 1)

def equals [BEq α] (s t : Paged α) : Bool := s.toList == t.toList

def describe [ToString α] (s : Paged α) : String :=
  "[" ++ ", ".intercalate (s.toList.map toString) ++ "]"

theorem locate_offset_lt (i : Nat) : (locate i).2 < 1 <<< (locate i).1 := by
  have h1 := Nat.log2_self_le (n := i + 1) (by omega)
  have h2 := Nat.lt_log2_self (n := i + 1)
  simp only [locate, Nat.one_shiftLeft]
  rw [Nat.pow_succ] at h2
  omega

theorem indexOf_locate (i : Nat) : indexOf (locate i).1 (locate i).2 = i := by
  have h1 := Nat.log2_self_le (n := i + 1) (by omega)
  have h2 := Nat.pos_of_ne_zero (n := 2 ^ (i + 1).log2) (by simp)
  simp only [locate, indexOf, Nat.one_shiftLeft]
  omega

theorem locate_indexOf {page offset : Nat} (h : offset < 1 <<< page) :
    locate (indexOf page offset) = (page, offset) := by
  rw [Nat.one_shiftLeft] at h
  have hpos : 0 < 2 ^ page := Nat.pow_pos (by decide)
  have hi : indexOf page offset + 1 = 2 ^ page + offset := by
    rw [indexOf, Nat.one_shiftLeft]
    omega
  have hlog : (2 ^ page + offset).log2 = page := by
    rw [Nat.log2_eq_iff (by omega), Nat.pow_succ]
    omega
  simp only [locate, hi, hlog, Nat.one_shiftLeft]
  congr 1
  omega

end Paged

/-- An append-only sequence indexed by the degrees from a least one on. -/
structure GradedLog (α : Type) where
  minDegree : Int
  log : Paged α

namespace GradedLog

variable {α : Type}

def empty (minDegree : Int) : GradedLog α := ⟨minDegree, Paged.empty⟩

def nextDegree (s : GradedLog α) : Int := s.minDegree + s.log.size

def get? (s : GradedLog α) (d : Int) : Option α :=
  if d < s.minDegree then none else s.log.get? (d - s.minDegree).toNat

def push (s : GradedLog α) (x : α) : GradedLog α := { s with log := s.log.push x }

def pushAt? (s : GradedLog α) (x : α) (d : Int) : Option (GradedLog α) :=
  if d < s.minDegree then none
  else (s.log.pushAt? x (d - s.minDegree).toNat).map fun log => { s with log }

/-- Append `f d` for the degrees `d` from the end up to and including `last`. -/
def extend (s : GradedLog α) (last : Int) (f : Int → α) : GradedLog α :=
  if last < s.minDegree then s
  else { s with log := s.log.extend (last - s.minDegree).toNat fun (i : Nat) => f (s.minDegree + i) }

def toGraded (s : GradedLog α) : Graded α := Graded.ofList s.minDegree s.log.toList

/-- The least degree and the entries. -/
def describe [ToString α] (s : GradedLog α) : String :=
  let entries := s.log.describe
  s!"OnceBiVec({s.minDegree}) {entries}"

end GradedLog
end Steenrod
