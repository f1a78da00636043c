import Steenrod.Prime
/-!
Coordinate vectors over the field of a prime. The entries are natural numbers, reduced by every operation
that changes them. Main statements: sizes, and entry by entry what addition and scaling do.
-/
namespace Steenrod

structure Vec where
  entries : Array Nat
  deriving DecidableEq, Repr

namespace Vec

def size (v : Vec) : Nat := v.entries.size

def zero (n : Nat) : Vec := ⟨Array.replicate n 0⟩

def ofList (p : Prime) (l : List Nat) : Vec := ⟨(l.map (· % p.val)).toArray⟩

def toList (v : Vec) : List Nat := v.entries.toList

/-- The entry at `i`, zero beyond the end. -/
def entry (v : Vec) (i : Nat) : Nat := v.entries[i]?.getD 0

def entry? (v : Vec) (i : Nat) : Option Nat := v.entries[i]?

def set? (p : Prime) (v : Vec) (i c : Nat) : Option Vec :=
  if i < v.size then some ⟨v.entries.setIfInBounds i (c % p.val)⟩ else none

/-- `v` with `c` added at `i`, unchanged if there is no such entry. -/
def addAt (p : Prime) (v : Vec) (i c : Nat) : Vec :=
  ⟨v.entries.modify i fun x => p.sum x c⟩

def addAt? (p : Prime) (v : Vec) (i c : Nat) : Option Vec :=
  if i < v.size then some (v.addAt p i c) else none

def unit (n i : Nat) : Vec := ⟨(Array.replicate n 0).setIfInBounds i 1⟩

/-- `v + c w`; entries beyond the end of `w` stay. -/
def add (p : Prime) (v : Vec) (c : Nat) (w : Vec) : Vec :=
  if c % p.val = 0 then v
  else ⟨v.entries.mapIdx fun i x =>
    match w.entries[i]? with
    | some y => (x + c % p.val * y) % p.val
    | none => x⟩

def scale (p : Prime) (c : Nat) (v : Vec) : Vec := ⟨v.entries.map fun x => p.product x (c % p.val)⟩

def isZero (v : Vec) : Bool := v.entries.all (· == 0)

/-- Positions and values of the entries that are not zero, in order. -/
def nonzero (v : Vec) : List (Nat × Nat) :=
  v.toList.zipIdx.filterMap fun (x, i) => if x = 0 then none else some (i, x)

def firstNonzero? (v : Vec) : Option (Nat × Nat) := v.nonzero.head?

/-- `v` with zeros at its end up to size `n`. -/
def padTo (v : Vec) (n : Nat) : Vec := ⟨v.entries ++ Array.replicate (n - v.size) 0⟩

def append (v w : Vec) : Vec := ⟨v.entries ++ w.entries⟩

/-- The entries from `start` up to `stop`, as far as there are any. -/
def block (v : Vec) (start stop : Nat) : Vec := ⟨v.entries.extract start stop⟩

def block? (v : Vec) (start stop : Nat) : Option Vec :=
  if start ≤ stop ∧ stop ≤ v.size then some (v.block start stop) else none

/-- `v` with the entries from `start` on replaced by those of `w`. -/
def splice (v : Vec) (start : Nat) (w : Vec) : Vec :=
  ((v.block 0 start).append w).append (v.block (start + w.size) v.size)

def splice? (v : Vec) (start : Nat) (w : Vec) : Option Vec :=
  if start + w.size ≤ v.size then some (v.splice start w) else none

/-- `w` itself, if it can take the place of `v`. -/
def assign? (v w : Vec) : Option Vec := if v.size = w.size then some w else none

/-- `v` with `c w` added to the entries from `start` on. -/
def addBlock? (p : Prime) (v : Vec) (start c : Nat) (w : Vec) : Option Vec := do
  let b ← v.block? start (start + w.size)
  some (v.splice start (b.add p c w))

/-- `v + c (left ⊗ right)`, the tensor product written row by row from `offset` on. -/
def addTensor? (p : Prime) (v : Vec) (offset c : Nat) (left right : Vec) : Option Vec :=
  left.nonzero.foldlM
    (fun v (i, x) => v.addBlock? p (offset + i * right.size) (p.product x c) right) v

def toString (v : Vec) : String := "[" ++ ", ".intercalate (v.toList.map Nat.repr) ++ "]"

instance : ToString Vec := ⟨toString⟩

/-- The vector together with its prime. -/
def describe (p : Prime) (v : Vec) : String := s!"FpVector(p = {p.val}, {v})"

@[simp] theorem size_zero (n : Nat) : (zero n).size = n := by simp [zero, size]

@[simp] theorem size_ofList (p : Prime) (l : List Nat) : (ofList p l).size = l.length := by
  simp [ofList, size]

@[simp] theorem size_unit (n i : Nat) : (unit n i).size = n := by simp [unit, size]

@[simp] theorem size_add (p : Prime) (v : Vec) (c : Nat) (w : Vec) : (v.add p c w).size = v.size := by
  unfold add size
  split <;> simp

@[simp] theorem size_scale (p : Prime) (c : Nat) (v : Vec) : (v.scale p c).size = v.size := by
  simp [scale, size]

@[simp] theorem size_addAt (p : Prime) (v : Vec) (i c : Nat) : (v.addAt p i c).size = v.size := by
  simp [addAt, size]

@[simp] theorem size_append (v w : Vec) : (v.append w).size = v.size + w.size := by
  simp [append, size]

@[simp] theorem size_padTo (v : Vec) (n : Nat) : (v.padTo n).size = max v.size n := by
  simp only [padTo, size, Array.size_append, Array.size_replicate]
  omega

@[simp] theorem size_block (v : Vec) (a b : Nat) : (v.block a b).size = min b v.size - a := by
  simp [block, size]

@[simp] theorem entry_zero (n i : Nat) : (zero n).entry i = 0 := by
  unfold entry zero
  by_cases h : i < n <;> simp [h]

theorem entry_eq_zero_of_size_le {v : Vec} {i : Nat} (h : v.size ≤ i) : v.entry i = 0 := by
  unfold entry
  unfold size at h
  simp [h]

theorem entry_scale (p : Prime) (c : Nat) (v : Vec) (i : Nat) :
    (v.scale p c).entry i = v.entry i * c % p.val := by
  unfold entry scale
  by_cases h : i < v.entries.size <;> simp [h, Prime.product]

theorem entry_add (p : Prime) (v : Vec) (c : Nat) (w : Vec) (i : Nat)
    (hv : v.entry i < p.val) (hi : i < v.size) :
    (v.add p c w).entry i = (v.entry i + c * w.entry i) % p.val := by
  unfold add
  split
  · next hc =>
    rw [Nat.add_mod, Nat.mul_mod, hc, Nat.zero_mul, Nat.zero_mod, Nat.add_zero, Nat.mod_mod,
      Nat.mod_eq_of_lt hv]
  · unfold size at hi
    have hm : (v.entry i + c % p.val * w.entry i) % p.val = (v.entry i + c * w.entry i) % p.val := by
      rw [Nat.add_mod, Nat.mul_mod, Nat.mod_mod, ← Nat.mul_mod, ← Nat.add_mod]
    rw [← hm]
    unfold entry at hv ⊢
    by_cases hw : i < w.entries.size
    · simp [hi, hw]
    · simp only [Array.getElem?_eq_getElem hi, Option.getD_some] at hv
      simp [hi, hw, Nat.mod_eq_of_lt hv]

/-- Every entry lies below the prime. -/
def Reduced (p : Prime) (v : Vec) : Prop := ∀ x ∈ v.entries, x < p.val

theorem reduced_zero (p : Prime) (n : Nat) : (zero n).Reduced p := by
  intro x hx
  simp only [zero, Array.mem_replicate] at hx
  rw [hx.2]
  exact p.pos

theorem reduced_ofList (p : Prime) (l : List Nat) : (ofList p l).Reduced p := by
  intro x hx
  simp only [ofList, List.mem_toArray, List.mem_map] at hx
  obtain ⟨y, _, rfl⟩ := hx
  exact Nat.mod_lt _ p.pos

theorem reduced_scale (p : Prime) (c : Nat) (v : Vec) : (v.scale p c).Reduced p := by
  intro x hx
  simp only [scale, Array.mem_map] at hx
  obtain ⟨y, _, rfl⟩ := hx
  exact p.product_lt _ _

theorem reduced_add (p : Prime) {v : Vec} (hv : v.Reduced p) (c : Nat) (w : Vec) :
    (v.add p c w).Reduced p := by
  unfold add
  split
  · exact hv
  · intro x hx
    simp only [Array.mem_mapIdx] at hx
    obtain ⟨i, hi, rfl⟩ := hx
    split
    · exact Nat.mod_lt _ p.pos
    · exact hv _ (Array.getElem_mem hi)

end Vec
end Steenrod
