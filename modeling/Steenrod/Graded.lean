import Steenrod.Failure
import Steenrod.Word
/-!
Sequences indexed by the degrees from a least one on, which may be negative. Main statements: the range of
valid degrees, and what pushing does to look-ups.
-/
namespace Steenrod

structure Graded (α : Type) where
  minDegree : Int
  entries : Array α
  deriving DecidableEq, Repr

namespace Graded

variable {α β : Type}

def empty (minDegree : Int) : Graded α := ⟨minDegree, #[]⟩

def ofList (minDegree : Int) (l : List α) : Graded α := ⟨minDegree, l.toArray⟩

/-- The first degree without an entry. -/
def nextDegree (g : Graded α) : Int := g.minDegree + g.entries.size

def maxDegree (g : Graded α) : Int := g.nextDegree - 1

def isEmpty (g : Graded α) : Bool := g.entries.isEmpty

def get? (g : Graded α) (d : Int) : Option α :=
  if d < g.minDegree then none else g.entries[(d - g.minDegree).toNat]?

def has (g : Graded α) (d : Int) : Bool := g.minDegree ≤ d && d < g.nextDegree

def push (g : Graded α) (x : α) : Graded α := { g with entries := g.entries.push x }

/-- Push an entry that has to land in degree `d`. -/
def pushAt? (g : Graded α) (d : Int) (x : α) : Option (Graded α) :=
  if d = g.nextDegree then some (g.push x) else none

def modify (g : Graded α) (d : Int) (f : α → α) : Graded α :=
  if d < g.minDegree then g else { g with entries := g.entries.modify (d - g.minDegree).toNat f }

def set (g : Graded α) (d : Int) (x : α) : Graded α := g.modify d fun _ => x

def map (f : α → β) (g : Graded α) : Graded β := ⟨g.minDegree, g.entries.map f⟩

def last? (g : Graded α) : Option α := g.entries.back?

/-- The degrees with an entry, in order. -/
def degrees (g : Graded α) : List Int :=
  (List.range g.entries.size).map fun (i : Nat) => g.minDegree + i

def toList (g : Graded α) : List α := g.entries.toList

/-- Degrees with their entries, in order. -/
def pairs (g : Graded α) : List (Int × α) := g.degrees.zip g.toList

/-- Make `d` a valid degree, with `x` in the new ones. Their number has to be a signed word. -/
def fillTo? (g : Graded α) (d : Int) (x : α) : Option (Graded α) :=
  if d < g.nextDegree then some g
  else if maxSigned < d + 1 - g.minDegree then none
  else some { g with entries := g.entries ++ Array.replicate (d + 1 - g.nextDegree).toNat x }

/-- The least degree and the entries. -/
def describe [ToString α] (g : Graded α) : String :=
  let entries := ", ".intercalate (g.toList.map toString)
  s!"BiVec({g.minDegree}) [{entries}]"

@[simp] theorem get?_empty (m d : Int) : (empty m : Graded α).get? d = none := by
  simp [empty, get?]

@[simp] theorem minDegree_push (g : Graded α) (x : α) : (g.push x).minDegree = g.minDegree := rfl

@[simp] theorem nextDegree_push (g : Graded α) (x : α) : (g.push x).nextDegree = g.nextDegree + 1 := by
  simp [nextDegree, push, Int.add_assoc]

theorem get?_push (g : Graded α) (x : α) (d : Int) :
    (g.push x).get? d = if d = g.nextDegree then some x else g.get? d := by
  simp only [get?, push, nextDegree]
  by_cases hd : d < g.minDegree
  · have : d ≠ g.minDegree + g.entries.size := by omega
    simp [hd, this]
  · simp only [hd, if_false, Array.getElem?_push]
    by_cases h : d = g.minDegree + g.entries.size
    · rw [if_pos h, if_pos (by omega)]
    · have : (d - g.minDegree).toNat ≠ g.entries.size := by omega
      simp [h, this]

theorem get?_isSome_iff (g : Graded α) (d : Int) :
    (g.get? d).isSome = true ↔ g.minDegree ≤ d ∧ d < g.nextDegree := by
  simp only [get?, nextDegree]
  by_cases hd : d < g.minDegree
  · simp only [hd, if_true, Option.isSome_none, Bool.false_eq_true, false_iff]
    omega
  · simp only [hd, if_false, isSome_getElem?]
    omega

end Graded
end Steenrod
