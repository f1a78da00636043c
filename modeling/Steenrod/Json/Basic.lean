import Steenrod.Json.Real
import Steenrod.Word
/-!
Documents: JSON values whose objects keep the order of their keys. Numbers are integers of 64 bits or
binary floating point numbers, kept as their bits.
-/
namespace Steenrod

inductive Json
  | null
  | bool (b : Bool)
  | int (n : Int)
  | real (bits : UInt64)
  | str (s : String)
  | arr (elements : List Json)
  | obj (members : List (String × Json))
  deriving Repr, Inhabited

namespace Json

/-- The value of a key in an object. -/
def get? : Json → String → Option Json
  | obj members, key => (members.find? (·.1 == key)).map (·.2)
  | _, _ => none

def ofNat (n : Nat) : Json := int n

def ofOption {α : Type} (f : α → Json) : Option α → Json
  | none => null
  | some a => f a

/-- Set the value of a key at its place, or at the end if the key is new. -/
def put (members : List (String × Json)) (key : String) (value : Json) : List (String × Json) :=
  if members.any (·.1 == key) then
    members.map fun (k, v) => if k == key then (k, value) else (k, v)
  else members ++ [(key, value)]

/-- An object of the members, of which the last one of a key counts, at the place of the first. -/
def collect (members : List (String × Json)) : Json :=
  obj (members.foldl (fun acc (k, v) => put acc k v) [])

mutual

/-- The document without repeated keys. -/
def merge : Json → Json
  | arr elements => arr (mergeList elements)
  | obj members => collect (mergeMembers members)
  | j => j

def mergeList : List Json → List Json
  | [] => []
  | j :: js => j.merge :: mergeList js

def mergeMembers : List (String × Json) → List (String × Json)
  | [] => []
  | (k, v) :: rest => (k, v.merge) :: mergeMembers rest

end

/-- A whole number from `low` up to `high`. -/
def integerIn? (low high : Int) : Json → Option Int
  | int n => if low ≤ n ∧ n ≤ high then some n else none
  | _ => none

/-- An unsigned word of 32 bits. -/
def word? (j : Json) : Option Nat := (j.integerIn? 0 maxWord).map Int.toNat

/-- A signed word of 32 bits. -/
def signedWord? (j : Json) : Option Int := j.integerIn? (-maxSigned - 1) maxSigned

/-- Nothing for null, and else what `read` makes of the value. -/
def optional? {α : Type} (read : Json → Option α) : Json → Option (Option α)
  | null => some none
  | j => (read j).map some

def string? : Json → Option String
  | str s => some s
  | _ => none

def elements? : Json → Option (List Json)
  | arr elements => some elements
  | _ => none

def members? : Json → Option (List (String × Json))
  | obj members => some members
  | _ => none

end Json
end Steenrod
