import Steenrod.Json.Reader
import Steenrod.Linear.Vec
import Steenrod.Prime.Text
/-!
Vectors as documents, together with their primes. A document is taken in from its front: what is in the way
further on does not undo what a prime before it led to.
-/
namespace Steenrod
namespace Vec

def toJson (p : Prime) (v : Vec) : Json :=
  .obj [("p", .ofNat p.val), ("entries", .arr (v.toList.map .ofNat))]

/-- The parts of a document that have been found. -/
structure Parts where
  prime : Option Prime
  entries : Option Vec

namespace Parts

def none : Parts := ⟨.none, .none⟩

def all? (x : Parts) : Option (Prime × Vec) := do
  let p ← x.prime
  let v ← x.entries
  some (p, v)

/-- The parts together with the prime in a document, unless there was one before. -/
def withPrime (x : Parts) (j : Json) : Result (Option Parts) := do
  if x.prime.isSome then .ok .none
  else
    let p ← Prime.ofJson j
    .ok (p.map fun p => ⟨some p, x.entries⟩)

/-- The parts together with the entries in a document, taken as they are, unless there were some before. -/
def withEntries (x : Parts) (j : Json) : Option Parts := do
  if x.entries.isSome then .none
  else
    let l ← j.elements?
    let l ← l.mapM Json.word?
    some ⟨x.prime, some ⟨l.toArray⟩⟩

/-- Take in members; keys of no meaning may repeat. -/
def ofMembers (x : Parts) : List (String × Json) → Result (Option Parts)
  | [] => .ok (some x)
  | (key, j) :: rest => do
    let next ←
      if key = "p" then x.withPrime j
      else if key = "entries" then .ok (x.withEntries j)
      else .ok (some x)
    match next with
    | some y => y.ofMembers rest
    | .none => .ok .none

/-- Take in the list of a prime and entries. -/
def ofElements : List Json → Result (Option Parts)
  | [] => .ok .none
  | j :: rest => do
    let x ← Parts.none.withPrime j
    match rest with
    | [j] => .ok (x.bind fun x => x.withEntries j)
    | _ => .ok .none

end Parts

/-- Read a document: an object with one member for the prime and one for the entries, or the list of both. -/
def ofText (text : String) : Result (Option (Prime × Vec)) := do
  let (parts, rest) ←
    match Json.skipGap text.toList with
    | '\x7b' :: rest => do
      let (members, rest) := Json.membersOf Json.string (Json.wanted ["p", "entries"]) rest
      let parts ← Parts.none.ofMembers members
      .ok (parts, rest)
    | '[' :: rest => do
      let (elements, rest) := Json.elementsOf Json.first? rest
      let parts ← Parts.ofElements elements
      .ok (parts, rest)
    | _ => .ok (.none, .none)
  match rest with
  | some rest => .ok (if Json.isBlank rest then parts.bind Parts.all? else .none)
  | .none => .ok .none

end Vec
end Steenrod
