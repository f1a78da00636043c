import Steenrod.Prime
import Steenrod.Json.Reader
import Steenrod.Text.Token
/-! Primes as texts and in documents. -/
namespace Steenrod
namespace Text

/-- An unsigned word in decimal, with an optional plus sign and nothing after it. -/
def word? (cs : List Char) : Option Nat :=
  let unsigned := match cs with
    | '+' :: rest => rest
    | _ => cs
  match digits unsigned with
  | some (n, []) => some n
  | _ => none

end Text

namespace Prime

/-- The prime of that value. -/
def check (n : Nat) : Result (Except NotPrime Prime) := do
  match ← ofNat n with
  | some p => .ok (.ok p)
  | none => .ok (.error ⟨n⟩)

/-- The prime that a text denotes, blank at its ends or not; a text that is no word counts as 0. -/
def ofText (s : String) : Result (Except NotPrime Prime) :=
  match Text.word? (Text.trim s.toList) with
  | some n => check n
  | none => .ok (.error ⟨0⟩)

/-- The prime that a document is, if it is one. -/
def ofJson (j : Json) : Result (Option Prime) :=
  match j.word? with
  | some n => ofNat n
  | none => .ok none

/-- The prime that is a whole text, if it is one. -/
def ofDocument (text : String) : Result (Option Prime) :=
  match Json.first? text.toList with
  | some (j, rest) => do
    let p ← ofJson j
    .ok (if Json.isBlank rest then p else none)
  | none => .ok none

end Prime
end Steenrod
