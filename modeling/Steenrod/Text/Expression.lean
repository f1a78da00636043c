import Steenrod.Text.Token
import Steenrod.Failure
/-!
The texts of a presentation: products of algebra elements such as `Q_1 P(2)`, names of generators, sums such
as `x0 + 2 x1`, and relations `operation generator = sum`.
-/
namespace Steenrod

/-- One factor of a product of algebra elements. -/
inductive Factor
  | exterior (k : Nat)
  | power (n : Nat)
  | powers (exponents : List Nat)
  | unit
  deriving DecidableEq, Repr

/-- A product of factors, and whether one of them is a square. -/
structure Product where
  factors : List Factor
  usesSquares : Bool
  deriving DecidableEq, Repr

abbrev ModuleSum := List (Nat × String)

structure Relation where
  operation : String
  input : String
  output : ModuleSum
  deriving DecidableEq, Repr

namespace Text

/-- `Sq` or `P`, and whether it is a square. -/
def powerLetter : Reader Bool :=
  either (fun cs => (word ['S', 'q'] cs).map fun (_, cs) => (true, cs))
    (fun cs => (char 'P' cs).map fun (_, cs) => (false, cs))

/-- Exponents between brackets. -/
def exponentList : Reader (List Nat) := fun cs => do
  let (_, cs) ← char '(' cs
  let (r, cs) ← separatedOrNone (char ',') (spaced digits) cs
  let (_, cs) ← char ')' cs
  some (r, cs)

def bockstein : Reader (Factor × Bool) := fun cs =>
  (char 'b' cs).map fun (_, cs) => ((.exterior 0, false), cs)

def exteriorFactor : Reader (Factor × Bool) := fun cs => do
  let (_, cs) ← char 'Q' cs
  let (k, cs) ← digits (((char '_' cs).map (·.2)).getD cs)
  some ((.exterior k, false), cs)

def powersFactor : Reader (Factor × Bool) := fun cs => do
  let (square, cs) ← powerLetter cs
  let (r, cs) ← exponentList cs
  some ((.powers r, square), cs)

def powerFactor : Reader (Factor × Bool) := fun cs => do
  let (square, cs) ← powerLetter cs
  let (n, cs) ← digits cs
  some ((.power n, square), cs)

def unitFactor : Reader (Factor × Bool) := fun cs =>
  (char '1' cs).map fun (_, cs) => ((.unit, false), cs)

def factor : Reader (Factor × Bool) :=
  either bockstein (either exteriorFactor (either powersFactor (either powerFactor unitFactor)))

def product : Reader Product := fun cs =>
  (separated spaces factor cs).map fun (fs, cs) => (⟨fs.map (·.1), fs.any (·.2)⟩, cs)

def isNameStart (c : Char) : Bool := c.isAlpha || c == '_'

def isNameChar (c : Char) : Bool := c.isAlphanum || c == '_' || c == '.'

def name : Reader String
  | [] => none
  | c :: cs =>
    if isNameStart c then some (String.ofList (c :: cs.takeWhile isNameChar), cs.dropWhile isNameChar)
    else none

def isName (s : String) : Bool :=
  match s.toList with
  | [] => false
  | c :: cs => isNameStart c && cs.all isNameChar

/-- A coefficient, perhaps with a `*` after it. -/
def coefficient : Reader Nat := fun cs => do
  let (c, cs) ← digits cs
  let (_, cs) ← spaced (fun cs => some ((), ((char '*' cs).map (·.2)).getD cs)) cs
  some (c, cs)

def term : Reader (Nat × String) := fun cs => do
  let (c, cs) := (coefficient cs).getD (1, cs)
  let (n, cs) ← name cs
  some ((c, n), cs)

/-- The text `0` alone, the empty sum. -/
def emptySum : Reader ModuleSum := fun cs =>
  match spaced (char '0') cs with
  | some (_, []) => some ([], [])
  | _ => none

def moduleSum : Reader ModuleSum := either emptySum (separated (spaced (char '+')) term)

/-- What a reader makes of a whole text, blanks at its ends apart. -/
def whole {α : Type} (r : Reader α) (text : String) : Except (String × SyntaxFault) α :=
  let trimmed := trim text.toList
  match r trimmed with
  | some (a, []) => .ok a
  | some (_, rest) => .error (String.ofList trimmed, .trailing (String.ofList rest))
  | none => .error (String.ofList trimmed, .noMatch)

def asError {α : Type} : Except (String × SyntaxFault) α → Except Error α
  | .ok a => .ok a
  | .error (input, fault) => .error (.malformed input fault)

end Text

def Product.parse (text : String) : Except Error Product := Text.asError (Text.whole Text.product text)

def ModuleSum.parse (text : String) : Except Error ModuleSum :=
  Text.asError (Text.whole Text.moduleSum text)

/-- The relation written in a text. The generator is the last word before the first `=`. -/
def Relation.parse (text : String) : Except Error Relation := do
  let invalid {α : Type} (fault : RelationFault) : Except Error α :=
    .error (.invalidRelation text fault)
  let some (left, right) := Text.splitFirst (· == '=') text.toList | invalid .noEquals
  let some (before, word) := Text.splitLast Text.isBlank (Text.trim left) | invalid .noGenerator
  let operation := Text.trim before
  let input := Text.trim word
  if operation.isEmpty ∨ input.isEmpty then invalid .noGenerator
  else if !Text.isName (String.ofList input) then invalid .badName
  else
    match Text.whole Text.moduleSum (String.ofList right) with
    | .ok output => .ok ⟨String.ofList operation, String.ofList input, output⟩
    | .error (sum, fault) => invalid (.badOutput sum fault)

end Steenrod
