import Steenrod.Text.Blank
import Steenrod.Word
/-!
Readers of small pieces of text. A reader answers with a value and the rest of the text, or with nothing, and
then another reader may try the same text.
-/
namespace Steenrod
namespace Text

abbrev Reader (α : Type) := List Char → Option (α × List Char)

def char (c : Char) : Reader Unit
  | [] => none
  | d :: cs => if d = c then some ((), cs) else none

def word : List Char → Reader Unit
  | [], cs => some ((), cs)
  | c :: w, cs => (char c cs).bind fun (_, cs) => word w cs

def skipSpaces (cs : List Char) : List Char := cs.dropWhile isSpace

def digitValue (c : Char) : Nat := c.toNat - 48

def decimal (digits : List Char) : Nat := digits.foldl (fun n c => n * 10 + digitValue c) 0

/-- A number of one word, in decimal digits. -/
def digits : Reader Nat := fun cs =>
  let ds := cs.takeWhile Char.isDigit
  if ds.isEmpty ∨ maxWord < decimal ds then none else some (decimal ds, cs.dropWhile Char.isDigit)

/-- The value of a reader with spaces around it. -/
def spaced {α : Type} (r : Reader α) : Reader α := fun cs =>
  (r (skipSpaces cs)).map fun (a, cs) => (a, skipSpaces cs)

/-- Try `r` and, where it fails, `s`. -/
def either {α : Type} (r s : Reader α) : Reader α := fun cs => (r cs).or (s cs)

/-- Further items, each after a separator. A separator without an item after it is left unread. -/
def moreItems {α : Type} (separator : Reader Unit) (item : Reader α) :
    (fuel : Nat) → List Char → List α × List Char
  | 0, cs => ([], cs)
  | fuel + 1, cs =>
    match (separator cs).bind fun (_, cs) => item cs with
    | none => ([], cs)
    | some (a, cs) =>
      let (as, cs) := moreItems separator item fuel cs
      (a :: as, cs)

/-- One or more items between separators. -/
def separated {α : Type} (separator : Reader Unit) (item : Reader α) : Reader (List α) := fun cs =>
  (item cs).map fun (a, cs) =>
    let (as, cs) := moreItems separator item cs.length cs
    (a :: as, cs)

/-- Any number of items between separators. -/
def separatedOrNone {α : Type} (separator : Reader Unit) (item : Reader α) : Reader (List α) := fun cs =>
  some ((separated separator item cs).getD ([], cs))

/-- One or more spaces. -/
def spaces : Reader Unit
  | [] => none
  | c :: cs => if isSpace c then some ((), skipSpaces cs) else none

end Text
end Steenrod
