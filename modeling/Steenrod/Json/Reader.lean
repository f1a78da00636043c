import Steenrod.Json.Basic
/-!
Reading documents. A reader answers with a value and the rest of the text, or with nothing. Nesting is
limited, and repeated keys are kept: who reads the document says what they mean. Values that nobody asks for
are passed over; then only the grammar counts, not what the value would be.
-/
namespace Steenrod
namespace Json

abbrev Rest := List Char

def isGap (c : Char) : Bool := c == ' ' || c == '\n' || c == '\t' || c == '\r'

def skipGap (cs : Rest) : Rest := cs.dropWhile isGap

def digitValue? (c : Char) : Option Nat := if c.isDigit then some (c.toNat - 48) else none

def hexValue? (c : Char) : Option Nat :=
  if c.isDigit then some (c.toNat - 48)
  else if 'a' ≤ c ∧ c ≤ 'f' then some (c.toNat - 87)
  else if 'A' ≤ c ∧ c ≤ 'F' then some (c.toNat - 55)
  else none

def hex4? (a b c d : Char) : Option Nat := do
  let a ← hexValue? a
  let b ← hexValue? b
  let c ← hexValue? c
  let d ← hexValue? d
  some (((a * 16 + b) * 16 + c) * 16 + d)

/-- The characters of a string up to its closing quote. -/
def stringBody : Rest → List Char → Option (List Char × Rest)
  | [], _ => none
  | '"' :: rest, acc => some (acc.reverse, rest)
  | '\\' :: 'u' :: a :: b :: c :: d :: rest, acc => do
    let n ← hex4? a b c d
    if n < 0xD800 ∨ 0xDFFF < n then stringBody rest (Char.ofNat n :: acc)
    else if 0xDC00 ≤ n then none
    else
      match rest with
      | '\\' :: 'u' :: a :: b :: c :: d :: rest => do
        let m ← hex4? a b c d
        if m < 0xDC00 ∨ 0xDFFF < m then none
        else stringBody rest (Char.ofNat (0x10000 + (n - 0xD800) * 0x400 + (m - 0xDC00)) :: acc)
      | _ => none
  | '\\' :: c :: rest, acc =>
    match c with
    | '"' => stringBody rest ('"' :: acc)
    | '\\' => stringBody rest ('\\' :: acc)
    | '/' => stringBody rest ('/' :: acc)
    | 'b' => stringBody rest (Char.ofNat 8 :: acc)
    | 'f' => stringBody rest (Char.ofNat 12 :: acc)
    | 'n' => stringBody rest ('\n' :: acc)
    | 'r' => stringBody rest ('\r' :: acc)
    | 't' => stringBody rest ('\t' :: acc)
    | _ => none
  | c :: rest, acc => if c.toNat < 0x20 ∨ c = '\\' then none else stringBody rest (c :: acc)

/-- The text after a string whose characters do not matter. -/
def passString : Rest → Option Rest
  | [] => none
  | '"' :: rest => some rest
  | '\\' :: 'u' :: a :: b :: c :: d :: rest => do
    let _ ← hex4? a b c d
    passString rest
  | '\\' :: c :: rest => if ['"', '\\', '/', 'b', 'f', 'n', 'r', 't'].contains c then passString rest else none
  | c :: rest => if c.toNat < 0x20 ∨ c = '\\' then none else passString rest

/-- The largest whole number of 64 bits. -/
def maxUnsigned64 : Nat := 18446744073709551615

/-- The largest whole number whose negative fits 64 bits. -/
def maxNegated64 : Nat := 9223372036854775808

/-- The digits at the front of the text, up to the first that does not fit into the number. Answers with the
number, how many digits it took, and the digits left over. -/
def takeDigits : (n count : Nat) → List Nat → Nat × Nat × List Nat
  | n, count, [] => (n, count, [])
  | n, count, d :: ds =>
    if maxUnsigned64 < n * 10 + d then (n, count, d :: ds) else takeDigits (n * 10 + d) (count + 1) ds

/-- The exponent of a number, if there is one: its sign and digits. -/
def exponentPart : Rest → Option (Option (Bool × List Nat) × Rest)
  | c :: rest =>
    if c = 'e' ∨ c = 'E' then
      let (negative, rest) :=
        match rest with
        | '-' :: r => (true, r)
        | '+' :: r => (false, r)
        | r => (false, r)
      let digits := (rest.takeWhile Char.isDigit).filterMap digitValue?
      if digits.isEmpty then none
      else some (some (negative, digits), rest.dropWhile Char.isDigit)
    else some (none, c :: rest)
  | [] => some (none, [])

/-- A number as it is written, without its sign: the digits before and after the point, and the exponent. -/
structure Numeral where
  whole : List Nat
  fraction : Option (List Nat)
  exponent : Option (Bool × List Nat)

def digitsAhead (cs : Rest) : List Nat := (cs.takeWhile Char.isDigit).filterMap digitValue?

/-- A number after its sign. -/
def numeral (cs : Rest) : Option (Numeral × Rest) :=
  let whole := digitsAhead cs
  let cs := cs.dropWhile Char.isDigit
  if whole.isEmpty ∨ (whole.head? = some 0 ∧ 1 < whole.length) then none
  else
    match cs with
    | '.' :: rest =>
      let fraction := digitsAhead rest
      if fraction.isEmpty then none
      else (exponentPart (rest.dropWhile Char.isDigit)).map fun (e, rest) => (⟨whole, some fraction, e⟩, rest)
    | cs => (exponentPart cs).map fun (e, rest) => (⟨whole, none, e⟩, rest)

namespace Numeral

/-- The binary number that is written. -/
def real? (x : Numeral) (negative : Bool) : Option Json :=
  let (n, _, left) := takeDigits 0 0 x.whole
  let (n, places, _) := takeDigits n 0 (x.fraction.getD [])
  let shift : Int := (left.length : Int) - (places : Int)
  match x.exponent with
  | none => (realBits? negative n shift).map real
  | some (down, digits) =>
    let e : Nat := digits.foldl (fun e d => e * 10 + d) 0
    if maxSigned < e then
      if n ≠ 0 ∧ !down then none
      else (realBits? negative 0 0).map real
    else (realBits? negative n (if down then shift - e else shift + e)).map real

/-- The number that is written: a whole one if it has neither point nor exponent and fits, else a binary one. -/
def value? (x : Numeral) (negative : Bool) : Option Json :=
  let n : Nat := x.whole.foldl (fun n d => n * 10 + d) 0
  if x.fraction.isSome ∨ x.exponent.isSome ∨ maxUnsigned64 < n ∨ (negative ∧ (n = 0 ∨ maxNegated64 < n)) then
    x.real? negative
  else some (int (if negative then -n else n))

end Numeral

def number (negative : Bool) (cs : Rest) : Option (Json × Rest) := do
  let (x, rest) ← numeral cs
  let j ← x.value? negative
  some (j, rest)

/-- What could be read of a container, and the text after its closing bracket if all of it could be read. -/
abbrev Contents (α : Type) := List α × Option Rest

/-- All that a container holds. -/
def Contents.all? {α : Type} : Contents α → Option (List α × Rest)
  | (items, some rest) => some (items, rest)
  | (_, none) => none

/-- Elements separated by commas, up to the closing bracket. -/
def elements {α : Type} (item : Rest → Option (α × Rest)) : (fuel : Nat) → Rest → Contents α
  | 0, _ => ([], none)
  | fuel + 1, cs =>
    match item cs with
    | none => ([], none)
    | some (x, rest) =>
      match skipGap rest with
      | ',' :: rest =>
        let (xs, rest) := elements item fuel rest
        (x :: xs, rest)
      | ']' :: rest => ([x], some rest)
      | _ => ([x], none)

/-- Members separated by commas, up to the closing brace. -/
def members {κ α : Type} (key : Rest → Option (κ × Rest)) (item : κ → Rest → Option (α × Rest)) :
    (fuel : Nat) → Rest → Contents (κ × α)
  | 0, _ => ([], none)
  | fuel + 1, cs =>
    let member : Option ((κ × α) × Rest) :=
      match skipGap cs with
      | '"' :: rest => do
        let (k, rest) ← key rest
        match skipGap rest with
        | ':' :: rest =>
          let (x, rest) ← item k rest
          some ((k, x), rest)
        | _ => none
      | _ => none
    match member with
    | none => ([], none)
    | some (x, rest) =>
      match skipGap rest with
      | ',' :: rest =>
        let (xs, rest) := members key item fuel rest
        (x :: xs, rest)
      | '\x7d' :: rest => ([x], some rest)
      | _ => ([x], none)

/-- What follows an opening bracket. -/
def elementsOf {α : Type} (item : Rest → Option (α × Rest)) (cs : Rest) : Contents α :=
  match skipGap cs with
  | ']' :: rest => ([], some rest)
  | rest => elements item rest.length rest

/-- What follows an opening brace. -/
def membersOf {κ α : Type} (key : Rest → Option (κ × Rest)) (item : κ → Rest → Option (α × Rest))
    (cs : Rest) : Contents (κ × α) :=
  match skipGap cs with
  | '\x7d' :: rest => ([], some rest)
  | rest => members key item rest.length rest

/-- A string after its opening quote. -/
def string (cs : Rest) : Option (String × Rest) :=
  (stringBody cs []).map fun (s, rest) => (String.ofList s, rest)

/-- The text after a value with brackets nested less deep than `depth`, whatever the value. -/
def passValue : (depth : Nat) → Rest → Option (Unit × Rest)
  | 0, _ => none
  | depth + 1, cs =>
    let pass (rest : Option Rest) : Option (Unit × Rest) := rest.map fun rest => ((), rest)
    match skipGap cs with
    | 'n' :: 'u' :: 'l' :: 'l' :: rest => pass (some rest)
    | 't' :: 'r' :: 'u' :: 'e' :: rest => pass (some rest)
    | 'f' :: 'a' :: 'l' :: 's' :: 'e' :: rest => pass (some rest)
    | '"' :: rest => pass (passString rest)
    | '[' :: rest => pass (elementsOf (passValue depth) rest).2
    | '\x7b' :: rest =>
      pass (membersOf (fun cs => (passString cs).map fun rest => ((), rest)) (fun _ => passValue depth) rest).2
    | '-' :: rest => pass ((numeral rest).map (·.2))
    | rest => pass ((numeral rest).map (·.2))

/-- A value with brackets nested less deep than `depth`. -/
def value : (depth : Nat) → Rest → Option (Json × Rest)
  | 0, _ => none
  | depth + 1, cs =>
    match skipGap cs with
    | 'n' :: 'u' :: 'l' :: 'l' :: rest => some (null, rest)
    | 't' :: 'r' :: 'u' :: 'e' :: rest => some (bool true, rest)
    | 'f' :: 'a' :: 'l' :: 's' :: 'e' :: rest => some (bool false, rest)
    | '"' :: rest => (string rest).map fun (s, rest) => (str s, rest)
    | '[' :: rest =>
      if depth = 0 then none
      else (elementsOf (value depth) rest).all?.map fun (js, rest) => (arr js, rest)
    | '\x7b' :: rest =>
      if depth = 0 then none
      else (membersOf string (fun _ => value depth) rest).all?.map fun (ms, rest) => (obj ms, rest)
    | '-' :: rest => number true rest
    | rest => number false rest

/-- How deep brackets may be nested, plus one. -/
def maxDepth : Nat := 128

/-- The value at the front of a text, with its repeated keys. -/
def first? (cs : Rest) : Option (Json × Rest) := value maxDepth cs

def isBlank (cs : Rest) : Bool := (skipGap cs).isEmpty

/-- The document written in a text, with its repeated keys. -/
def read? (text : String) : Option Json := do
  let (j, rest) ← first? text.toList
  if isBlank rest then some j else none

/-- The value of a key that is wanted; of other keys the value is passed over and taken for null. -/
def wanted (keys : List String) (key : String) (cs : Rest) : Option (Json × Rest) :=
  if keys.contains key then first? cs else (passValue (cs.length + 1) cs).map fun (_, rest) => (null, rest)

end Json
end Steenrod
