import Steenrod.Module.Document
import Steenrod.Resolution.Step
import Steenrod.Json.Reader
import Steenrod.Text.Blank
/-!
Setting up a resolution from a document: a module, or an object that holds one together with limits. The prime
is that of the module, and 2 where it names none.
-/
namespace Steenrod

structure Config where
  module : Json
  /-- The degree beyond which the algebra is not computed. -/
  cap : Option Int
  /-- The degree beyond which nothing is resolved. -/
  budget : Option Int
  deriving Repr

/-- Why a document does not set up a resolution. -/
inductive ConfigFault
  | malformedText
  | unreadableFile (path : String)
  | malformedFile (path : String)
  | malformedFields
  | primeValue (found : Json)
  | notPrime (n : Nat)
  | badModule (e : Error)
  deriving Repr

namespace ConfigFault

/-- The known error behind a fault; a prime that is no number has none. -/
def error? : ConfigFault → Option Error
  | malformedText => some .unreadableDocument
  | unreadableFile _ => some .unreadableFile
  | malformedFile _ => some .unreadableDocument
  | malformedFields => some .unreadableDocument
  | primeValue _ => none
  | notPrime n => some (.notPrime n)
  | badModule e => some e

/-- What was being done, from the outside in; without a known error also what went wrong. -/
def context : ConfigFault → List String
  | malformedText => ["Failed to parse inline config"]
  | unreadableFile path => [s!"Failed to read config file {path}"]
  | malformedFile path => [s!"Failed to parse config file {path}"]
  | malformedFields => ["Failed to read config"]
  | primeValue found => ["p must be a positive integer, found " ++ found.compact]
  | notPrime _ => []
  | badModule _ => ["Failed to load module"]

end ConfigFault

namespace Config

/-- The limit in a field, which may be null or absent. -/
def limit? (j : Json) (key : String) : Option (Option Int) :=
  match j.get? key with
  | none => some none
  | some value => Json.optional? Json.signedWord? value

/-- A document with a `module` is a full one, all else is the module itself. -/
def ofJson (j : Json) : Except ConfigFault Config :=
  match j.get? "module" with
  | none => .ok ⟨j, none, none⟩
  | some module =>
    match limit? j "algebra_max_degree", limit? j "degree_budget" with
    | some cap, some budget => .ok ⟨module, cap, budget⟩
    | _, _ => .error .malformedFields

/-- Read the text of a document. -/
def ofText (text : String) (fault : ConfigFault) : Except ConfigFault Config :=
  match Json.read? text with
  | some j => ofJson j.merge
  | none => .error fault

/-- A text that opens an object is the document itself, any other names a file. -/
def ofSpec (file : String → Option String) (spec : String) : Except ConfigFault Config :=
  let spec := Text.trimString spec
  if spec.startsWith "\x7b" then ofText spec .malformedText
  else
    match file spec with
    | some text => ofText text (.malformedFile spec)
    | none => .error (.unreadableFile spec)

/-- The number that the module gives as its prime. -/
def primeNumber (c : Config) : Except ConfigFault Nat :=
  match c.module.get? "p" with
  | none => .ok 2
  | some found =>
    match found.word? with
    | some n => .ok n
    | none => .error (.primeValue found)

/-- The prime of the module. -/
def prime (c : Config) : Result (Except ConfigFault Prime) := do
  match c.primeNumber with
  | .error fault => .ok (.error fault)
  | .ok n =>
    match ← Prime.ofNat n with
    | some p => .ok (.ok p)
    | none => .ok (.error (.notPrime n))

/-- The module of a document, over an algebra of its own. -/
def load (c : Config) : Result (Except ConfigFault (Algebra × FiniteModule)) := do
  match ← c.prime with
  | .error fault => .ok (.error fault)
  | .ok p =>
    match (FiniteModule.ofJson c.module).run (Algebra.new p c.cap) with
    | (.ok M, A) => .ok (.ok (A, M))
    | (.error (.refused e), _) => .ok (.error (.badModule e))
    | (.error .breach, _) => breach

end Config
end Steenrod
