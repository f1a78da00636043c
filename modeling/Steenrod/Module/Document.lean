import Steenrod.Module.Presentation
import Steenrod.Json.Printer
/-! Finite modules as documents: the generators with their degrees and the actions of the algebra generators. -/
namespace Steenrod

/-- What a document says about a module. -/
structure ModuleDocument where
  name : Option String
  prime : Option Nat
  generators : List (String × Json)
  actions : List String
  deriving Repr

namespace ModuleDocument

def actions? (j : Json) : Option (List String) := j.elements?.bind fun l => l.mapM Json.string?

/-- The value of a field, or `default` where the document lacks it. -/
def field? {α : Type} (default : Option α) (read : Json → Option α) : Option Json → Option α
  | none => default
  | some j => read j

def ofFields? (name prime generators actions : Option Json) : Option ModuleDocument := do
  let name ← field? (some none) (Json.optional? Json.string?) name
  let prime ← field? (some none) (Json.optional? Json.word?) prime
  let generators ← field? none Json.members? generators
  let actions ← field? (some []) actions? actions
  some ⟨name, prime, generators, actions⟩

/-- An object with the fields `name`, `p`, `gens` and `actions`, or a list of their values. -/
def ofJson? : Json → Option ModuleDocument
  | .obj members =>
    let field := (Json.obj members).get?
    ofFields? (field "name") (field "p") (field "gens") (field "actions")
  | .arr elements =>
    if 4 < elements.length then none
    else ofFields? elements[0]? elements[1]? elements[2]? elements[3]?
  | _ => none

end ModuleDocument

namespace FiniteModule

def toJson (M : FiniteModule) : Growing Json := do
  let actions ← M.actionTexts
  let members := M.names.pairs.flatMap fun (d, names) => names.map fun n => (n, Json.int d)
  pure (.obj [
    ("type", .str "finite dimensional module"),
    ("name", .str M.name),
    ("p", .ofNat (← get).prime.val),
    ("gens", Json.collect members),
    ("actions", .arr (actions.map .str))])

/-- The module that a document presents. -/
def ofJson (j : Json) : Growing FiniteModule := do
  let malformed {α : Type} (fault : SyntaxFault) : Growing α :=
    throw (.refused (.malformed j.compact fault))
  match ModuleDocument.ofJson? j with
  | none => throw (.refused .unreadableDocument)
  | some document =>
    let p := (← get).prime
    match document.prime with
    | some n => if n ≠ p.val then malformed (.wrongPrime n p.val)
    | none => pure ()
    let P ← document.generators.foldlM (fun P (name, degree) => do
      match degree.signedWord? with
      | none => malformed (.badDegree name)
      | some d => Growing.read fun _ => P.addGenerator d name)
      (Presentation.empty (document.name.getD ""))
    let P ← document.actions.foldlM Presentation.addAction P
    P.build

end FiniteModule
end Steenrod
