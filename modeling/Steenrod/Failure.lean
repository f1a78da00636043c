import Steenrod.Text.Quoted
/-!
How a request can fail. A *refusal* has a cause that the caller is told about, a *breach* is a broken
promise of the caller: an index outside its range, or a degree read before it was computed.
-/
namespace Steenrod

/-- Why a text is not what it should be. -/
inductive SyntaxFault
  | noMatch
  | trailing (rest : String)
  | generatorName
  | wrongPrime (declared actual : Nat)
  | badDegree (name : String)
  deriving DecidableEq, Repr

/-- What is wrong with a relation `operation generator = sum`. -/
inductive RelationFault
  | noEquals
  | noGenerator
  | badName
  | badOutput (sum : String) (fault : SyntaxFault)
  | unknownOperation (operation algebra : String)
  | wrongDegree (name : String) (degree expected : Int)
  | notIdentity
  | conflict (earlier : String)
  | forced (value : String)
  deriving DecidableEq, Repr

/-- Why two modules and the wanted values admit no homomorphism. -/
inductive MapFault
  | wrongDegree (name : String) (degree output : Int) (term : String) (termDegree : Int)
  | zeroForced (degree : Int) (value : String)
  | sourceModule (name resolved given : String)
  | targetModule (name resolved given : String)
  | unbounded (name source : String)
  deriving DecidableEq, Repr

inductive Error
  | invalidRelation (relation : String) (fault : RelationFault)
  | brokenRelation (relation value : String)
  | unknownGenerator (name : String)
  | noSuchGenerator (s : Nat) (t : Int) (index count : Nat)
  | notInTarget (s : Nat) (t : Int) (index : Nat)
  | duplicateGenerator (name : String)
  | insufficientAlgebra (requested available : Int)
  | notResolved (s : Nat) (t : Int)
  | inconsistentMap (fault : MapFault)
  | budgetExceeded (requested budget : Int)
  | notPrime (n : Nat)
  | malformed (input : String) (fault : SyntaxFault)
  | unreadableDocument
  | unreadableFile
  deriving DecidableEq, Repr

inductive Failure
  | refused (e : Error)
  | breach
  deriving DecidableEq, Repr

abbrev Result := Except Failure

def refuse {α : Type} (e : Error) : Result α := .error (.refused e)

def breach {α : Type} : Result α := .error .breach

/-- A promise of the caller, checked. -/
def require (promise : Bool) : Result Unit := if promise then .ok () else breach

def Result.ofOption {α : Type} : Option α → Result α
  | some a => .ok a
  | none => breach

@[simp] theorem require_true : require true = .ok () := rfl

@[simp] theorem require_false : require false = breach := rfl

@[simp] theorem Result.ofOption_some {α : Type} (a : α) : Result.ofOption (some a) = .ok a := rfl

@[simp] theorem Result.ofOption_none {α : Type} : Result.ofOption (none : Option α) = breach := rfl

/-- The reason, where there is one to tell. -/
def SyntaxFault.reason : SyntaxFault → Option String
  | noMatch => none
  | trailing rest =>
    let quoted := Text.quote rest
    some s!"unexpected trailing input {quoted}"
  | generatorName => some "invalid generator name"
  | wrongPrime declared actual =>
    some s!"module is defined at p = {declared} but the algebra is at p = {actual}"
  | badDegree name => some s!"bad degree for {name}"

def SyntaxFault.message (input : String) (fault : SyntaxFault) : String :=
  match fault.reason with
  | none => s!"failed to parse `{input}`"
  | some reason => s!"failed to parse `{input}`: {reason}"

def RelationFault.message (relation : String) : RelationFault → String
  | noEquals => s!"{relation}: missing '='"
  | noGenerator => s!"{relation}: expected an operation followed by a generator"
  | badName => s!"{relation}: bad generator name"
  | badOutput sum fault => relation ++ ": " ++ fault.message sum
  | unknownOperation operation algebra => s!"{relation}: {operation} is not an element of {algebra}"
  | wrongDegree name degree expected =>
    s!"{relation}: degree of {name} is {degree} but degree of the left hand side is {expected}"
  | notIdentity => s!"{relation}: the unit must act as the identity"
  | conflict earlier => s!"{relation} conflicts with {earlier}"
  | forced value => s!"{relation}: the generators force {value}"

def MapFault.message : MapFault → String
  | wrongDegree name degree output term termDegree =>
    s!"{name} has degree {degree} and is sent to degree {output}, but {term} has degree {termDegree}"
  | zeroForced degree value => s!"in degree {degree}, 0 would have to be sent to {value}"
  | sourceModule name resolved given => s!"{name}: source resolution resolves {resolved}, not {given}"
  | targetModule name resolved given => s!"{name}: target resolution resolves {resolved}, not {given}"
  | unbounded name source => s!"{name}: source module {source} is not bounded"

/-- The wording of each cause; unreadable documents and files have none. -/
def Error.message : Error → Option String
  | invalidRelation relation fault => some ("invalid relation: " ++ fault.message relation)
  | brokenRelation relation value =>
    some s!"invalid relation: Relation failed: {relation}  !=  0, instead it is {value}"
  | unknownGenerator name => some s!"unknown generator `{name}`"
  | noSuchGenerator s t index count =>
    some s!"unknown generator `x_({s}, {t}, {index}): only {count} generators in bidegree ({s}, {t})`"
  | notInTarget s t index =>
    some s!"unknown generator `x_({s}, {t}, {index}) is not a generator of the target`"
  | duplicateGenerator name => some s!"generator `{name}` declared twice"
  | insufficientAlgebra requested available =>
    some s!"algebra data insufficient: degree {requested} requested but only {available} available"
  | notResolved s t => some s!"resolution not computed through bidegree (s, t) = ({s}, {t})"
  | inconsistentMap fault => some ("inconsistent homomorphism: " ++ fault.message)
  | budgetExceeded requested budget =>
    some s!"degree {requested} exceeds the degree budget {budget}"
  | notPrime n => some s!"{n} is not a valid prime"
  | malformed input fault => some (fault.message input)
  | unreadableDocument => none
  | unreadableFile => none

end Steenrod
