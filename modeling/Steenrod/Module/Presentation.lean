import Steenrod.Module.Finite
/-!
Presentations of finite modules: names of basis elements with their degrees, and relations that say how operations
act on them. The relations for generators of the algebra define the module, all others are checked.
-/
namespace Steenrod

/-- A relation whose operation has been looked up in the algebra. -/
structure Action where
  operation : Operation
  input : String
  output : ModuleSum
  text : String
  deriving DecidableEq, Repr

structure Presentation where
  name : String
  generators : List (Int × String)
  actions : List Action
  deriving DecidableEq, Repr

/-- The action of an operation on a basis element, as a relation declares it. -/
structure Declared where
  operation : Operation
  input : Int × Nat
  output : Vec
  text : String
  deriving DecidableEq, Repr

namespace Presentation

def empty (name : String) : Presentation := ⟨name, [], []⟩

def dimension (P : Presentation) (d : Int) : Nat := (P.generators.filter (·.1 = d)).length

/-- The degree of a generator and its place among the generators of that degree. -/
def lookup? (P : Presentation) (name : String) : Option (Int × Nat) :=
  (P.generators.find? (·.2 == name)).map fun (d, _) =>
    (d, ((P.generators.filter (·.1 = d)).findIdx (·.2 == name)))

def lookup (P : Presentation) (name : String) : Result (Int × Nat) :=
  match P.lookup? name with
  | some x => .ok x
  | none => refuse (.unknownGenerator name)

def addGenerator (P : Presentation) (d : Int) (name : String) : Result Presentation :=
  if !Text.isName name then refuse (.malformed name .generatorName)
  else if P.generators.any (·.2 == name) then refuse (.duplicateGenerator name)
  else .ok { P with generators := P.generators ++ [(d, name)] }

def addAction (P : Presentation) (text : String) : Growing Presentation := do
  match Relation.parse text with
  | .error e => throw (.refused e)
  | .ok relation =>
    match ← Growing.elementNamed relation.operation with
    | none =>
      throw (.refused (.invalidRelation text
        (.unknownOperation relation.operation (← get).name)))
    | some a => pure { P with actions := P.actions ++ [⟨a, relation.input, relation.output, text⟩] }

/-- The least degree of a generator, 0 where there is none. -/
def minDegree (P : Presentation) : Int :=
  match P.generators.map (·.1) with
  | [] => 0
  | d :: ds => ds.foldl min d

def maxDegree (P : Presentation) : Int :=
  match P.generators.map (·.1) with
  | [] => -1
  | d :: ds => ds.foldl max d

/-- The basis element that an action starts from, and its output in coordinates. -/
def resolve (p : Prime) (P : Presentation) (a : Action) : Result ((Int × Nat) × Vec) := do
  let input ← P.lookup a.input
  let d := input.1 + a.operation.degree
  let output ← a.output.foldlM (fun v (c, name) => do
    let (degree, i) ← P.lookup name
    if degree ≠ d then refuse (.invalidRelation a.text (.wrongDegree name degree d))
    else .ok (v.addAt p i c)) (Vec.zero (P.dimension d))
  .ok (input, output)

/-- Take one action into the list of declared ones: the unit has to act as the identity, and no two
actions may differ. -/
def declare (p : Prime) (P : Presentation) (declared : List Declared) (a : Action) :
    Result (List Declared) := do
  let (input, output) ← P.resolve p a
  if output.size = 0 then .ok declared
  else if a.operation.degree = 0 then
    if output = Vec.unit output.size input.2 then .ok declared
    else refuse (.invalidRelation a.text .notIdentity)
  else
    match declared.find? fun x => x.operation = a.operation ∧ x.input = input with
    | some x =>
      if x.output = output then .ok declared
      else refuse (.invalidRelation a.text (.conflict x.text))
    | none => .ok (declared ++ [⟨a.operation, input, output, a.text⟩])

/-- The order in which actions that are not generators are checked: by input, then by operation. -/
def checkBefore (x y : Declared) : Bool :=
  let key (z : Declared) : List Int := [z.input.1, z.input.2, z.operation.degree, z.operation.index]
  !(key y).lex (key x)

def checkForced (A : Algebra) (M : FiniteModule) (x : Declared) : Result Unit := do
  let v ← Result.ofOption (M.action? x.operation x.input.1 x.input.2)
  if v = x.output then .ok ()
  else do
    let value ← M.elementText A (x.input.1 + x.operation.degree) v
    refuse (.invalidRelation x.text (.forced value))

/-- The module without its actions, with the generators as basis. -/
def underlying (P : Presentation) : Growing FiniteModule := do
  let degrees := GradedModule.degreesBetween P.minDegree P.maxDegree
  let M ← FiniteModule.zeroAction P.name (Graded.ofList P.minDegree (degrees.map P.dimension))
  let names := degrees.map fun d => (P.generators.filter (·.1 = d)).map (·.2)
  pure { M with names := Graded.ofList P.minDegree names }

/-- The module that is presented. The degree after the last one and the number of degrees have to be signed
words. -/
def build (P : Presentation) : Growing FiniteModule := do
  let p := (← get).prime
  Growing.read fun _ => require (isSigned (P.maxDegree + 1) && isSigned (P.maxDegree + 1 - P.minDegree))
  let declared ← Growing.read fun _ => P.actions.foldlM (P.declare p) []
  Growing.ensure (P.maxDegree - P.minDegree)
  let M ← P.underlying
  let sorted ← declared.mapM fun x => do
    let generators ← Growing.generators x.operation.degree
    pure (x, generators.contains x.operation.index)
  let M := (sorted.filter (·.2)).foldl
    (fun M (x, _) => M.setAction x.operation x.input.1 x.input.2 x.output) M
  let M ← M.close
  let others := ((sorted.filter (!·.2)).map (·.1)).mergeSort checkBefore
  Growing.read fun A => others.forM (checkForced A M)
  pure M

end Presentation
end Steenrod
