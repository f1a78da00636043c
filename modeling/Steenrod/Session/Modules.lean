import Steenrod.Session.Basic
/-! Steps that make modules, and those that ask any module. -/
namespace Steenrod
namespace Session

/-- The place of the algebra that a session starts with. -/
def ownAlgebra : Nat := 0

/-- Make the module that generators and relations present. -/
def build (as moduleName : String) (generators : List (String × Int)) (actions : List String) :
    Session String := do
  let M ← growing ownAlgebra do
    let P ← generators.foldlM (fun P (name, d) => Growing.read fun _ => P.addGenerator d name)
      (Presentation.empty moduleName)
    let P ← actions.foldlM Presentation.addAction P
    P.build
  addModule as ownAlgebra (.finite M)

/-- Make the module that a document presents. -/
def fromDocument (as : String) (document : Json) : Session String := do
  let M ← growing ownAlgebra (FiniteModule.ofJson document)
  addModule as ownAlgebra (.finite M)

/-- Make a module on which operations of positive degree are zero. -/
def trivialModule (as moduleName : String) (minDegree : Int) (dims : List Nat) : Session String := do
  let M ← growing ownAlgebra (FiniteModule.zeroAction moduleName (Graded.ofList minDegree dims))
  addModule as ownAlgebra (.finite M)

def tensor (as left right : String) : Session String := do
  let l ← module left
  let r ← module right
  let L ← read (·.view l)
  let R ← read (·.view r)
  let algebra ← algebraPlace l
  addModule as algebra (.tensor l r (TensorTable.new L R))

def directSum (as : String) (summands : List String) (minDegree : Int) : Session String := do
  let places ← summands.mapM module
  addModule as ownAlgebra (.sum places (SumTable.new minDegree))

def free (as moduleName : String) (minDegree : Int) : Session String :=
  addModule as ownAlgebra (.free (FreeModule.new moduleName minDegree))

/-- Make the finite module of what a module is in degrees up to `top`. A bounded module is computed as a
whole for that. -/
def truncate (as name : String) (top : Int) : Session String := do
  let place ← module name
  let algebra ← algebraPlace place
  let N ← read (·.view place)
  match N.maxDegree with
  | some bound => if top < bound then update (·.compute place bound)
  | none => pure ()
  let cut := FiniteModule.cutDegree N top
  growing algebra (Growing.ensure (max 0 (cut - N.minDegree)))
  update (·.compute place cut)
  let N ← read (·.view place)
  let M ← growing algebra (FiniteModule.truncate N cut)
  addModule as algebra (.finite M)

/-- A stage of a resolution as a module. -/
def stageModule (as resolution : String) (s : Nat) : Session String := do
  let r ← found ((← get).resolutions.find? resolution)
  let x ← read (·.resolving r)
  let _ ← ofResult (x.resolution.stage s)
  let algebra ← algebraPlace x.module
  addModule as algebra (.stage r s)

/-- The module of that name as it is now. -/
def viewed (name : String) : Session GradedModule := do
  let place ← module name
  read (·.view place)

def computeBasis (name : String) (d : Int) : Session Unit := do
  let place ← module name
  update (·.compute place d)

/-- An operation, by its name or by its degree and index. -/
inductive OperationName
  | text (s : String)
  | place (a : Operation)

/-- The operation; the algebra is computed through its degree. -/
def operation (algebra : Nat) : OperationName → Session Operation
  | .text s => do
    match ← growing algebra (Growing.elementNamed s) with
    | some a => pure a
    | none => throw .noOperation
  | .place a => do
    growing algebra (Growing.compute a.degree)
    pure a

/-- What an operation does in degree `d` of a module. -/
def acting (name : String) (op : OperationName) (d : Int)
    (act : GradedModule → Operation → Result Vec) : Session Spelled := do
  let place ← module name
  let algebra ← algebraPlace place
  let a ← operation algebra op
  update (·.compute place (d + a.degree))
  let M ← read (·.view place)
  let v ← ofResult (act M a)
  spell M (d + a.degree) v

def actOnBasis (name : String) (op : OperationName) (c : Nat) (d : Int) (i : Nat) : Session Spelled :=
  acting name op d fun M a => M.actOnBasis M.prime c a d i

def act (name : String) (op : OperationName) (c : Nat) (d : Int) (entries : List Nat) : Session Spelled :=
  acting name op d fun M a => M.act M.prime c a d (Vec.ofList M.prime entries)

/-- Act by an element of the algebra of degree `degree`. -/
def actByElement (name : String) (degree : Int) (element : List Nat) (c : Nat) (d : Int) (entries : List Nat) :
    Session Spelled := do
  let place ← module name
  let algebra ← algebraPlace place
  growing algebra (Growing.compute degree)
  update (·.compute place (d + degree))
  let M ← read (·.view place)
  let A ← read (·.algebra algebra)
  let v ← ofResult do
    let count ← A.dimension degree
    M.actByElement count c degree (Vec.ofList M.prime element) d (Vec.ofList M.prime entries)
  spell M (d + degree) v

def elementText (name : String) (d : Int) (entries : List Nat) : Session String := do
  let M ← viewed name
  ofResult (M.elementText d (Vec.ofList M.prime entries))

/-- The names of the basis elements of each degree of a range. -/
def basis (name : String) (low high : Int) : Session (List (List String)) := do
  let M ← viewed name
  ofResult (M.namesBetween low high)

/-- Where a block of a tensor product or of a sum starts. -/
def offset (name : String) (d : Int) (part : Int) : Session Nat := do
  let place ← module name
  let node ← read (·.node place)
  match node.shape with
  | .tensor _ _ table => ofResult (table.offset d part)
  | .sum _ table => ofResult (if part < 0 then breach else table.offset d part.toNat)
  | _ => throw .missing

end Session
end Steenrod
