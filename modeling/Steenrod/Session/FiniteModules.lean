import Steenrod.Session.Basic
import Steenrod.Module.Difference
import Steenrod.Module.Document
/-! Steps on finite modules. A changed module takes over the name; what was made from the old one keeps it. -/
namespace Steenrod
namespace Session

/-- Ask a finite module and its algebra. -/
def onFinite {α : Type} (name : String) (f : FiniteModule → Growing α) : Session α := do
  let (place, M) ← finiteModule name
  let algebra ← algebraPlace place
  growing algebra (f M)

/-- Change a finite module. -/
def changeFinite (name : String) (f : FiniteModule → Growing FiniteModule) : Session Unit := do
  let (place, M) ← finiteModule name
  let algebra ← algebraPlace place
  let M ← growing algebra (f M)
  let _ ← addModule name algebra (.finite M)

def find (name element : String) : Session (Option (Int × Nat)) := do
  let (_, M) ← finiteModule name
  pure (M.find? element)

def action (name : String) (a : Operation) (d : Int) (i : Nat) : Session Vec := do
  let (_, M) ← finiteModule name
  ofResult (Result.ofOption (M.action? a d i))

/-- How two finite modules differ. -/
def difference (left right : String) : Session (Option String) := do
  let (place, M) ← finiteModule left
  let (other, N) ← finiteModule right
  let A ← read (·.algebraOf place)
  let B ← read (·.algebraOf other)
  ofResult (M.difference? A B.prime N)

def setAction (name : String) (a : Operation) (d : Int) (i : Nat) (entries : List Nat) : Session Unit :=
  changeFinite name fun M => Growing.read fun A => M.setAction? A a d i (Vec.ofList A.prime entries)

def rename (name : String) (d : Int) (i : Nat) (element : String) : Session Unit :=
  changeFinite name fun M => Growing.read fun _ => M.rename? d i element

def extendActions (name : String) (input output : Int) : Session Unit :=
  changeFinite name fun M => M.extendActions input output

def checkRelations (name : String) (input output : Int) : Session Unit :=
  onFinite name fun M => M.checkRelations input output

def toDocument (name : String) : Session Json := onFinite name FiniteModule.toJson

def actionTexts (name : String) : Session (List String) := onFinite name FiniteModule.actionTexts

end Session
end Steenrod
