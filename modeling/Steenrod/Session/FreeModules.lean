import Steenrod.Session.Basic
/-! Steps on free modules, among them the stages of resolutions. -/
namespace Steenrod
namespace Session

/-- Ask a free module, with its algebra as it is. -/
def onFree {α : Type} (name : String) (f : Algebra → FreeModule → Result α) : Session α := do
  let (place, F) ← freeModule name
  let A ← read (·.algebraOf place)
  ofResult (f A F)

/-- Change a free module where it is. -/
def changeFree (name : String) (f : Algebra → FreeModule → Result FreeModule) : Session Unit := do
  let (place, F) ← freeModule name
  let A ← read (·.algebraOf place)
  let F ← ofResult (f A F)
  update (·.setFree place F)

def extendTable (name : String) (d : Int) : Session Unit :=
  changeFree name fun A F => F.extendTable A d

def addGenerators (name : String) (d : Int) (n : Nat) (names : Option (List String)) : Session Unit :=
  changeFree name fun A F => F.addGenerators A d n names

def generatorCount (name : String) (d : Int) : Session Nat := do
  let (_, F) ← freeModule name
  pure (F.count d)

/-- The number of generators below degree `d`. -/
def generatorsBelow (name : String) (d : Int) : Session Nat := onFree name fun _ F => F.countBelow d

def generatorNames (name : String) : Session (List (Int × List String)) := do
  let (_, F) ← freeModule name
  pure F.generators.pairs

def generatorOffset (name : String) (d : Int) (g : Generator) : Session Nat :=
  onFree name fun A F => F.offset A d g

def indexOfProduct (name : String) (a : Operation) (g : Generator) : Session Nat :=
  onFree name fun A F => F.indexOf A a g

def productAt (name : String) (d : Int) (i : Nat) : Session (Operation × Generator) :=
  onFree name fun A F => F.elementAt A d i

end Session
end Steenrod
