import Steenrod.Session.Basic
import Steenrod.Resolution.Chart
/-! Steps on resolutions. -/
namespace Steenrod
namespace Session

/-- The place of a resolution. -/
def resolutionPlace (name : String) : Session Nat := do found ((← get).resolutions.find? name)

def resolution (name : String) : Session Resolution := do
  let place ← resolutionPlace name
  let x ← read (·.resolving place)
  pure x.resolution

/-- Put a new resolution of the module at a place into the workspace; answers with its name. -/
def addResolution (as : String) (place : Nat) (budget : Option Int) : Session String := do
  let M ← read (·.view place)
  let R := Resolution.new M.name M.minDegree budget
  modify fun w => { w with resolutions := w.resolutions.put as ⟨place, R⟩ }
  pure R.name

def resolve (as moduleName : String) (budget : Option Int) : Session String := do
  let place ← module moduleName
  addResolution as place budget

def configured (x : Except ConfigFault Config) : Session Config :=
  match x with
  | .ok c => pure c
  | .error fault => throw (.config fault)

/-- Set up the module of a configuration, over an algebra of its own, and a resolution of it, both under one
name. -/
def construct (as : String) (config : Except ConfigFault Config) : Session String := do
  let c ← configured config
  match ← ofResult c.load with
  | .error fault => throw (.config fault)
  | .ok (A, M) =>
    let algebra := (← get).algebras.size
    modify fun w => { w with algebras := w.algebras.push A }
    let _ ← addModule as algebra (.finite M)
    let place ← module as
    addResolution as place c.budget

/-- Compute the resolution at a place in all bidegrees up to `(s, t)`. -/
def computeAt (place : Nat) (s : Nat) (t : Int) : Session Unit := do
  let x ← read (·.resolving place)
  let algebra ← algebraPlace x.module
  growing algebra (x.resolution.prepare t)
  update (·.compute x.module t)
  let M ← read (·.view x.module)
  let A ← read (·.algebra algebra)
  let R ← ofResult (x.resolution.computeThrough A M s t)
  modify fun w => { w with resolutions := w.resolutions.set place { x with resolution := R } }

def computeThrough (name : String) (s : Nat) (t : Int) : Session Unit := do
  let place ← resolutionPlace name
  computeAt place s t

/-- Compute all stages up to `n` in degrees up to `n`. -/
def computeThroughDegree (name : String) (n : Int) : Session Unit := computeThrough name n.toNat n

/-- The resolved module as it is now. -/
def resolved (name : String) : Session GradedModule := do
  let place ← resolutionPlace name
  let x ← read (·.resolving place)
  read (·.view x.module)

def resolutionAlgebra (name : String) : Session Algebra := do
  let place ← resolutionPlace name
  let x ← read (·.resolving place)
  read (·.algebraOf x.module)

/-- For each stage the first degree without differentials, and the numbers of generators by degree. -/
def allGenerators (name : String) : Session (List (Int × List (Int × Nat))) := do
  let R ← resolution name
  pure (R.stages.toList.map fun x =>
    (x.differential.nextDegree,
     (x.module.generators.pairs.map fun (t, names) => (t, names.length)).filter (·.2 ≠ 0)))

def boundary (name : String) (s : Nat) (g : Generator) : Session String := do
  let R ← resolution name
  let A ← resolutionAlgebra name
  ofResult (R.boundaryText A s g)

/-- The images of the generators of a stage under the differential, those of stage 0 under the
augmentation. -/
def boundaries (name : String) (s : Nat) : Session (List (Generator × String)) := do
  let R ← resolution name
  let A ← resolutionAlgebra name
  let M ← resolved name
  ofResult do
    let x ← R.stage s
    (x.module.generatorsThrough x.module.nextDegree).mapM fun g => do
      let text ←
        if s = 0 then do
          let v ← R.augmentation.output x.module g
          M.elementText g.degree v
        else R.boundaryText A s g
      .ok (g, text)

end Session
end Steenrod
