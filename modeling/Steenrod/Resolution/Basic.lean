import Steenrod.Map.Free
/-!
Minimal free resolutions of a module, known on some bidegrees and extended on request. Stage `s` is a free module
`F_s` with a differential to `F_(s-1)`; below stage 0 lies the zero module, and the augmentation goes from
`F_0` to the module. Every step kills what the step below it left over with as few generators as possible.
-/
namespace Steenrod

/-- A free module with the differential out of it. -/
structure Stage where
  module : FreeModule
  differential : FreeMap
  deriving DecidableEq, Repr

structure Resolution where
  name : String
  /-- The internal degree that requests may not exceed. -/
  budget : Option Int
  zero : FreeModule
  augmentation : FreeMap
  stages : Array Stage
  deriving DecidableEq, Repr

namespace Resolution

/-- The stage above a module of least degree `minDegree`, without any generators. -/
def newStage (s : Nat) (minDegree : Int) : Stage :=
  ⟨FreeModule.new s!"F_{s}" minDegree, FreeMap.new minDegree minDegree 0⟩

def new (name : String) (minDegree : Int) (budget : Option Int) : Resolution where
  name := s!"Resolution of {name}"
  budget := budget
  zero := FreeModule.new "F_\x7b-1\x7d" minDegree
  augmentation := FreeMap.new minDegree minDegree 0
  stages := #[newStage 0 minDegree]

def minDegree (R : Resolution) : Int := R.zero.minDegree

/-- The number of stages. -/
def height (R : Resolution) : Nat := R.stages.size

def stage (R : Resolution) (s : Nat) : Result Stage := Result.ofOption R.stages[s]?

/-- Whether bidegree `(s, t)` has been computed. -/
def hasComputed (R : Resolution) (s : Nat) (t : Int) : Bool :=
  R.stages[s]?.any fun x => t < x.differential.nextDegree

/-- The number of generators of stage `s` in degree `t`. -/
def count (R : Resolution) (s : Nat) (t : Int) : Result Nat := do
  let x ← R.stage s
  .ok (x.module.count t)

/-- The module that the differential out of stage `s` goes to. -/
def below (R : Resolution) (s : Nat) : Result FreeModule :=
  if s = 0 then .ok R.zero else (R.stage (s - 1)).map (·.module)

def differentialMap (A : Algebra) (R : Resolution) (s : Nat) : Result ModuleMap := do
  let x ← R.stage s
  let target ← R.below s
  .ok (x.differential.toMap A x.module (target.toGraded A))

def augmentationMap (A : Algebra) (M : GradedModule) (R : Resolution) : Result ModuleMap := do
  let x ← R.stage 0
  .ok (R.augmentation.toMap A x.module M)

/-- The image of a generator of stage `s` under the differential, in words. -/
def boundaryText (A : Algebra) (R : Resolution) (s : Nat) (g : Generator) : Result String := do
  let x ← R.stage s
  let target ← R.below s
  let v ← x.differential.output x.module g
  (target.toGraded A).elementText g.degree v

end Resolution
end Steenrod
