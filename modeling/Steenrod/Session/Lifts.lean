import Steenrod.Session.Maps
/-! Steps on lifts. -/
namespace Steenrod
namespace Session

/-- The place of a resolution of a finite module, and the resolution. -/
def finiteResolution (name : String) : Session (Nat × Resolving) := do
  let place ← resolutionPlace name
  let x ← read (·.resolving place)
  let _ ← found ((← get).finiteAt? x.module)
  pure (place, x)

/-- Refuse to lift a homomorphism that does not go between the modules that are resolved. -/
def checkEnds (name : String) (source target : Resolving) (f : Arrow FiniteMap) : Session Unit := do
  let nameOf (place : Nat) : Session String := do
    let M ← read (·.view place)
    pure M.name
  if source.module ≠ f.source then
    let fault := MapFault.sourceModule name (← nameOf source.module) (← nameOf f.source)
    throw (.failed (.refused (.inconsistentMap fault)))
  if target.module ≠ f.target then
    let fault := MapFault.targetModule name (← nameOf target.module) (← nameOf f.target)
    throw (.failed (.refused (.inconsistentMap fault)))

/-- Lift a homomorphism to stage 0 of two resolutions, which are computed as far as that needs. Answers with
the shift. -/
def lift (as liftName source target hom : String) : Session (String × Int) := do
  let (s, R) ← finiteResolution source
  let (t, Q) ← finiteResolution target
  let x ← finiteArrow hom
  checkEnds liftName R Q x
  let top := x.map.source.maxDegree
  computeAt s 0 top
  computeAt t 0 (top - x.map.shift)
  let R ← read (·.resolving s)
  let Q ← read (·.resolving t)
  let A ← read (·.algebraOf R.module)
  let B ← read (·.algebraOf Q.module)
  let f ← finiteMap hom
  let L ← ofResult (Lift.start A B R.resolution Q.resolution f liftName top)
  modify fun w => { w with lifts := w.lifts.put as ⟨s, t, L⟩ }
  pure (L.name, L.shift)

/-- A lift with its place, the resolutions that it goes between, and their algebras. -/
structure LiftContext where
  place : Nat
  arrow : Arrow Lift
  source : Resolution
  target : Resolution
  sourceAlgebra : Algebra
  targetAlgebra : Algebra

def liftNamed (name : String) : Session LiftContext := do
  let w ← get
  let place ← found (w.lifts.find? name)
  let arrow ← found (w.lifts.get? place)
  let R ← read (·.resolving arrow.source)
  let Q ← read (·.resolving arrow.target)
  let A ← read (·.algebraOf R.module)
  let B ← read (·.algebraOf Q.module)
  pure ⟨place, arrow, R.resolution, Q.resolution, A, B⟩

/-- Change a lift. -/
def changeLift (name : String) (f : LiftContext → Result Lift) : Session Unit := do
  let x ← liftNamed name
  let map ← ofResult (f x)
  modify fun w => { w with lifts := w.lifts.set x.place { x.arrow with map } }

def extend (name : String) (s : Nat) (t : Int) : Session Unit :=
  changeLift name fun x => x.arrow.map.extend x.sourceAlgebra x.targetAlgebra x.source x.target s t

def extendAll (name : String) : Session Unit :=
  changeLift name fun x => x.arrow.map.extendAll x.sourceAlgebra x.targetAlgebra x.source x.target

/-- Compute both resolutions as far as needed, and extend the lift. -/
def extendResolving (name : String) (s : Nat) (t : Int) : Session Unit := do
  let x ← liftNamed name
  computeAt x.arrow.source s t
  computeAt x.arrow.target s (t - x.arrow.map.shift)
  extend name s t

/-- The image of a generator of stage `s`, in words of the target. -/
def LiftContext.image (x : LiftContext) (s : Nat) (g : Generator) : Result Spelled := do
  let L := x.arrow.map
  let v ← L.act x.source s g
  let G ← x.target.stage s
  let text ← (G.module.toGraded x.targetAlgebra).elementText (g.degree - L.shift) v
  .ok ⟨v, text⟩

def liftImage (name : String) (s : Nat) (g : Generator) : Session Spelled := do
  let x ← liftNamed name
  ofResult (x.image s g)

def actOnExt (name : String) (s : Nat) (g : Generator) : Session (List Nat) := do
  let x ← liftNamed name
  ofResult (x.arrow.map.actOnExt x.targetAlgebra x.source x.target s g)

def liftDegrees (name : String) : Session (List Int) := do
  let x ← liftNamed name
  pure (x.arrow.map.maps.toList.map (·.nextDegree))

/-- The images of the generators of a stage, as far as the lift has got, if it has reached the stage. -/
def liftTable (name : String) (s : Nat) : Session (Option (List (Generator × String))) := do
  let x ← liftNamed name
  match x.arrow.map.maps[s]? with
  | none => pure none
  | some g => ofResult do
    let F ← x.source.stage s
    let table ← (F.module.generatorsThrough (g.nextDegree - 1)).mapM fun y => do
      let image ← x.image s y
      .ok (y, image.text)
    .ok (some table)

/-- The induced map on the duals of the generators of a stage of the target, if there is one; some of
them may be out of reach. -/
def extTable (name : String) (s : Nat) :
    Session (Option (List (Generator × Except Error (List Nat)))) := do
  let x ← liftNamed name
  match x.target.stages[s]? with
  | none => pure none
  | some G => ofResult do
    let table ← (G.module.generatorsThrough G.module.nextDegree).mapM fun y =>
      match x.arrow.map.actOnExt x.targetAlgebra x.source x.target s y with
      | .ok v => .ok (y, .ok v)
      | .error (.refused e) => .ok (y, .error e)
      | .error .breach => breach
    .ok (some table)

end Session
end Steenrod
