import Steenrod.Session.Resolutions
/-! Steps that make homomorphisms, and those that ask any homomorphism. -/
namespace Steenrod
namespace Session

/-- Make the homomorphism that takes given values. -/
def homomorphism (as source target : String) (shift : Int) (values : List (String × String)) :
    Session Unit := do
  let (s, S) ← finiteModule source
  let (t, T) ← finiteModule target
  let algebra ← algebraPlace s
  let A ← read (·.algebra algebra)
  let f ← ofResult (values.foldlM (fun f (name, text) => f.set A.prime name text)
    (PartialMap.empty S T shift))
  growing algebra (Growing.ensure f.algebraDegree)
  let A ← read (·.algebra algebra)
  let source ← read (·.view s)
  let target ← read (·.view t)
  let map ← ofResult (f.solve A source target)
  modify fun w => { w with finiteMaps := w.finiteMaps.put as ⟨s, t, map⟩ }

def identity (as name : String) : Session Unit := do
  let (place, M) ← finiteModule name
  modify fun w => { w with finiteMaps := w.finiteMaps.put as ⟨place, place, FiniteMap.identity M⟩ }

def finiteArrow (name : String) : Session (Arrow FiniteMap) := do
  let w ← get
  let place ← found (w.finiteMaps.find? name)
  found (w.finiteMaps.get? place)

def finiteMap (name : String) : Session ModuleMap := do
  let x ← finiteArrow name
  let S ← read (·.view x.source)
  let T ← read (·.view x.target)
  pure (x.map.toMap S T)

def imageOf (name : String) (d : Int) (i : Nat) : Session Vec := do
  let f ← finiteMap name
  ofResult (f.applyToBasis 1 d i)

/-- The basis elements of the source with their images. -/
def images (name : String) : Session (List (String × String)) := do
  let x ← finiteArrow name
  let f ← finiteMap name
  ofResult do
    let texts ← x.map.source.dims.degrees.mapM fun d =>
      (List.range (x.map.source.dimension d)).mapM fun i => do
        let element ← f.source.nameOf d i
        let v ← f.applyToBasis 1 d i
        let image ← f.target.elementText (d - f.shift) v
        .ok (element, image)
    .ok texts.flatten

/-- Make a homomorphism out of a free module, without any outputs yet. -/
def freeHomomorphism (as source target : String) (shift : Int) : Session Unit := do
  let (s, F) ← freeModule source
  let t ← module target
  let T ← read (·.view t)
  let map := FreeMap.new F.minDegree T.minDegree shift
  modify fun w => { w with freeMaps := w.freeMaps.put as ⟨s, t, map⟩ }

/-- A homomorphism out of a free module, with its source and what can be asked of it. -/
structure FreeArrow where
  source : FreeModule
  map : FreeMap
  view : ModuleMap

def freeArrow (A : Algebra) (F : FreeModule) (T : GradedModule) (f : FreeMap) : FreeArrow :=
  ⟨F, f, f.toMap A F T⟩

/-- The place of a homomorphism out of a free module, and the homomorphism. -/
def freeMap (name : String) : Session (Nat × Arrow FreeMap) := do
  let w ← get
  let place ← found (w.freeMaps.find? name)
  let x ← found (w.freeMaps.get? place)
  pure (place, x)

def viewFreeMap (x : Arrow FreeMap) : Session FreeArrow := do
  let A ← read (·.algebraOf x.source)
  let F ← found ((← get).freeAt? x.source)
  let T ← read (·.view x.target)
  pure (freeArrow A F T x.map)

/-- Change what is recorded of a homomorphism out of a free module. -/
def changeFreeMap (name : String) (f : FreeArrow → Result FreeMap) : Session Unit := do
  let (place, x) ← freeMap name
  let view ← viewFreeMap x
  let map ← ofResult (f view)
  modify fun w => { w with freeMaps := w.freeMaps.set place { x with map } }

def addRows (name : String) (d : Int) (rows : List (List Nat)) : Session Unit :=
  changeFreeMap name fun x =>
    x.map.addRows x.source x.view.target d (rows.map (Vec.ofList x.view.source.prime))

def extendByZero (name : String) (d : Int) : Session Unit :=
  changeFreeMap name fun x => x.map.extendByZero x.source x.view.target d

def setKernel (name : String) (d : Int) (n : Nat) (rows : List (List Nat)) : Session Unit :=
  changeFreeMap name fun x =>
    let p := x.view.source.prime
    do
      let kernel ← Result.ofOption (Subspace.ofRows? p n (rows.map (Vec.ofList p)))
      x.map.setKernel d kernel

/-- The ways to refer to a homomorphism. -/
inductive MapName
  | finite (name : String)
  | free (name : String)
  | lift (name : String) (s : Nat)
  | differential (resolution : String) (s : Nat)
  | augmentation (resolution : String)

/-- The homomorphism out of a free module that is meant; a lift may not have reached the stage. -/
def freeMapNamed : MapName → Session (Option FreeArrow)
  | .finite _ => throw .missing
  | .free name => do
    let (_, x) ← freeMap name
    some <$> viewFreeMap x
  | .lift name s => do
    let w ← get
    let place ← found (w.lifts.find? name)
    let x ← found (w.lifts.get? place)
    match x.map.maps[s]? with
    | none => pure none
    | some g => do
      let R ← read (·.resolving x.source)
      let Q ← read (·.resolving x.target)
      let A ← read (·.algebraOf R.module)
      let B ← read (·.algebraOf Q.module)
      let F ← ofResult (R.resolution.stage s)
      let G ← ofResult (Q.resolution.stage s)
      pure (some (freeArrow A F.module (G.module.toGraded B) g))
  | .differential name s => do
    let R ← resolution name
    let A ← resolutionAlgebra name
    ofResult do
      let x ← R.stage s
      let target ← R.below s
      .ok (some (freeArrow A x.module (target.toGraded A) x.differential))
  | .augmentation name => do
    let R ← resolution name
    let A ← resolutionAlgebra name
    let M ← resolved name
    ofResult do
      let x ← R.stage 0
      .ok (some (freeArrow A x.module M R.augmentation))

/-- What can be asked of the homomorphism that is meant. -/
def mapNamed : MapName → Session (Option ModuleMap)
  | .finite name => some <$> finiteMap name
  | other => do
    let x ← freeMapNamed other
    pure (x.map (·.view))

/-- The image of an element or of a basis element. -/
def image (f : ModuleMap) (c : Nat) (d : Int) (element : Nat ⊕ List Nat) : Session Spelled := do
  let v ← ofResult (match element with
    | .inl i => f.applyToBasis c d i
    | .inr entries => f.apply c d (Vec.ofList f.source.prime entries))
  spell f.target (d - f.shift) v

end Session
end Steenrod
