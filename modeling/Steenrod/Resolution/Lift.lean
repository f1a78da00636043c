import Steenrod.Resolution.Step
/-!
Chain maps between resolutions that lift a homomorphism of the modules they resolve. The map of stage `s` comes from the
one below: a generator goes to the preimage, under the differential of the target, of where its boundary goes.
All maps have the shift of the homomorphism. The source is resolved over `A` and the target over `B`; these are the
same algebra, possibly known to different degrees.
-/
namespace Steenrod

structure Lift where
  name : String
  shift : Int
  /-- The maps of the stages that have been reached. -/
  maps : Array FreeMap
  deriving DecidableEq, Repr

namespace Lift

variable (A B : Algebra) (S T : Resolution)

/-- Make the map of stage `s` exist. -/
def reach (L : Lift) (s : Nat) : Lift :=
  { L with
    maps := L.maps ++ Array.replicate (s + 1 - L.maps.size) (FreeMap.new S.minDegree T.minDegree L.shift) }

/-- Set the outputs in the next degree of stage `s`. -/
def addRows (L : Lift) (s : Nat) (t : Int) (rows : List Vec) : Result Lift := do
  let F ← S.stage s
  let G ← T.stage s
  let g ← Result.ofOption L.maps[s]?
  let g ← g.addRows F.module (G.module.toGraded B) t rows
  .ok { L with maps := L.maps.setIfInBounds s g }

/-- The rows that send every generator of stage `s` in degree `t` to a preimage under a differential or
augmentation of the target of what `value` says. -/
def preimages (L : Lift) (s : Nat) (t : Int) (down : FreeMap) (value : Generator → Result Vec) :
    Result (List Vec) := do
  let F ← S.stage s
  let G ← T.stage s
  let n ← G.module.dimension B (t - L.shift)
  match down.quasiInverses.get? (t - L.shift) with
  | none => refuse (.notResolved s (t - L.shift))
  | some Q =>
    (List.range (F.module.count t)).mapM fun i => do
      let v ← value ⟨t, i⟩
      Result.ofOption (Q.pullBack? A.prime B.prime (Vec.zero n) 1 v)

/-- Whether stage `s` has generators in degree `t`, and somewhere for them to go. -/
def needsValues (L : Lift) (s : Nat) (t : Int) : Result Bool := do
  let F ← S.stage s
  let G ← T.stage s
  let n ← G.module.dimension B (t - L.shift)
  .ok (F.module.count t ≠ 0 && n ≠ 0)

/-- Send the generators of stage `s` in degree `t` to zero. -/
def addZeros (L : Lift) (s : Nat) (t : Int) : Result Lift := do
  let F ← S.stage s
  let G ← T.stage s
  let n ← G.module.dimension B (t - L.shift)
  L.addRows B S T s t (List.replicate (F.module.count t) (Vec.zero n))

/-- Lift a homomorphism on the generators of stage 0 in degree `t`. -/
def startStep (f : ModuleMap) (L : Lift) (t : Int) : Result Lift := do
  if ← L.needsValues B S T 0 t then
    let F ← S.stage 0
    let rows ← L.preimages A B S T 0 t T.augmentation fun g => do
      let v ← S.augmentation.output F.module g
      f.apply 1 t v
    L.addRows B S T 0 t rows
  else L.addZeros B S T 0 t

/-- Stage 0 of the lift of a homomorphism, through the top degree of its source. -/
def start (f : ModuleMap) (name : String) (top : Int) : Result Lift := do
  let L := reach S T ⟨name, f.shift, #[]⟩ 0
  let g ← Result.ofOption L.maps[0]?
  (GradedModule.degreesBetween g.nextDegree top).foldlM (startStep A B S T f) L

/-- Extend the lift to the generators of stage `s` in degree `t`. Stage 0 has none that were not lifted at
the start. -/
def step (L : Lift) (s : Nat) (t : Int) : Result Lift := do
  if ← L.needsValues B S T s t then
    require (0 < s)
    let F ← S.stage s
    let F' ← S.stage (s - 1)
    let G ← T.stage s
    let G' ← T.stage (s - 1)
    let g ← Result.ofOption L.maps[s - 1]?
    let lower := g.toMap A F'.module (G'.module.toGraded B)
    let rows ← L.preimages A B S T s t G.differential fun x => do
      let v ← F.differential.output F.module x
      lower.apply 1 t v
    L.addRows B S T s t rows
  else L.addZeros B S T s t

/-- Extend stage `s` through degree `t`. -/
def extendStage (L : Lift) (s : Nat) (t : Int) : Result Lift := do
  let L := L.reach S T s
  let g ← Result.ofOption L.maps[s]?
  (GradedModule.degreesBetween g.nextDegree t).foldlM (fun L t => L.step A B S T s t) L

/-- Extend the lift to all bidegrees of the source up to `(s, t)`, which both resolutions must have. -/
def extend (L : Lift) (s : Nat) (t : Int) : Result Lift :=
  if !S.hasComputed s t then refuse (.notResolved s t)
  else if !T.hasComputed s (t - L.shift) then refuse (.notResolved s (t - L.shift))
  else (List.range (s + 1)).foldlM (fun L s => L.extendStage A B S T s t) L

/-- The last degree that stage `s` can be extended to. -/
def lastDegree? (L : Lift) (s : Nat) : Option Int := do
  let x ← S.stages[s]?
  let y ← T.stages[s]?
  some (min (x.differential.nextDegree - 1) (y.differential.nextDegree - 1 + L.shift))

/-- Extend the lift as far as both resolutions allow. -/
def extendAll (L : Lift) : Result Lift :=
  ((List.range (min S.height T.height)).filterMap fun s => (L.lastDegree? S T s).map (s, ·)).foldlM
    (fun L (s, t) => L.extendStage A B S T s t) L

/-- The map of stage `s`, if it has outputs in degree `t`. -/
def mapAt (L : Lift) (s : Nat) (t : Int) : Result FreeMap :=
  match L.maps[s]?.filter (t < ·.nextDegree) with
  | some g => .ok g
  | none => refuse (.notResolved s t)

/-- The image of a generator of stage `s` of the source. -/
def act (L : Lift) (s : Nat) (x : Generator) : Result Vec := do
  let g ← L.mapAt s x.degree
  let F ← S.stage s
  let count := F.module.count x.degree
  if count ≤ x.index then refuse (.noSuchGenerator s x.degree x.index count)
  else if x.degree < g.minDegree then .ok (Vec.zero 0)
  else g.output F.module x

/-- The induced map on Ext, on the dual of a generator of stage `s` of the target: its coefficients in the
images of the generators of the source. -/
def actOnExt (L : Lift) (s : Nat) (y : Generator) : Result (List Nat) := do
  let t := y.degree + L.shift
  let g ← L.mapAt s t
  let F ← S.stage s
  let G ← T.stage s
  if !T.hasComputed s y.degree || G.module.count y.degree ≤ y.index then
    refuse (.notInTarget s y.degree y.index)
  else do
    let j ← G.module.indexOf B ⟨0, 0⟩ y
    (List.range (F.module.count t)).mapM fun i => do
      let v ← g.output F.module ⟨t, i⟩
      Result.ofOption (v.entry? j)

/-- The map of stage `s`, if the lift has reached it. -/
def toMap? (L : Lift) (s : Nat) : Option ModuleMap := do
  let g ← L.maps[s]?
  let F ← S.stages[s]?
  let G ← T.stages[s]?
  some (g.toMap A F.module (G.module.toGraded B))

end Lift
end Steenrod
