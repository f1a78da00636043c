import Steenrod.Resolution.Basic
/-!
Extending a resolution. A step adds to one stage, in one degree, the generators that are needed to hit a subspace of
the target, and records the kernel and a quasi-inverse. Bidegrees are computed diagonal by diagonal, so that a
step finds the degree below it and the stage below it done.
-/
namespace Steenrod

/-- A free module together with a homomorphism out of it, both known through the same degree. -/
abbrev Mapped := FreeModule × FreeMap

namespace Mapped

/-- The vectors that new generators have to go to: of the basis of `wanted` those that lead in a column
where no image does. -/
def missing (images wanted : Subspace) : List Vec :=
  (wanted.leads.filter fun (c, _) => !images.leads.any (·.1 == c)).map (·.2)

/-- Add generators in degree `t` until the image contains `wanted`. New generators go to vectors that are
independent modulo the old image, so the kernel is the one from before. -/
def hit (A : Algebra) (T : GradedModule) (wanted : Subspace) (t : Int) (x : Mapped) : Result Mapped := do
  let p := A.prime
  let (F, f) := x
  let F ← F.extendTable A t
  let before ← (f.toMap A F T).matrixAt t
  let reduced := Augmented.ofMatrix p before
  let kernel := reduced.kernel p
  let rows := missing reduced.space wanted
  let n := before.height + rows.length
  let F ← F.addGenerators A t rows.length none
  let f ← f.addRows F T t rows
  let f ← f.setKernel t (Subspace.span p n (kernel.basis.map (·.padTo n)))
  let after ← (f.toMap A F T).matrixAt t
  let f ← f.setQuasiInverse t (Augmented.ofMatrix p after).quasiInverse
  .ok (F, f)

end Mapped

namespace Resolution

/-- The kernel that stage `s` has to hit in degree `t`. -/
def kernelBelow (R : Resolution) (s : Nat) (t : Int) : Result Subspace := do
  let f ← if s = 1 then .ok R.augmentation else (R.stage (s - 1)).map (·.differential)
  Result.ofOption (f.kernels.get? t)

/-- Compute bidegree `(0, t)`: the augmentation has to hit the whole module. -/
def firstStep (A : Algebra) (M : GradedModule) (R : Resolution) (t : Int) : Result Resolution := do
  let x ← R.stage 0
  let zero ← R.zero.extendTable A t
  let n ← M.dimension t
  let (F, augmentation) ← Mapped.hit A M (Subspace.entire n) t (x.module, R.augmentation)
  let differential ← x.differential.extendByZero F (zero.toGraded A) t
  .ok { R with zero, augmentation, stages := R.stages.setIfInBounds 0 ⟨F, differential⟩ }

/-- Compute bidegree `(s, t)` for a positive `s`: the differential has to hit the kernel below. -/
def laterStep (A : Algebra) (R : Resolution) (s : Nat) (t : Int) : Result Resolution := do
  let x ← R.stage s
  let target ← R.below s
  let wanted ← R.kernelBelow s t
  let (F, differential) ← Mapped.hit A (target.toGraded A) wanted t (x.module, x.differential)
  .ok { R with stages := R.stages.setIfInBounds s ⟨F, differential⟩ }

/-- Compute bidegree `(s, t)`, unless that has been done. -/
def step (A : Algebra) (M : GradedModule) (R : Resolution) (s : Nat) (t : Int) : Result Resolution :=
  if R.hasComputed s t then .ok R
  else if s = 0 then R.firstStep A M t
  else R.laterStep A s t

/-- Make stage `s` exist. -/
def extendStages (R : Resolution) (s : Nat) : Resolution :=
  { R with
    stages := R.stages ++
      ((List.range' R.height (s + 1 - R.height)).map fun k => newStage k R.minDegree).toArray }

/-- The bidegrees up to `(s, t)` on one diagonal, from stage 0 upwards. -/
def diagonal (low : Int) (s : Nat) (t : Int) (k : Int) : List (Nat × Int) :=
  (List.range (s + 1)).filterMap fun (i : Nat) =>
    let d := low + k - i
    if low ≤ d ∧ d ≤ t then some (i, d) else none

/-- The bidegrees up to `(s, t)`, diagonal by diagonal. -/
def bidegrees (low : Int) (s : Nat) (t : Int) : List (Nat × Int) :=
  (GradedModule.degreesBetween 0 (s + t - low)).flatMap (diagonal low s t)

/-- Check a request against the budget, and make the algebra known as far as it needs. -/
def prepare (R : Resolution) (t : Int) : Growing Unit := do
  match R.budget with
  | some budget => if budget < t then throw (Failure.refused (.budgetExceeded t budget))
  | none => pure ()
  Growing.ensure (max 0 (t - R.minDegree))

/-- Compute all bidegrees up to `(s, t)`. The algebra has to be known as far as `prepare` makes it known, and the
module through degree `t`. -/
def computeThrough (A : Algebra) (M : GradedModule) (R : Resolution) (s : Nat) (t : Int) : Result Resolution :=
  (bidegrees R.minDegree s t).foldlM (fun R (s, t) => R.step A M s t) (R.extendStages s)

/-- Check a request for all bidegrees up to `(s, t)` and meet it, where `M` shows the module through degree
`t`. -/
def request (M : Algebra → GradedModule) (R : Resolution) (s : Nat) (t : Int) : Growing Resolution := do
  R.prepare t
  Growing.read fun A => R.computeThrough A (M A) s t

end Resolution
end Steenrod
