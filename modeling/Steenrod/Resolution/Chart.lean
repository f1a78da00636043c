import Steenrod.Resolution.Basic
import Steenrod.Text.Blank
/-!
Charts of the numbers of generators of a resolution: a line for each stage, the highest one first, and in it a
sign for each degree, from the least one in which the stage can have generators.
-/
namespace Steenrod

/-- One sign for a number. -/
def tally (n : Nat) : Char :=
  match n with
  | 0 => ' '
  | 1 => '·'
  | 2 => ':'
  | 3 => '∴'
  | 4 => '⁘'
  | 5 => '⁙'
  | 6 => '⠿'
  | 7 => '⡿'
  | 8 => '⣿'
  | 9 => '9'
  | _ => '*'

namespace Chart

/-- The line of stage `s` of a resolution from degree `low` on. -/
def line (low : Int) (s : Nat) (F : FreeModule) : String :=
  let signs := (GradedModule.degreesBetween (low + s) (F.nextDegree - 1)).map fun t =>
    String.singleton (tally (F.count t))
  String.ofList (Text.trimEnd (" ".intercalate signs).toList)

/-- Blank lines at the top are left out. -/
def stack (lines : List String) : String :=
  String.join ((lines.dropWhile (·.isEmpty)).map (· ++ "\n"))

end Chart

namespace Resolution

def chart (R : Resolution) : String :=
  let lines := R.stages.toList.zipIdx.map fun (x, s) => Chart.line R.minDegree s x.module
  Chart.stack lines.reverse

end Resolution
end Steenrod
