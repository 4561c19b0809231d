import PointsTo.Tuning.Basic
import PointsTo.Disk.Lookup
import PointsTo.Failure

/-!
The configuration of a run. A run wipes its working directory, so one that
holds the run root is refused. The check compares where the two are, not how
they are spelled, and looks through links and missing parts.
-/

namespace PointsTo

structure RunConfig where
  /-- The directory that engine processes run in. -/
  root : Path
  /-- The directory of everything that a run produces on its way. -/
  workDir : Path
  tuning : Tuning
  /-- Take program files away again after use. -/
  cleanup : Bool
  /-- Make a failing numbering or solver call fatal. -/
  strict : Bool
  /-- How long a process may run, in milliseconds. -/
  timeLimit : Option Nat
deriving DecidableEq

namespace RunConfig

def defaultWorkDir : String := "results"

def new (root : Path) : RunConfig where
  root := root
  workDir := root / defaultWorkDir
  tuning := { }
  cleanup := true
  strict := false
  timeLimit := none

def withWorkDir (c : RunConfig) (dir : Path) : RunConfig :=
  { c with workDir := c.root.join dir }

end RunConfig

namespace Disk

/-- The canonical form of the first path that is there, with the names that lead
from it to the one wanted. The paths are given from the wanted one upwards. -/
def canonicalAbove (d : Disk) (missing : List String) : Path → List Path → Except Fault Path
  | p, above =>
    match d.canonical p with
    | .ok q => .ok (missing.foldl (· / ·) q)
    | .error e =>
      match p.fileName?, above with
      | some name, parent :: above =>
        let parent := if parent.text = "" then ⟨"."⟩ else parent
        d.canonicalAbove (name :: missing) parent above
      | _, _ => .error e

/-- Where a path leads, or would lead once its missing parts are made. -/
def foresee (d : Disk) (p : Path) : Except Failure Path :=
  (d.canonicalAbove [] p p.ancestors).mapError (.disk p)

end Disk

namespace RunConfig

/-- Refuse a working directory that holds the run root or is it. -/
def validate (c : RunConfig) (d : Disk) : Except Failure Unit := do
  let root ← d.foresee c.root
  let workDir ← d.foresee c.workDir
  if root.startsWith workDir then
    .error (.configuration (.workDirHoldsRoot c.workDir c.root))
  else .ok ()

end RunConfig
end PointsTo
