import PointsTo.Stage.Basic
import PointsTo.WorkDir

/-!
The first stage. A full run empties the working directory; a fast run builds on
what is there and only sweeps away stale tuples.
-/

namespace PointsTo

inductive Mode where
  | full
  | fast
deriving DecidableEq

namespace Stage

def prepareFull (s : Setup) : Run Outcome := do
  Run.lookAtDisk s.config.validate
  Run.tell .stages .info "cleaning working directory" [.plain "dir" s.workDir.text]
  let removed ← Run.onDisk (WorkDir.clean s.workDir)
  pure ⟨none, some ("removed " ++ Decimal.text removed ++ " files")⟩

def prepareFast (s : Setup) : Run Outcome := do
  if ← .view (·.disk.isDirectory s.workDir) then
    let removed ← Run.onDisk (WorkDir.clearTuples s.workDir)
    pure ⟨none, some ("removed " ++ Decimal.text removed ++ " stale tuple files")⟩
  else .fail (.configuration (.nothingToReuse s.workDir))

def prepare (mode : Mode) : Stage where
  id := "prepare"
  run := fun _ s =>
    match mode with
    | .full => prepareFull s
    | .fast => prepareFast s

end Stage
end PointsTo
