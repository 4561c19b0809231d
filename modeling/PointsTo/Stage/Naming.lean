import PointsTo.Stage.Basic
import PointsTo.TupleMap

/-!
The last stage, if wanted: names for the indices in a tuple file.
-/

namespace PointsTo

/-- The files are taken from the working directory and the result goes to the
run root, where they are relative. -/
structure MapRequest where
  tuples : Path
  names : Path
  dest : Path
deriving DecidableEq

namespace Stage

def naming (request : MapRequest) : Stage where
  id := "map"
  run := fun _ s => do
    let dest := s.root.join request.dest
    let mapped ← Run.onDisk
      (TupleMap.mapFiles (s.workDir.join request.tuples) (s.workDir.join request.names) dest)
    if 0 < mapped.skipped then
      Run.tell .stages .debug (Decimal.text mapped.skipped ++ " tuple indices had no name")
    pure ⟨none, some (Decimal.text mapped.written ++ " names written to " ++ dest.text)⟩

end Stage
end PointsTo
