import PointsTo.WorkDir
import PointsTo.World

/-!
A Datalog program in a file of its own, there for one engine call.
-/

namespace PointsTo
namespace ProgramFile

def materialize (path : Path) (text : String) : Run Unit := do
  Run.onDisk (Disk.change path (·.write path (Text.encode text)))
  Run.tell .stages .debug "program materialized" [.plain "path" path.text]

def release (path : Path) (cleanup : Bool) (w : World) : World :=
  if cleanup then
    match w.disk.unlink path with
    | .ok d => w.withDisk d
    | .error e =>
      w.tell ⟨.stages, .warn, "could not remove program file: " ++ e.text,
        [.plain "path" path.text]⟩
  else w

/-- Do something while the program is in its file. The file is released whether
that succeeds or fails. -/
def during {α : Type} (path : Path) (text : String) (cleanup : Bool) (act : Run α) : Run α := do
  materialize path text
  act.ensuring (release path cleanup)

end ProgramFile
end PointsTo
