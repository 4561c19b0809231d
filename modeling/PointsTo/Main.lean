import PointsTo.Program
import PointsTo.RunId

/-!
The program as a rehearsal. The directories that a run looks into are read, the
run is played on that picture of the disk, and what it would print is printed.
The disk stays as it is, and no process is started: a run ends where the engine
would be needed.
-/

namespace PointsTo
namespace Rehearsal

def location (p : Path) : Location :=
  (p.segments.filter (· ≠ "")).reverse

def withDirectory (d : Disk) : Location → Disk
  | [] => d
  | name :: above =>
    let d := withDirectory d above
    if d.tree.isDirectory (name :: above) then d
    else d.put (name :: above) (.directory Disk.newDirectoryMode)

/-- Add what a path leads to and everything below it. What cannot be read is left
out, and so are links. -/
partial def add (p : Path) (d : Disk) : IO Disk := do
  let l := location p
  try
    let place ← IO.FS.realPath p.text
    match (← place.metadata).type with
    | .dir =>
      let mut d := withDirectory d l
      for entry in ← place.readDir do
        let below ← entry.path.symlinkMetadata
        if below.type != .symlink then d ← add (p / entry.fileName) d
      return d
    | .file =>
      let data ← IO.FS.readBinFile place
      return (withDirectory d l.tail).put l (.file data.toList 0o755)
    | _ => return d
  catch _ => return d

def host : Host where
  engine := ⟨[], fun _ _ => ⟨[], false, .code 127⟩⟩
  now := fun _ => ⟨0, 0⟩
  ticks := fun _ => 0

def usageLine : String :=
  "usage: ptrun [OPTIONS] <ENTRY_POINT> <PROGRAM>\n"

def named (args : List String) : List Path :=
  match Arguments.parse args with
  | .ok r => r.workDir :: r.config.toList
  | .error _ => []

def run (args : List String) : IO UInt32 := do
  let cwd : Path := ⟨(← IO.currentDir).toString⟩
  let ownDir : Path := ⟨((← IO.appPath).parent.getD "/").toString⟩
  let home := (← IO.getEnv "PQLHOME").map Path.mk
  let overrides : Toolchain.Overrides :=
    ⟨home, (← IO.getEnv "JAVA_HOME").map Path.mk, ← IO.getEnv "CLASSPATH"⟩
  let places := cwd :: home.getD ownDir :: named args
  let d ← places.foldlM (fun d p => add (cwd.join p) d) .empty
  let runId := RunId.ofBytes (← IO.getRandomBytes 16).toList
  let start := World.ofDisk (d.enter (location cwd))
  let (answer, _) := Program.run host ⟨overrides, ownDir, runId⟩ none args start
  match answer with
  | .usage .version => IO.print Program.versionLine
  | .usage e => if e.isMistake then IO.eprint usageLine else IO.print usageLine
  | .finished _ printed =>
    IO.print printed.stdout
    IO.eprint printed.stderr
  return answer.status.toUInt32

end Rehearsal
end PointsTo

def main (args : List String) : IO UInt32 :=
  PointsTo.Rehearsal.run args
