import PointsTo.Disk.Change
import PointsTo.Engine.Capture
import PointsTo.Engine.Finished

/-!
The engine as the pipeline sees it: a program that prints, changes files and
ends. What a call does may depend on its command, on the disk as the call finds
it, and on every call before it.
-/

namespace PointsTo

structure EngineCall where
  label : String
  program : Path
  args : List String
  /-- The directory that the call runs in. -/
  directory : Location
  /-- The disk as the call starts. -/
  disk : Disk

inductive Action where
  | print (stream : Stream) (data : Bytes)
  /-- Write a file, with the directories above it. -/
  | write (path : Path) (data : Bytes)
  | makeDirectory (path : Path)
  /-- Take away a file or a directory with everything inside it. -/
  | remove (path : Path)
  /-- Make a link where nothing is. -/
  | makeLink (path target : Path)
deriving DecidableEq

inductive Exit where
  | code (code : Int)
  | signal
deriving DecidableEq

/-- What a call does. A late one is still running when any limit has passed. -/
structure Response where
  actions : List Action
  late : Bool
  exit : Exit
deriving DecidableEq

structure Engine where
  /-- The bytes of the program file that runs the engine. -/
  image : Bytes
  respond : List EngineCall → EngineCall → Response

namespace Disk

def writeWithParents (d : Disk) (p : Path) (data : Bytes) : Disk :=
  let d := match p.parent? with
    | some parent => (d.makeDirectories parent).2
    | none => d
  d.attempt (d.write p data)

def discard (d : Disk) (p : Path) : Disk :=
  match d.linkEntry p with
  | .ok (.directory _) => (d.removeAll p).2
  | .ok _ => d.attempt (d.unlink p)
  | .error _ => d

end Disk

namespace Action

def apply (base : Path) (d : Disk) : Action → Disk
  | print .. => d
  | write path data => d.writeWithParents (base.join path) data
  | makeDirectory path => (d.makeDirectories (base.join path)).2
  | remove path => d.discard (base.join path)
  | makeLink path target => d.attempt (d.create (base.join path) (.link target))

def arrival? : Action → Option Capture.Arrival
  | print stream data => some (.chunk stream data)
  | _ => none

end Action

namespace Response

def finalDisk (r : Response) (call : EngineCall) : Disk :=
  r.actions.foldl (Action.apply call.directory.toPath) call.disk

def arrivals (r : Response) : List Capture.Arrival :=
  r.actions.filterMap Action.arrival? ++ [.ended .out, .ended .err]

/-- Only the low byte of an exit code reaches the parent. -/
def exitCode? (r : Response) : Option Int :=
  match r.exit with
  | .code code => some (code % 256)
  | .signal => none

def finished (r : Response) (mode : ErrorStream) : Finished :=
  let captured := Capture.collect mode r.arrivals
  ⟨captured.output, captured.errors, r.exitCode?, r.exitCode? = some 0⟩

end Response
end PointsTo
