import PointsTo.Engine.Command
import PointsTo.World

/-!
Starting an engine process and waiting for its end. A process is counted as a
call only once it has been started.
-/

namespace PointsTo

namespace Disk

def mayExecute (mode : Nat) : Bool :=
  mode &&& 0o111 ≠ 0

/-- Whether a program can be started from the current directory. A name without
a separator would be looked up elsewhere, and nothing is found there. -/
def checkProgram (d : Disk) (image : Bytes) (program : Path) : Except Fault Unit :=
  if !program.text.toList.contains '/' then .error (.system .noEntry)
  else match d.entry program with
    | .error e => .error e
    | .ok (.file data mode) =>
      if !mayExecute mode then .error (.system .denied)
      else if data = image then .ok ()
      else .error (.system .badProgram)
    | .ok _ => .error (.system .denied)

def checkStart (d : Disk) (image : Bytes) (command : Command) (directory : Path) :
    Except Fault Location := do
  if (command.program.text :: directory.text :: command.args).any (·.toList.contains '\x00') then
    .error .zeroInArgument
  let l ← d.resolve directory
  if !d.tree.isDirectory l then .error (.system .notDirectory)
  (d.enter l).checkProgram image command.program
  .ok l

end Disk

namespace Run

def start (host : Host) (command : Command) (directory : Path) : Run Response := fun w =>
  match w.disk.checkStart host.engine.image command directory with
  | .error e => (.error (.invocation command.label command.program e), w)
  | .ok l =>
    let call : EngineCall := ⟨command.label, command.program, command.args, l, w.disk⟩
    let response := host.engine.respond w.calls call
    (.ok response, { w with disk := response.finalDisk call, calls := w.calls ++ [call] })

/-- Run a command in a directory and wait for its end. An unsuccessful end is an
answer like any other; a process that is still running at the limit is killed,
and what it has done by then stays. -/
def invoke (host : Host) (limit : Option Nat) (command : Command) (directory : Path)
    (mode : ErrorStream) : Run Finished := do
  tell .core .debug ("exec " ++ command.display)
    [.plain "stage" command.label, .plain "cwd" directory.text]
  let response ← start host command directory
  match limit, response.late with
  | some limit, true =>
    tell .core .warn ("killing engine after " ++ Decimal.text (limit / 1000) ++ "s")
      [.plain "stage" command.label]
    .fail (.timeout command.label limit)
  | _, _ => pure (response.finished mode)

end Run
end PointsTo
