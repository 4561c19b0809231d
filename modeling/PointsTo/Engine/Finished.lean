import PointsTo.Failure
import PointsTo.Text.Utf8

/-!
What an engine process leaves when it has ended.
-/

namespace PointsTo

structure Finished where
  output : Bytes
  /-- The error stream, where it was kept apart. -/
  stderr : Bytes
  /-- The exit code, unless a signal ended the process. -/
  code : Option Int
  success : Bool
deriving DecidableEq

namespace Finished

def outputText (f : Finished) : String :=
  Text.lossy f.output

def stderrText (f : Finished) : String :=
  Text.lossy f.stderr

def statusText (f : Finished) : String :=
  match f.code with
  | some code => "exit code " ++ Decimal.signedText code
  | none => "termination by signal"

def requireSuccess (f : Finished) (stage : String) : Except Failure Unit :=
  if f.success then .ok () else .error (.stage stage f.statusText f.outputText)

def exitWarning (f : Finished) : String :=
  "solver exited with " ++ f.statusText ++ ":\n" ++ f.outputText

end Finished
end PointsTo
