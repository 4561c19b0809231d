import PointsTo.Disk.Fault

/-!
Why a run fails, and the text that says so. Each cause is a constructor with
what is needed to describe it; the wording is in `Failure.message` alone.
-/

namespace PointsTo

inductive Misconfiguration where
  /-- An entry of a search list holds the character that separates entries. -/
  | separatorInEntry
  | workDirHoldsRoot (workDir root : Path)
  | runtimeUnset
  | homeMissing (home : Path)
  | partMissing (name : String) (home : Path)
  /-- A fast run has no earlier results to build on. -/
  | nothingToReuse (workDir : Path)
  | stated (text : String)
deriving DecidableEq

namespace Misconfiguration

def message : Misconfiguration → String
  | separatorInEntry => "invalid classpath entry: path segment contains separator `:`"
  | workDirHoldsRoot workDir root =>
    "working directory " ++ workDir.text ++ " contains the run root " ++ root.text
  | runtimeUnset => "JAVA_HOME is not set; point it at the JVM installation"
  | homeMissing home => "engine home " ++ home.text ++ " does not exist (set PQLHOME)"
  | partMissing name home =>
    name ++ " not found in " ++ home.text ++ " (set PQLHOME to the engine installation)"
  | nothingToReuse workDir =>
    "fast mode needs relations from a previous full run, but " ++ workDir.text ++ " does not exist"
  | stated text => text

end Misconfiguration

inductive Failure where
  | configuration (problem : Misconfiguration)
  /-- A process could not be started. -/
  | invocation (label : String) (program : Path) (fault : Fault)
  /-- The engine ran and reported failure; `output` is what it printed. -/
  | stage (label status output : String)
  /-- The engine was still running after the limit, in milliseconds. -/
  | timeout (label : String) (limit : Nat)
  | disk (path : Path) (fault : Fault)
  /-- A path count of 2^64 or more. -/
  | bound (digits : String)
  /-- A line of a tuple file that is no index. -/
  | tuple (path : Path) (line : Nat) (content : String)
  | report (text : String)
deriving DecidableEq

namespace Failure

def message : Failure → String
  | configuration problem => "CONFIG/" ++ problem.message
  | invocation label program fault =>
    "INVOKE/" ++ label ++ ": could not start " ++ program.text ++ ": " ++ fault.text
  | stage label status _ => "STAGE/" ++ label ++ ": engine exited with " ++ status
  | timeout label limit =>
    "TIMEOUT/" ++ label ++ ": no exit after " ++ Decimal.text (limit / 1000) ++ "s"
  | disk path fault => "IO/" ++ path.text ++ ": " ++ fault.text
  | bound digits => "BOUND/context count " ++ digits ++ " does not fit in 64 bits"
  | tuple path line content =>
    "TUPLE/" ++ path.text ++ ":" ++ Decimal.text line ++ ": not an index: " ++ Text.quote content
  | report text => "REPORT/" ++ text

def fault? : Failure → Option Fault
  | invocation _ _ fault | disk _ fault => some fault
  | _ => none

def capturedOutput? : Failure → Option String
  | stage _ _ output => some output
  | _ => none

end Failure
end PointsTo
