import PointsTo.Datalog.Programs
import PointsTo.ProgramFile
import PointsTo.Stage.Basic

/-!
Solver calls, and the two stages that consist of one: numbering the contexts and
solving the user's program.
-/

namespace PointsTo
namespace Stage

def call (host : Host) (s : Setup) (command : Command) (mode : ErrorStream) : Run Finished :=
  Run.invoke host s.config.timeLimit command s.root mode

/-- Solve a program that is written to a file of the working directory for the
length of the call. -/
def solveText (host : Host) (s : Setup) (label fileName text : String) (mode : ErrorStream) :
    Run Finished :=
  let path := s.workDir / fileName
  ProgramFile.during path text s.config.cleanup do
    let command ← .ofExcept (s.solverCommand label path)
    call host s command mode

/-- An unsuccessful end of a solver is only warned about, unless the run is
strict. -/
def checkExit (s : Setup) (label : String) (f : Finished) : Run Unit :=
  if s.config.strict then .ofExcept (f.requireSuccess label)
  else if f.success then pure ()
  else Run.tell .stages .warn f.exitWarning [.inQuotes "stage" label]

def numberLabel : String := "number"
def numberingFile : String := "numbering.dtl"

def number : Stage where
  id := numberLabel
  run := fun host s => do
    let text := Datalog.render Datalog.numbering s.workDir
    let f ← solveText host s numberLabel numberingFile text .merge
    checkExit s numberLabel f
    pure ⟨some f, none⟩

def solveLabel : String := "solve"

def solve (program : Path) : Stage where
  id := solveLabel
  run := fun host s => do
    Run.tell .stages .info "running analysis" [.plain "program" program.text]
    let command ← .ofExcept (s.solverCommand solveLabel program)
    let f ← call host s command .merge
    checkExit s solveLabel f
    pure ⟨some f, none⟩

end Stage
end PointsTo
