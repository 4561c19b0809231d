import PointsTo.Stage.Solver
import PointsTo.Text.Blank
import PointsTo.Text.Lines

/-!
The stage for a query: the assignable types are written out, the query is
compiled to a Datalog program, and that program is solved.
-/

namespace PointsTo
namespace Stage

def dumpTypesFile : String := "dumpat.dtl"
def compiledFile : String := "pql_conv.dtl"

/-- Compile the query. What the compiler says on its error stream is passed on, and
only its exit decides whether it failed. -/
def compileQuery (host : Host) (s : Setup) (query : Path) : Run String := do
  Run.tell .stages .info "translating query" [.plain "query" query.text]
  let command ← .ofExcept (s.generatorCommand query)
  let f ← call host s command .separate
  if !(Text.trim (Text.lossyChars f.stderr)).isEmpty then
    Run.tell .stages .warn ("query translation reported:\n" ++ f.stderrText)
  .ofExcept (f.requireSuccess Setup.queryLabel)
  pure f.outputText

def query (query : Path) : Stage where
  id := Setup.queryLabel
  run := fun host s => do
    let dump := Datalog.render Datalog.dumpTypes s.workDir
    let types ← solveText host s Setup.queryLabel dumpTypesFile dump .merge
    checkExit s Setup.queryLabel types
    let program ← compileQuery host s query
    let f ← solveText host s Setup.queryLabel compiledFile program .merge
    checkExit s Setup.queryLabel f
    let lines := (Text.lines program.toList).length
    pure ⟨some f, some ("translated " ++ Decimal.text lines ++ " lines of Datalog")⟩

end Stage
end PointsTo
