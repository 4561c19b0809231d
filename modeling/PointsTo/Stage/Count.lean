import PointsTo.Domains
import PointsTo.PathCount
import PointsTo.Stage.Solver

/-!
The stage that finds out how large the context domain must be. The numbering
program is run once for the path count that it prints; its exit says nothing,
since it fails as long as the domain is too small.
-/

namespace PointsTo
namespace Stage

/-- Give the context domain of a domain file a new size. The answer is the number
of lines set; a file without any is left alone. -/
def patchDomainFile (path : Path) (bound : UInt64)
    (draws : List TemporaryName := TemporaryName.usual) : Run Nat := do
  let text ← Run.lookAtDisk fun d => (d.readText path).mapError (.disk path)
  let replaced := Domains.contextLines text
  if replaced = 0 then
    Run.tell .stages .warn "no VC domain line to patch" [.plain "file" path.text]
    pure 0
  else
    Run.onDisk (WorkDir.writeAtomic path (Text.encode (Domains.patch bound text)) draws)
    pure replaced

def countLabel : String := "count"
def probeFile : String := "number.dtl"

def applyCount (host : Host) (s : Setup) : PathCount → Run String
  | .found count => do
    Run.tell .stages .info ("requires " ++ Decimal.text count.toNat ++ " paths")
    let _ ← patchDomainFile (s.workDir / Datalog.domainFile) count host.draws
    pure ("VC domain set to " ++ Decimal.text count.toNat)
  | .absent => do
    Run.tell .stages .info "probe reported no path count, keeping the current VC bound"
    pure "no path count reported"

def count : Stage where
  id := countLabel
  run := fun host s => do
    let text := Datalog.render Datalog.numbering s.workDir
    let f ← solveText host s countLabel probeFile text .merge
    let counted ← .ofExcept (PathCount.scan (Text.lossyChars f.output))
    let summary ← applyCount host s counted
    pure ⟨some f, some summary⟩

end Stage
end PointsTo
