import PointsTo.Json
import PointsTo.Timestamp
import PointsTo.WorkDir

/-!
The report of a run, which is kept as JSON beside its results.
-/

namespace PointsTo

structure StageReport where
  id : String
  /-- The exit code of the stage's process, if it had one and no signal ended it. -/
  exitCode : Option Int
  success : Bool
  latencyMs : Nat
  /-- The digest of what the process printed. -/
  outputHash : Option String
  summary : Option String
deriving DecidableEq

namespace StageReport

/-- A missing summary has no member at all. -/
def toJson (r : StageReport) : Json :=
  .object <|
    [("id", .string r.id), ("exit_code", .ofOption .number r.exitCode), ("success", .bool r.success),
      ("latency_ms", .number r.latencyMs), ("output_hash", .ofOption .string r.outputHash)] ++
      r.summary.toList.map fun summary => ("summary", .string summary)

end StageReport

structure Report where
  runId : String
  pipelineId : String
  startedAt : Timestamp
  finishedAt : Timestamp
  stages : List StageReport
deriving DecidableEq

namespace Report

def toJson (r : Report) : Json :=
  .object
    [("run_id", .string r.runId), ("pipeline_id", .string r.pipelineId),
      ("started_at", .string r.startedAt.text), ("finished_at", .string r.finishedAt.text),
      ("stages", .array (r.stages.map StageReport.toJson))]

def stage? (r : Report) (id : String) : Option StageReport :=
  r.stages.find? (·.id = id)

def write (r : Report) (path : Path) : Attempt Disk Unit :=
  Disk.change path (·.write path (Text.encode r.toJson.text))

end Report
end PointsTo
