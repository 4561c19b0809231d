import PointsTo.Runner
import PointsTo.Stage.Count
import PointsTo.Stage.Naming
import PointsTo.Stage.Prepare
import PointsTo.Stage.Query
import PointsTo.Stage.Relations

/-!
What a run is to do, and the stages that do it.
-/

namespace PointsTo

inductive Analysis where
  /-- A Datalog program, solved as it is. -/
  | datalog (program : Path)
  /-- A query, compiled to Datalog first. -/
  | query (program : Path)
deriving DecidableEq

structure Plan where
  /-- The main class of the analysed program. -/
  entryPoint : String
  analysis : Analysis
  mode : Mode
  map : Option MapRequest
deriving DecidableEq

namespace Plan

def analysisStage (p : Plan) : Stage :=
  match p.analysis with
  | .datalog program => .solve program
  | .query program => .query program

/-- A fast run does without new relations. -/
def stages (p : Plan) : List Stage :=
  [.prepare p.mode] ++
    (if p.mode = .full then [.relations p.entryPoint] else []) ++
    [.count, .number, p.analysisStage] ++
    p.map.toList.map .naming

def stageIds (p : Plan) : List String :=
  p.stages.map Stage.id

def pipelineId (p : Plan) : String :=
  Runner.pipelineId p.stages

def run (p : Plan) (host : Host) (s : Setup) : Run Completed :=
  Runner.run host s p.stages

end Plan
end PointsTo
