import PointsTo.Blake3
import PointsTo.Report
import PointsTo.Stage.Basic

/-!
Running stages one after the other, until one fails or all are done.
-/

namespace PointsTo

structure Completed where
  report : Report
  outcomes : List (String × Outcome)
deriving DecidableEq

namespace Completed

def outcome? (c : Completed) (id : String) : Option Outcome :=
  (c.outcomes.find? (·.1 = id)).map Prod.snd

end Completed

namespace Runner

def pipelineId (stages : List Stage) : String :=
  String.intercalate "→" (stages.map Stage.id)

def stageReport (id : String) (latencyMs : Nat) (o : Outcome) : StageReport where
  id := id
  exitCode := o.process.bind Finished.code
  success := o.process.all Finished.success
  latencyMs := latencyMs
  outputHash := o.process.map fun f => digest f.output
  summary := o.summary

def tellFailure {α : Type} (id : String) (x : Run α) : Run α := fun w =>
  match x w with
  | (.ok a, w) => (.ok a, w)
  | (.error e, w) =>
    (.error e, w.tell ⟨.core, .error, "stage failed: " ++ e.message, [.inQuotes "stage" id]⟩)

def runStage (host : Host) (s : Setup) (stage : Stage) : Run (StageReport × String × Outcome) := do
  let start ← Run.readTicks host
  Run.tell .core .info "stage started" [.inQuotes "stage" stage.id]
  let outcome ← tellFailure stage.id (stage.run host s)
  let finish ← Run.readTicks host
  let latencyMs := finish - start
  if let some f := outcome.process then
    Run.tell .core .debug ("engine output:\n" ++ f.outputText) [.inQuotes "stage" stage.id]
  Run.tell .core .info "stage finished"
    [.inQuotes "stage" stage.id, .plain "latency_ms" (Decimal.text latencyMs),
      .inQuotes "summary" (outcome.summary.getD "")]
  pure (stageReport stage.id latencyMs outcome, stage.id, outcome)

def runStages (host : Host) (s : Setup) : List Stage → Run (List (StageReport × String × Outcome))
  | [] => pure []
  | stage :: stages => do
    let first ← runStage host s stage
    let rest ← runStages host s stages
    pure (first :: rest)

def run (host : Host) (s : Setup) (stages : List Stage) : Run Completed := do
  Run.lookAtDisk s.config.validate
  let startedAt ← Run.readClock host
  Run.tell .core .info "pipeline started"
    [.plain "run_id" s.runId, .plain "pipeline" (pipelineId stages)]
  let done ← runStages host s stages
  let finishedAt ← Run.readClock host
  pure
    { report :=
        { runId := s.runId
          pipelineId := pipelineId stages
          startedAt := startedAt
          finishedAt := finishedAt
          stages := done.map Prod.fst }
      outcomes := done.map Prod.snd }

end Runner
end PointsTo
