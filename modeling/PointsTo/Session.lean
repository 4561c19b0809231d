import PointsTo.Arguments
import PointsTo.Log.Filter
import PointsTo.Tuning.Reader

/-!
A run as the user asks for it: from the command line and the environment to what
is printed and the exit status.
-/

namespace PointsTo

inductive SessionError where
  | failure (e : Failure)
  | currentDirectory (fault : Fault)
  | tuningUnreadable (path : Path) (fault : Fault)
  | tuningInvalid (path : Path) (e : TuningError)
deriving DecidableEq

namespace SessionError

/-- The message with its causes. A failure with a fault behind it tells the fault
a second time. -/
def message : SessionError → String
  | failure e => e.message ++ ((e.fault?.map fun fault => ": " ++ fault.text).getD "")
  | currentDirectory fault => "cannot read the current directory: " ++ fault.text
  | tuningUnreadable path fault => "reading tuning file " ++ path.text ++ ": " ++ fault.text
  | tuningInvalid path e => "invalid tuning file " ++ path.text ++ ": " ++ e.message

end SessionError

namespace Session

def loadTuning (d : Disk) : Option Path → Except SessionError Tuning
  | none => .ok { }
  | some path => do
    let text ← (d.readText path).mapError (.tuningUnreadable path)
    (Tuning.ofYaml text).mapError (.tuningInvalid path)

structure Surroundings where
  overrides : Toolchain.Overrides
  /-- The directory of the program itself. -/
  ownDir : Path
  runId : String
deriving DecidableEq

def toolchainEvent (t : Toolchain) : Log.Event :=
  ⟨.core, .info,
    "toolchain resolved, base classpath " ++ Text.quoteNames (t.baseClassPath.map Path.text),
    [.plain "home" t.home.text, .plain "runtime" t.runtime.text]⟩

def resolveToolchain (overrides : Toolchain.Overrides) (ownDir : Path) : Run Toolchain := do
  let t ← Run.lookAtDisk (Toolchain.resolve · overrides ownDir)
  .update (·.tell (toolchainEvent t))
  pure t

def config (r : Request) (root : Path) (tuning : Tuning) : RunConfig :=
  { (RunConfig.new root).withWorkDir r.workDir with
    tuning := tuning
    cleanup := !r.noCleanup
    strict := r.strict
    timeLimit := r.timeLimit }

def prepare (around : Surroundings) (r : Request) (w : World) :
    Except SessionError Setup × World :=
  match resolveToolchain around.overrides around.ownDir w with
  | (.error e, w) => (.error (.failure e), w)
  | (.ok toolchain, w) =>
    let setup := do
      let root ← w.disk.currentPath.mapError .currentDirectory
      let tuning ← loadTuning w.disk r.config
      .ok ⟨toolchain, config r root tuning, around.runId⟩
    (setup, w)

structure Printed where
  stdout : String
  stderr : String
deriving DecidableEq

def reportFile : String := "run-report.json"

def analysisOutput (c : Completed) : String :=
  let processes := [Stage.solveLabel, Setup.queryLabel].filterMap fun id =>
    (c.outcome? id).bind Outcome.process
  String.join (processes.map fun f => f.outputText ++ "\n")

def writeReport (s : Setup) (c : Completed) : Run Unit := do
  let path := s.workDir / reportFile
  Run.onDisk (c.report.write path)
  Run.tell .session .info "done" [.plain "report" path.text]

def run (host : Host) (s : Setup) (p : Plan) (w : World) :
    Except Failure Completed × Printed × World :=
  let start := ⟨.session, .info, "running " ++ p.pipelineId, [.plain "run_id" s.runId]⟩
  match p.run host s (w.tell start) with
  | (.error e, w) =>
    let told := (e.capturedOutput?.map (· ++ "\n")).getD ""
    (.error e, ⟨"", told⟩, w)
  | (.ok c, w) =>
    let printed := ⟨analysisOutput c, ""⟩
    match writeReport s c w with
    | (.ok (), w) => (.ok c, printed, w)
    | (.error e, w) => (.error e, printed, w)

end Session
end PointsTo
