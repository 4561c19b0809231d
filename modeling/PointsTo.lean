import PointsTo.Text.Utf8
import PointsTo.Text.Blank
import PointsTo.Text.Lines
import PointsTo.Text.Decimal
import PointsTo.Text.Quoted
import PointsTo.Path
import PointsTo.Disk.Errno
import PointsTo.Disk.Table
import PointsTo.Disk.Tree
import PointsTo.Disk.Move
import PointsTo.Disk.Basic
import PointsTo.Disk.Fault
import PointsTo.Disk.Walk
import PointsTo.Disk.Lookup
import PointsTo.Disk.Change
import PointsTo.Failure
import PointsTo.Log
import PointsTo.Attempt
import PointsTo.Engine.Command
import PointsTo.Engine.Finished
import PointsTo.Engine.Capture
import PointsTo.Engine.Engine
import PointsTo.PathCount
import PointsTo.Domains
import PointsTo.Datalog.Programs
import PointsTo.Tuning.Basic
import PointsTo.RunConfig
import PointsTo.Toolchain
import PointsTo.Setup
import PointsTo.Timestamp
import PointsTo.World
import PointsTo.Engine.Invoke
import PointsTo.Stage.Basic
import PointsTo.WorkDir
import PointsTo.ProgramFile
import PointsTo.TupleMap
import PointsTo.Stage.Prepare
import PointsTo.Stage.Solver
import PointsTo.Stage.Relations
import PointsTo.Stage.Count
import PointsTo.Stage.Query
import PointsTo.Stage.Naming
import PointsTo.Blake3
import PointsTo.Json
import PointsTo.Report
import PointsTo.Runner
import PointsTo.Plan
import PointsTo.Yaml.Cursor
import PointsTo.Yaml.Scalar
import PointsTo.Yaml.Token
import PointsTo.Yaml.Scanner
import PointsTo.Yaml.Node
import PointsTo.Tuning.Reader
import PointsTo.Arguments
import PointsTo.Log.Filter
import PointsTo.Session
import PointsTo.Program
import PointsTo.RunId
import PointsTo.Main
import PointsTo.Proofs.Wipe
import PointsTo.Proofs.Bound
import PointsTo.Proofs.Confinement
import PointsTo.Proofs.Survival
import PointsTo.Proofs.Protocol
import PointsTo.Proofs.Strictness
import PointsTo.Proofs.Stale
import PointsTo.Proofs.Programs
import PointsTo.Proofs.Preflight
import PointsTo.Proofs.InTurn
import PointsTo.Proofs.Cleanup
import PointsTo.Proofs.Reuse
import PointsTo.Proofs.Account
import PointsTo.Proofs.Untouched
import PointsTo.Proofs.Contract
import PointsTo.Proofs.PrintedCount
import PointsTo.Proofs.Domains
import PointsTo.Proofs.Stroke
import PointsTo.Proofs.TupleMap
import PointsTo.Proofs.Indices
import PointsTo.Proofs.Emptied
import PointsTo.Proofs.RemovalCount
import PointsTo.Proofs.Sweep
import PointsTo.Proofs.Relocation
import PointsTo.Proofs.Relations
import PointsTo.Proofs.Translation
import PointsTo.Proofs.Capture
import PointsTo.Proofs.Options
import PointsTo.Proofs.Summary
import PointsTo.Proofs.Viewpoint
import PointsTo.Proofs.Arrangement
import PointsTo.Proofs.Tuning
import PointsTo.Proofs.Report
import PointsTo.Proofs.Foresight
