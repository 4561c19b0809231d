import PointsTo.Engine.Command
import PointsTo.RunConfig
import PointsTo.Toolchain

/-!
What all stages of a run share, and the engine commands that follow from it.
-/

namespace PointsTo

structure Setup where
  toolchain : Toolchain
  config : RunConfig
  runId : String
deriving DecidableEq

namespace Setup

def root (s : Setup) : Path := s.config.root

def workDir (s : Setup) : Path := s.config.workDir

def engineCommand (s : Setup) (label : String) : Command :=
  .new label s.toolchain.runtime

def solverCommand (s : Setup) (label : String) (program : Path) : Except Failure Command := do
  let c ← (s.engineCommand label).classPath [s.toolchain.pqlJar, s.toolchain.home]
  let c := (c.arg ("-mx" ++ s.config.tuning.maxHeap)).dirProperty "basedir" s.workDir
  let c := s.config.tuning.solverProperties.foldl (fun c (key, value) => c.property key value) c
  .ok ((c.arg "net.sf.bddbddb.Solver").arg program.text)

def relationsLabel : String := "relations"

def relationsClassPath (s : Setup) : List Path :=
  s.toolchain.home :: s.toolchain.pqlJar :: s.toolchain.baseClassPath

def dumpCommand (s : Setup) (entryPoint : String) : Except Failure Command := do
  let c ← (s.engineCommand relationsLabel).classPath s.relationsClassPath
  let c := (c.arg ("-Xmx" ++ s.config.tuning.maxHeap)).dirProperty "pa.dumppath" s.workDir
  let c := c.property "pa.specialmapinfo" "yes"
  let c := c.property "pa.dumpunmunged" "yes"
  let c := c.property "pa.signaturesinlocs" "yes"
  .ok ((c.arg "joeq.Main.GenRelations").arg entryPoint)

def equivalenceCommand (s : Setup) : Except Failure Command := do
  let c := (s.engineCommand relationsLabel).arg ("-mx" ++ s.config.tuning.maxHeap)
  let c := (c.dirProperty "basedir" s.workDir).dirProperty "resultdir" s.workDir
  let c ← (c.property "pa.discovercallgraph" "yes").classPath s.relationsClassPath
  .ok ((c.arg "net.sf.bddbddb.BuildEquivalenceRelation").addArgs
    ["H0", "H0", "heap.map", "I0", "invoke.map"])

def queryLabel : String := "pql"

def generatorCommand (s : Setup) (query : Path) : Except Failure Command := do
  let c ← (s.engineCommand queryLabel).classPath [s.toolchain.home, s.toolchain.pqlJar]
  let c := c.property "pql.datalog.pacs" "no"
  .ok ((c.arg "net.sf.pql.datalog.DatalogGenerator").arg query.text)

end Setup
end PointsTo
