import PointsTo.Engine.Invoke
import PointsTo.Setup

/-!
Stages of a pipeline. A stage has a name and does its work in the world that the
stage before it left.
-/

namespace PointsTo

/-- What a stage has to show: the process that it ran last, if any, and a word on
what it did. -/
structure Outcome where
  process : Option Finished
  summary : Option String
deriving DecidableEq

structure Stage where
  id : String
  run : Host → Setup → Run Outcome

end PointsTo
