import PointsTo.Attempt
import PointsTo.Engine.Engine
import PointsTo.Log
import PointsTo.Timestamp
import PointsTo.WorkDir

/-!
What a run acts upon and leaves a trace in: the disk, the engine calls made, the
events told, and how often a clock was read.
-/

namespace PointsTo

structure World where
  disk : Disk
  /-- The engine calls in order, each with the disk that it found. -/
  calls : List EngineCall
  events : List Log.Event
  clockReadings : Nat

namespace World

def ofDisk (d : Disk) : World :=
  ⟨d, [], [], 0⟩

def withDisk (w : World) (d : Disk) : World :=
  { w with disk := d }

def tell (w : World) (e : Log.Event) : World :=
  { w with events := w.events ++ [e] }

end World

structure Host where
  engine : Engine
  /-- The time at each reading of the clock. -/
  now : Nat → Timestamp
  /-- Milliseconds on a clock that never goes back, at each reading. -/
  ticks : Nat → Nat
  /-- The names that are drawn for a temporary file, in turn. -/
  draws : List TemporaryName := TemporaryName.usual

abbrev Run (α : Type) : Type := Attempt World α

namespace Run

def tell (source : Log.Source) (level : Log.Level) (message : String)
    (fields : List Log.Field := []) : Run Unit :=
  .update (·.tell ⟨source, level, message, fields⟩)

def onDisk {α : Type} (x : Attempt Disk α) : Run α := fun w =>
  ((x w.disk).1, w.withDisk (x w.disk).2)

def lookAtDisk {α : Type} (f : Disk → Except Failure α) : Run α :=
  .look fun w => f w.disk

def readClock (host : Host) : Run Timestamp := fun w =>
  (.ok (host.now w.clockReadings), { w with clockReadings := w.clockReadings + 1 })

def readTicks (host : Host) : Run Nat := fun w =>
  (.ok (host.ticks w.clockReadings), { w with clockReadings := w.clockReadings + 1 })

end Run
end PointsTo
