import PointsTo.Text.Utf8

/-!
Reading the two streams of a process while it runs. Chunks arrive from either
stream in any order until both have ended; what is done with the error stream
is chosen beforehand.
-/

namespace PointsTo

inductive Stream where
  | out
  | err
deriving DecidableEq

inductive ErrorStream where
  /-- It joins the output in order of arrival. -/
  | merge
  /-- It goes nowhere. -/
  | discard
  /-- It is kept apart. -/
  | separate
deriving DecidableEq

namespace Capture

inductive Arrival where
  | chunk (stream : Stream) (data : Bytes)
  | ended (stream : Stream)
deriving DecidableEq

end Capture

structure Capture where
  output : Bytes
  errors : Bytes
  outOpen : Bool
  errOpen : Bool
deriving DecidableEq

namespace Capture

/-- Before anything has arrived. A discarded stream is never open. -/
def start (mode : ErrorStream) : Capture :=
  ⟨[], [], true, mode ≠ .discard⟩

/-- What a stream that is not open sends is not seen. -/
def step (mode : ErrorStream) (c : Capture) : Arrival → Capture
  | .chunk .out data => if c.outOpen then { c with output := c.output ++ data } else c
  | .chunk .err data =>
    if c.errOpen then
      if mode = .merge then { c with output := c.output ++ data }
      else { c with errors := c.errors ++ data }
    else c
  | .ended .out => { c with outOpen := false }
  | .ended .err => { c with errOpen := false }

def collect (mode : ErrorStream) (arrivals : List Arrival) : Capture :=
  arrivals.foldl (step mode) (start mode)

end Capture
end PointsTo
