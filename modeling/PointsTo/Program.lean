import PointsTo.Session

/-!
The program as a whole: arguments and environment in, exit status and printed
text out.
-/

namespace PointsTo
namespace Program

def versionLine : String := "ptrun 1.0.0\n"

/-- The filter for events. One that cannot be read counts for nothing. -/
def filter (given : Option String) (verbose : Bool) : Log.Filter :=
  match given.bind Log.Filter.parse? with
  | some f => f
  | none => [⟨[], some (if verbose then .debug else .info)⟩]

def logText (f : Log.Filter) (events : List Log.Event) : String :=
  String.join ((events.filter f.tells).map fun e => e.line ++ "\n")

inductive Answer where
  /-- The arguments do not lead to a run. -/
  | usage (e : UsageError)
  | finished (result : Except SessionError Unit) (printed : Session.Printed)

namespace Answer

/-- Help and version end well, as does a run without an error. -/
def status : Answer → Nat
  | usage e => if e.isMistake then 1 else 0
  | finished (.ok ()) _ => 0
  | finished (.error _) _ => 1

end Answer

def carryOut (host : Host) (around : Session.Surroundings) (r : Request) (w : World) :
    Except SessionError Unit × Session.Printed × World :=
  match Session.prepare around r w with
  | (.error e, w) => (.error e, ⟨"", ""⟩, w)
  | (.ok s, w) =>
    match Session.run host s r.plan w with
    | (.ok _, printed, w) => (.ok (), printed, w)
    | (.error e, printed, w) => (.error (.failure e), printed, w)

def finalEvents : Except SessionError Unit → List Log.Event
  | .ok () => []
  | .error e => [⟨.program, .error, e.message, []⟩]

def run (host : Host) (around : Session.Surroundings) (logFilter : Option String)
    (args : List String) (w : World) : Answer × World :=
  match Arguments.parse args with
  | .error e => (.usage e, w)
  | .ok r =>
    let (result, printed, after) := carryOut host around r w
    let f := filter logFilter r.verbose
    let stderr := logText f (after.events.drop w.events.length) ++ printed.stderr ++
      logText f (finalEvents result)
    (.finished result ⟨printed.stdout, stderr⟩, after)

end Program
end PointsTo
