import PointsTo.Text.Quoted

/-!
Events of a run, as they are told to its user.
-/

namespace PointsTo
namespace Log

inductive Level where
  | error
  | warn
  | info
  | debug
  | trace
deriving DecidableEq

namespace Level

/-- The higher, the more is told. -/
def rank : Level → Nat
  | error => 1
  | warn => 2
  | info => 3
  | debug => 4
  | trace => 5

def name : Level → String
  | error => "ERROR"
  | warn => "WARN"
  | info => "INFO"
  | debug => "DEBUG"
  | trace => "TRACE"

end Level

inductive Source where
  | core
  | stages
  | session
  | program
deriving DecidableEq

def Source.target : Source → String
  | core => "ptrun_core"
  | stages => "ptrun_stages"
  | session => "ptrun_cli"
  | program => "ptrun"

structure Field where
  name : String
  value : String
  quoted : Bool
deriving DecidableEq

namespace Field

def plain (name value : String) : Field := ⟨name, value, false⟩

def inQuotes (name value : String) : Field := ⟨name, value, true⟩

def text (f : Field) : String :=
  f.name ++ "=" ++ if f.quoted then Text.quote f.value else f.value

end Field

structure Event where
  source : Source
  level : Level
  message : String
  fields : List Field
deriving DecidableEq

def Event.line (e : Event) : String :=
  String.intercalate " " (e.level.name :: e.message :: e.fields.map Field.text)

end Log
end PointsTo
