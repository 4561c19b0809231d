import PointsTo.Tuning.Basic
import PointsTo.Yaml.Node

/-!
Reading a tuning from a YAML mapping. Keys that are missing keep their defaults,
keys that are not known are passed over, and a known key may be given once.
-/

namespace PointsTo

inductive TuningError where
  | yaml (e : Yaml.Error)
  | notMapping
  | badKey
  | repeated (key : String)
  | badValue (key : String)
deriving DecidableEq

namespace TuningError

def message : TuningError → String
  | yaml e => e.message
  | notMapping => "the document is not a mapping"
  | badKey => "a key that is no text"
  | repeated key => key ++ " is given twice"
  | badValue key => key ++ " has a value that it cannot have"

end TuningError

namespace Tuning

open Yaml

/-- A plain text is read as what it looks like. A block is too, if its tag says
what it is. -/
def isReadable (expected : String) (s : Scalar) : Bool :=
  match s.style with
  | .plain => true
  | .literal => s.tag = some expected
  | _ => false

def radixWord? (base : Nat) (ds : List Char) : Option UInt64 :=
  if ds.isEmpty then none else (radixValue? base ds).bind Decimal.toWord?

/-- A number without leading zeros, or with a mark for its base. A plus sign may
stand in front. -/
def word? (cs : List Char) : Option UInt64 :=
  let unsigned := match cs with
    | '+' :: rest => rest
    | _ => cs
  match unsigned with
  | '0' :: 'x' :: ds => radixWord? 16 ds
  | '0' :: 'o' :: ds => radixWord? 8 ds
  | '0' :: 'b' :: ds => radixWord? 2 ds
  | ['0'] => some 0
  | '0' :: _ => none
  | ds => (Decimal.read? ds).bind Decimal.toWord?

def flag? (text : String) : Option Bool :=
  if ["true", "True", "TRUE"].contains text then some true
  else if ["false", "False", "FALSE"].contains text then some false
  else none

def textOf? : Node → Option String
  | .scalar s => some s.text
  | _ => none

def wordOf? : Node → Option UInt64
  | .scalar s => if isReadable "tag:yaml.org,2002:int" s then word? s.text.toList else none
  | _ => none

def flagOf? : Node → Option Bool
  | .scalar s => if isReadable "tag:yaml.org,2002:bool" s then flag? s.text else none
  | _ => none

def set? (t : Tuning) (key : String) (n : Node) : Option (Option Tuning) :=
  match key with
  | "max_heap" => some ((textOf? n).map fun v => { t with maxHeap := v })
  | "bdd_cache" => some ((wordOf? n).map fun v => { t with bddCache := v })
  | "bdd_nodes" => some ((wordOf? n).map fun v => { t with bddNodes := v })
  | "numbering_type" => some ((textOf? n).map fun v => { t with numberingType := v })
  | "learn_best_order" => some ((flagOf? n).map fun v => { t with learnBestOrder := v })
  | "single_ignore" => some ((flagOf? n).map fun v => { t with singleIgnore := v })
  | "clinit" => some ((flagOf? n).map fun v => { t with clinit := v })
  | "filter_null" => some ((flagOf? n).map fun v => { t with filterNull := v })
  | "unknown_types" => some ((flagOf? n).map fun v => { t with unknownTypes := v })
  | _ => none

def setAll : List (Node × Node) → List String → Tuning → Except TuningError Tuning
  | [], _, t => .ok t
  | (key, value) :: pairs, seen, t =>
    match textOf? key with
    | none => .error .badKey
    | some key =>
      match t.set? key value with
      | none => setAll pairs seen t
      | some changed =>
        if seen.contains key then .error (.repeated key)
        else match changed with
          | some t => setAll pairs (key :: seen) t
          | none => .error (.badValue key)

/-- A text without a document, or with an empty one, changes nothing. -/
def ofNode : Option Node → Except TuningError Tuning
  | none => .ok { }
  | some (.mapping pairs) => setAll pairs [] { }
  | some (.scalar s) => if s.text = "" && s.style = .plain then .ok { } else .error .notMapping
  | some _ => .error .notMapping

def ofYaml (text : String) : Except TuningError Tuning := do
  let n ← (Yaml.parse text).mapError .yaml
  ofNode n

end Tuning
end PointsTo
