import PointsTo.Log

/-!
Which events are told. A filter is a list of directives separated by commas. A
directive is a level, a target, or a target with a level; for an event the
directive with the longest target that opens the event's target decides.
-/

namespace PointsTo
namespace Log

structure Directive where
  /-- Empty for all targets. -/
  target : List Char
  /-- The last level that is told, or nothing at all. -/
  level : Option Level
deriving DecidableEq

abbrev Filter := List Directive

namespace Filter

def lower (cs : List Char) : List Char :=
  cs.map Char.toLower

def level? (cs : List Char) : Option (Option Level) :=
  match String.ofList (lower cs) with
  | "off" | "0" => some none
  | "error" | "1" => some (some .error)
  | "warn" | "2" => some (some .warn)
  | "info" | "3" => some (some .info)
  | "debug" | "4" => some (some .debug)
  | "trace" | "5" => some (some .trace)
  | _ => none

def opens (c : Char) : Bool :=
  c.isAlphanum || ['-', ':', '_'].contains c || 127 < c.toNat

/-- A directive. A target without a level is told in full. -/
def directive? (cs : List Char) : Option Directive :=
  match level? cs with
  | some level => some ⟨[], level⟩
  | none =>
    if !cs.head?.any opens then none else
    let target := cs.takeWhile (· ≠ '=')
    match cs.drop target.length with
    | [] => some ⟨target, some .trace⟩
    | _ :: [] => some ⟨target, some .trace⟩
    | _ :: level => (level? level).map (⟨target, ·⟩)

/-- Later directives for the same target take the place of earlier ones. -/
def add (f : Filter) (d : Directive) : Filter :=
  d :: f.filter (·.target ≠ d.target)

/-- A filter from its text. A text without directives lets errors through. -/
def parse? (text : String) : Option Filter := do
  let parts := (text.toList.splitOn ',').filter (!·.isEmpty)
  let directives ← parts.mapM directive?
  if directives.isEmpty then some [⟨[], some .error⟩]
  else some (directives.foldl add [])

def deciding? (f : Filter) (target : List Char) : Option Directive :=
  (f.filter fun d => d.target.isPrefixOf target).foldl
    (fun best d =>
      match best with
      | some b => if b.target.length < d.target.length then some d else some b
      | none => some d)
    none

def tells (f : Filter) (e : Event) : Bool :=
  match f.deciding? e.source.target.toList with
  | some ⟨_, some level⟩ => e.level.rank ≤ level.rank
  | _ => false

end Filter
end Log
end PointsTo
