import PointsTo.Plan

/-!
The command line. Words are read from left to right. An option waits for its
values and a positional word for its turn; either is settled when the next one
starts, so of two faults the first one settled is reported. A word that cannot
be read at all is reported at once.
-/

namespace PointsTo

inductive UsageError where
  | missingArgument
  | unknownArgument
  /-- Something is given twice. -/
  | conflict
  /-- A flag is given a value. -/
  | tooManyValues
  | wrongNumberOfValues
  /-- A value is missing or empty. -/
  | invalidValue
  /-- A value is not of the right kind. -/
  | badNumber
  /-- Help is asked for. -/
  | help
  /-- The version is asked for. -/
  | version
deriving DecidableEq

/-- Help and version are asked for, all else is a mistake. -/
def UsageError.isMistake : UsageError → Bool
  | help | version => false
  | _ => true

structure Request where
  entryPoint : String
  program : Path
  fast : Bool
  pql : Bool
  config : Option Path
  workDir : Path
  noCleanup : Bool
  strict : Bool
  /-- In seconds. -/
  stageTimeout : Option UInt64
  /-- The values of all mappings asked for, in order. -/
  map : List Path
  verbose : Bool
deriving DecidableEq

namespace Request

/-- A mapping is done if exactly three values are given for it. -/
def mapRequest? (r : Request) : Option MapRequest :=
  match r.map with
  | [tuples, names, dest] => some ⟨tuples, names, dest⟩
  | _ => none

def plan (r : Request) : Plan where
  entryPoint := r.entryPoint
  analysis := if r.pql then .query r.program else .datalog r.program
  mode := if r.fast then .fast else .full
  map := r.mapRequest?

def timeLimit (r : Request) : Option Nat :=
  r.stageTimeout.map fun seconds => seconds.toNat * 1000

end Request

namespace Arguments

inductive Flag where
  | fast
  | pql
  | noCleanup
  | strict
  | verbose
deriving DecidableEq

inductive Setting where
  | config
  | workDir
  | stageTimeout
  | map
deriving DecidableEq

def Setting.arity : Setting → Nat
  | map => 3
  | _ => 1

inductive Switch where
  | flag (f : Flag)
  | setting (s : Setting)
  /-- Ends the reading with an answer of its own. -/
  | info (answer : UsageError)
deriving DecidableEq

def longName? (name : String) : Option Switch :=
  match name with
  | "fast" => some (.flag .fast)
  | "pql" => some (.flag .pql)
  | "no-cleanup" => some (.flag .noCleanup)
  | "strict" => some (.flag .strict)
  | "verbose" => some (.flag .verbose)
  | "config" => some (.setting .config)
  | "work-dir" => some (.setting .workDir)
  | "stage-timeout" => some (.setting .stageTimeout)
  | "map" => some (.setting .map)
  | "help" => some (.info .help)
  | "version" => some (.info .version)
  | _ => none

def shortName? (c : Char) : Option Switch :=
  match c with
  | 'v' => some (.flag .verbose)
  | 'h' => some (.info .help)
  | 'V' => some (.info .version)
  | _ => none

/-- What has been started and not yet settled. -/
inductive Pending where
  | setting (s : Setting) (values : List String)
  | positional (value : String)
deriving DecidableEq

structure Given where
  entryPoint : Option String := none
  program : Option Path := none
  flags : List Flag := []
  config : Option Path := none
  workDir : Option Path := none
  stageTimeout : Option UInt64 := none
  map : List Path := []
deriving DecidableEq

def path (value : String) : Except UsageError Path :=
  if value = "" then .error .invalidValue else .ok ⟨value⟩

namespace Given

def hasSetting (g : Given) : Setting → Bool
  | .config => g.config.isSome
  | .workDir => g.workDir.isSome
  | .stageTimeout => g.stageTimeout.isSome
  | .map => false

def addFlag (g : Given) (f : Flag) : Except UsageError Given :=
  if g.flags.contains f then .error .conflict else .ok { g with flags := f :: g.flags }

/-- Settle an option: first the number of its values, then whether it was given
before, then the values themselves. Only mappings may be given more than once. -/
def addSetting (g : Given) (s : Setting) (values : List String) : Except UsageError Given :=
  if values.isEmpty then .error .invalidValue
  else if values.length ≠ s.arity then .error .wrongNumberOfValues
  else if g.hasSetting s then .error .conflict
  else match s, values with
    | .config, value :: _ => do .ok { g with config := some (← path value) }
    | .workDir, value :: _ => do .ok { g with workDir := some (← path value) }
    | .stageTimeout, value :: _ =>
      match Decimal.readWord? value.toList with
      | some seconds => .ok { g with stageTimeout := some seconds }
      | none => .error .badNumber
    | _, values => do
      let paths ← values.mapM path
      .ok { g with map := g.map ++ paths }

/-- The first positional word is the entry point, which may be empty, and the
second one the program. -/
def addPositional (g : Given) (value : String) : Except UsageError Given :=
  if g.entryPoint.isNone then .ok { g with entryPoint := some value }
  else do .ok { g with program := some (← path value) }

def settle (g : Given) : Option Pending → Except UsageError Given
  | none => .ok g
  | some (.setting s values) => g.addSetting s values
  | some (.positional value) => g.addPositional value

end Given

structure Reader where
  given : Given := { }
  pending : Option Pending := none
  /-- How many positional words have been started. -/
  positionals : Nat := 0
  /-- After two dashes all words are positional. -/
  onlyPositionals : Bool := false
deriving DecidableEq

namespace Reader

def begin (r : Reader) (next : Option Pending) : Except UsageError Reader := do
  .ok { r with given := ← r.given.settle r.pending, pending := next }

def switch (r : Reader) : Switch → Except UsageError Reader
  | .flag f => do
    let r ← r.begin none
    .ok { r with given := ← r.given.addFlag f }
  | .setting s => r.begin (some (.setting s []))
  | .info answer => do
    let _ ← r.begin none
    .error answer

def attached (r : Reader) (value : String) : Switch → Except UsageError Reader
  | .setting s => do
    let r ← r.begin none
    .ok { r with given := ← r.given.addSetting s [value] }
  | _ => .error .tooManyValues

def long (r : Reader) (text : List Char) : Except UsageError Reader :=
  let name := text.takeWhile (· ≠ '=')
  match longName? (String.ofList name) with
  | none => .error .unknownArgument
  | some switch =>
    match text.drop name.length with
    | [] => r.switch switch
    | _ :: value => r.attached (String.ofList value) switch

def shorts (r : Reader) : List Char → Except UsageError Reader
  | [] => .ok r
  | c :: cs =>
    match shortName? c with
    | none => .error .unknownArgument
    | some switch => do shorts (← r.switch switch) cs

def positional (r : Reader) (value : String) : Except UsageError Reader :=
  if 2 ≤ r.positionals then .error .unknownArgument
  else do
    let r ← r.begin (some (.positional value))
    .ok { r with positionals := r.positionals + 1 }

/-- A word without dashes belongs to an option that still waits for values. -/
def plain (r : Reader) (value : String) : Except UsageError Reader :=
  match r.pending with
  | some (.setting s values) =>
    if values.length < s.arity then
      .ok { r with pending := some (.setting s (values ++ [value])) }
    else r.positional value
  | _ => r.positional value

def word (r : Reader) (w : String) : Except UsageError Reader :=
  if r.onlyPositionals then r.positional w
  else match w.toList with
    | ['-', '-'] => .ok { r with onlyPositionals := true }
    | '-' :: '-' :: text => r.long text
    | '-' :: c :: cs => r.shorts (c :: cs)
    | _ => r.plain w

def words (r : Reader) : List String → Except UsageError Reader
  | [] => .ok r
  | w :: ws => do words (← r.word w) ws

end Reader

def Given.request (g : Given) : Except UsageError Request :=
  match g.entryPoint, g.program with
  | some entryPoint, some program =>
    .ok
      { entryPoint := entryPoint
        program := program
        fast := g.flags.contains .fast
        pql := g.flags.contains .pql
        config := g.config
        workDir := g.workDir.getD ⟨RunConfig.defaultWorkDir⟩
        noCleanup := g.flags.contains .noCleanup
        strict := g.flags.contains .strict
        stageTimeout := g.stageTimeout
        map := g.map
        verbose := g.flags.contains .verbose }
  | _, _ => .error .missingArgument

def parse (args : List String) : Except UsageError Request := do
  let r ← ({ } : Reader).words args
  let g ← r.given.settle r.pending
  g.request

end Arguments
end PointsTo
