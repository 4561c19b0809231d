/-!
Paths as texts. A path is kept as it was written: joining, taking the parent or
the file name never looks at a disk and never normalises more than it must. Two
readings of a path are given. `components` is the reading for comparison, where
repeated separators and inner dots count for nothing. `steps` and `ending` are
the reading for a walk, where a trailing separator asks for a directory.
-/

namespace PointsTo

structure Path where
  text : String
deriving DecidableEq, Inhabited

namespace Path

def maxBytes : Nat := 4095

def fits (p : Path) : Bool :=
  p.text.utf8ByteSize ≤ maxBytes

def isAbsolute (p : Path) : Bool :=
  p.text.toList.head? = some '/'

def segments (p : Path) : List String :=
  (p.text.toList.splitOn '/').map String.ofList

def joinSegments (segments : List String) : String :=
  String.intercalate "/" segments

/-- An absolute right side replaces the left one. Otherwise one separator
stands between the two, so an empty right side leaves a trailing one. -/
def join (p q : Path) : Path :=
  if q.isAbsolute then q
  else if p.text.toList.getLast?.all (· = '/') then ⟨p.text ++ q.text⟩
  else ⟨p.text ++ "/" ++ q.text⟩

instance : HDiv Path String Path where
  hDiv p name := p.join ⟨name⟩

/-- How a path starts: at the root, with a dot that names the current
directory, or with its first segment. -/
inductive Lead where
  | root
  | dot
  | plain
deriving DecidableEq

def parts (p : Path) : Lead × List String :=
  match p.segments with
  | "" :: next :: rest => (.root, next :: rest)
  | "." :: rest => (.dot, rest)
  | rest => (.plain, rest)

def ofParts : Lead → List String → Path
  | .root, body => ⟨"/" ++ joinSegments body⟩
  | .dot, [] => ⟨"."⟩
  | .dot, body => ⟨"./" ++ joinSegments body⟩
  | .plain, body => ⟨joinSegments body⟩

def isIdle (segment : String) : Bool :=
  segment = "" || segment = "."

def ancestorsFrom (lead : Lead) : List String → List Path
  | [] => if lead = .dot then [⟨""⟩] else []
  | segment :: before =>
    if isIdle segment then ancestorsFrom lead before
    else ofParts lead (before.dropWhile isIdle).reverse :: ancestorsFrom lead before

/-- The paths above this one, nearest first. A relative path ends at the empty
path and an absolute one at the root. -/
def ancestors (p : Path) : List Path :=
  ancestorsFrom p.parts.1 p.parts.2.reverse

def parent? (p : Path) : Option Path :=
  p.ancestors.head?

/-- The last segment that names something, unless it leads upwards. -/
def fileName? (p : Path) : Option String :=
  match p.parts.2.reverse.dropWhile isIdle with
  | [] => none
  | name :: _ => if name = ".." then none else some name

/-- The part of a file name after its last dot. A name that only starts with a
dot has no extension. -/
def extensionOf? (name : String) : Option String :=
  let reversed := name.toList.reverse
  match reversed.dropWhile (· ≠ '.') with
  | _ :: _ :: _ => some (String.ofList (reversed.takeWhile (· ≠ '.')).reverse)
  | _ => none

inductive Component where
  | root
  | here
  | up
  | name (text : String)
deriving DecidableEq

def bodyComponent? (segment : String) : Option Component :=
  if isIdle segment then none
  else if segment = ".." then some .up
  else some (.name segment)

def components (p : Path) : List Component :=
  let (lead, body) := p.parts
  (match lead with
    | .root => [.root]
    | .dot => [.here]
    | .plain => []) ++ body.filterMap bodyComponent?

def startsWith (p q : Path) : Bool :=
  q.components.isPrefixOf p.components

/-- One move of a walk. Empty segments and dots stay, but only in a directory. -/
inductive Step where
  | stay
  | up
  | down (name : String)
deriving DecidableEq

def Step.ofSegment (segment : String) : Step :=
  if isIdle segment then .stay
  else if segment = ".." then .up
  else .down segment

def steps (p : Path) : List Step :=
  p.segments.map Step.ofSegment

/-- What a path ends in: a name, perhaps with a separator after it, or a
segment that is no name of its own. -/
inductive Ending where
  | root
  | here
  | up
  | name (text : String) (slash : Bool)
deriving DecidableEq

def ending (p : Path) : List Step × Ending :=
  let reversed := p.segments.reverse
  match reversed.dropWhile (· = "") with
  | [] => ([], .root)
  | "." :: before => (before.reverse.map Step.ofSegment, .here)
  | ".." :: before => (before.reverse.map Step.ofSegment, .up)
  | name :: before => (before.reverse.map Step.ofSegment, .name name (reversed.head? = some ""))

def splitSearchList (text : String) : List Path :=
  (text.toList.splitOn ':').map fun cs => ⟨String.ofList cs⟩

/-- The inverse of `splitSearchList`, which has no text for a path with a colon. -/
def joinSearchList? (paths : List Path) : Option String :=
  if paths.any fun p => p.text.toList.contains ':' then none
  else some (String.intercalate ":" (paths.map text))

end Path
end PointsTo
