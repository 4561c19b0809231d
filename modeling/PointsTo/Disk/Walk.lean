import PointsTo.Disk.Tree
import PointsTo.Disk.Errno

/-!
Walking a path through a tree. Links are followed wherever they stand; a walk
follows at most forty of them. The recursion is on the moves that are left and,
where a link adds moves, on the number of links still allowed.
-/

namespace PointsTo
namespace Tree

def entry? (t : Tree) : Location → Option Entry
  | [] => some (.directory 0o755)
  | l@(_ :: _) => t.find l

def maxNameBytes : Nat := 255

def maxLinks : Nat := 40

def child? (t : Tree) (d : Location) (name : String) : Except Errno (Option Entry) :=
  if t.isDirectory d = false then .error .notDirectory
  else if maxNameBytes < name.utf8ByteSize then .error .nameTooLong
  else .ok (t.find (name :: d))

def linkStart (d : Location) (target : Path) : Location :=
  if target.isAbsolute then [] else d

/-- Make the moves one by one, and where they end go on as `arrive` says. At a link,
the moves of its target and those that are left are handed to `jump`. A walk that has
to keep its way as a path stops at the first location that does not fit. -/
def walkSteps (t : Tree) (fits : Location → Bool) (arrive : Location → Except Errno Location)
    (jump : Location → List Path.Step → Except Errno Location) :
    Location → List Path.Step → Except Errno Location
  | l, [] => arrive l
  | l, .stay :: rest =>
    if t.isDirectory l then walkSteps t fits arrive jump l rest else .error .notDirectory
  | l, .up :: rest =>
    if t.isDirectory l then walkSteps t fits arrive jump l.tail rest else .error .notDirectory
  | l, .down name :: rest =>
    if fits (name :: l) = false then .error .nameTooLong
    else match t.child? l name with
      | .error e => .error e
      | .ok none => .error .noEntry
      | .ok (some (.link target)) => jump (linkStart l target) (target.steps ++ rest)
      | .ok (some _) => walkSteps t fits arrive jump (name :: l) rest

/-- Walk until the links that are allowed have run out. What is left to do at the end of
the moves is `last`, which may lead to one more link. -/
def walkLinks {α : Type} (t : Tree) (fits : Location → Bool)
    (arrive : (Location → List Path.Step → α → Except Errno Location) → α → Location →
      Except Errno Location) :
    Nat → Location → List Path.Step → α → Except Errno Location
  | 0, _, _, _ => .error .tooManyLinks
  | links + 1, l, steps, last =>
    walkSteps t fits (arrive (walkLinks t fits arrive links) last)
      (fun l steps => walkLinks t fits arrive links l steps last) l steps

def walkWithin (t : Tree) (fits : Location → Bool) (links : Nat) (l : Location)
    (steps : List Path.Step) : Except Errno Location :=
  walkLinks t fits (fun _ _ => .ok) (links + 1) l steps ()

def walk (t : Tree) (l : Location) (steps : List Path.Step) : Except Errno Location :=
  walkWithin t (fun _ => true) maxLinks l steps

/-- A walk that keeps the path of where it is, which must not be too long. -/
def walkWithPath (t : Tree) (l : Location) (steps : List Path.Step) : Except Errno Location :=
  walkWithin t (fun l => l.toPath.fits) maxLinks l steps

def walkToLast (t : Tree) (l : Location) (path : List Path.Step × Path.Ending) :
    Except Errno (Location × Path.Ending) := do
  let d ← t.walk l path.1
  if t.isDirectory d then .ok (d, path.2) else .error .notDirectory

/-- The file that the last segment of a path names in a directory. It need not be there
yet. A link is followed to a file by `jump`. -/
def fileAt (t : Tree) (fits : Location → Bool)
    (jump : Location → List Path.Step → Path.Ending → Except Errno Location) :
    Path.Ending → Location → Except Errno Location
  | .name name false, d =>
    if fits (name :: d) = false then .error .nameTooLong
    else match t.child? d name with
      | .error e => .error e
      | .ok none | .ok (some (.file ..)) => .ok (name :: d)
      | .ok (some (.directory _)) => .error .isDirectory
      | .ok (some (.link target)) => jump (linkStart d target) target.ending.1 target.ending.2
  | _, d => if t.isDirectory d then .error .isDirectory else .error .notDirectory

/-- The location that a file would be written at. The links before the last segment
and those that follow it count together. -/
def fileWithin (t : Tree) (fits : Location → Bool) (links : Nat) (l : Location)
    (steps : List Path.Step) (last : Path.Ending) : Except Errno Location :=
  walkLinks t fits (t.fileAt fits) (links + 1) l steps last

end Tree
end PointsTo
