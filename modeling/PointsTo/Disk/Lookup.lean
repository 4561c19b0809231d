import PointsTo.Disk.Basic
import PointsTo.Disk.Fault
import PointsTo.Disk.Walk

/-!
Looking a path up on a disk. Relative paths start at the current directory.
-/

namespace PointsTo
namespace Disk

def lift {α : Type} (x : Except Errno α) : Except Fault α :=
  x.mapError .system

def checkText (p : Path) : Except Fault Unit :=
  if p.text.toList.contains '\x00' then .error .zeroInName
  else if !p.fits then .error (.system .nameTooLong)
  else if p.text = "" then .error (.system .noEntry)
  else .ok ()

/-- The moves that are left once they have led out of a directory that is gone,
and how many levels of it remain. It leads up, but holds nothing. -/
def surface : Nat → List Path.Step → Except Errno (Nat × List Path.Step)
  | 0, steps => .ok (0, steps)
  | lost + 1, [] => .ok (lost + 1, [])
  | lost + 1, .stay :: steps => surface (lost + 1) steps
  | lost + 1, .up :: steps => surface lost steps
  | _ + 1, .down _ :: _ => .error .noEntry

/-- Where moves of a path start, and those of them that are left. There is no
start where they do not lead out of a directory that is gone. -/
def start (d : Disk) (p : Path) (steps : List Path.Step) :
    Except Fault (Option (Location × List Path.Step)) := do
  checkText p
  if p.isAbsolute then .ok (some ([], steps))
  else match ← lift (surface d.lost steps) with
    | (0, steps) => .ok (some (d.cwd, steps))
    | (_ + 1, _) => .ok none

/-- The location that a path names, all links followed. A directory that is gone
has none. -/
def place (d : Disk) (p : Path) : Except Fault (Option Location) := do
  match ← d.start p p.steps with
  | none => .ok none
  | some (l, steps) => .ok (some (← lift (d.tree.walk l steps)))

def resolve (d : Disk) (p : Path) : Except Fault Location := do
  match ← d.place p with
  | none => .error (.system .noEntry)
  | some l => .ok l

/-- The directory that the last segment of a path stands in, and that segment. In
a directory that is gone no name stands. -/
def resolveLast (d : Disk) (p : Path) : Except Fault (Location × Path.Ending) := do
  match ← d.start p p.ending.1, p.ending.2 with
  | some (l, steps), last => lift (d.tree.walkToLast l (steps, last))
  | none, .name .. => .error (.system .noEntry)
  | none, last => .ok (d.cwd, last)

/-- The location that a path names, a link at its very end not followed. -/
def locate (d : Disk) (p : Path) : Except Fault (Option Location) := do
  match ← d.resolveLast p with
  | (dir, .name name false) =>
    match ← lift (d.tree.child? dir name) with
    | none => .error (.system .noEntry)
    | some _ => .ok (some (name :: dir))
  | _ => d.place p

def entryAt (d : Disk) : Option Location → Except Fault Entry
  | none => .ok (.directory 0o755)
  | some l =>
    match d.tree.entry? l with
    | some e => .ok e
    | none => .error (.system .noEntry)

def entry (d : Disk) (p : Path) : Except Fault Entry := do
  d.entryAt (← d.place p)

def linkEntry (d : Disk) (p : Path) : Except Fault Entry := do
  d.entryAt (← d.locate p)

def isPresent (d : Disk) (p : Path) : Bool :=
  (d.entry p).toBool

def isDirectory (d : Disk) (p : Path) : Bool :=
  match d.entry p with
  | .ok e => e.isDirectory
  | .error _ => false

def isFile (d : Disk) (p : Path) : Bool :=
  match d.entry p with
  | .ok e => e.isFile
  | .error _ => false

def currentPath (d : Disk) : Except Fault Path :=
  if d.lost = 0 then .ok d.cwd.toPath else .error (.system .noEntry)

/-- The absolute path without dots and links of something that is there. A path
that is not absolute is taken to follow that of the current directory. On the way,
no path may get too long, however short the given one is. -/
def canonical (d : Disk) (p : Path) : Except Fault Path := do
  checkText p
  if !p.isAbsolute then let _ ← d.currentPath
  let l ← lift (d.tree.walkWithPath (if p.isAbsolute then [] else d.cwd) p.steps)
  .ok l.toPath

def read (d : Disk) (p : Path) : Except Fault Bytes := do
  match ← d.entry p with
  | .file data _ => .ok data
  | _ => .error (.system .isDirectory)

def readText (d : Disk) (p : Path) : Except Fault String := do
  let data ← d.read p
  match Text.decode? data with
  | some text => .ok text
  | none => .error .notText

def list (d : Disk) (p : Path) : Except Fault (List String) := do
  match ← d.place p with
  | none => .ok []
  | some l =>
    if d.tree.isDirectory l then .ok ((d.tree.children l).map Prod.fst)
    else .error (.system .notDirectory)

end Disk
end PointsTo
