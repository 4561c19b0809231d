import PointsTo.Disk.Lookup

/-!
Changing a disk by path. A change that can stop half way answers with the disk
that it leaves as well as with its fault. All faults come from looking paths up and
from what is found there (see `Disk.Basic` for what a disk leaves out).
-/

namespace PointsTo
namespace Disk

def newFileMode : Nat := 0o644
def newDirectoryMode : Nat := 0o755

/-- Where a file that is written to a path stands, links at the end included. In a
directory that is gone no file stands. -/
def destination (d : Disk) (p : Path) : Except Fault Location := do
  match ← d.start p p.ending.1, p.ending.2 with
  | some (l, steps), last => lift (d.tree.fileWithin (fun _ => true) Tree.maxLinks l steps last)
  | none, .name .. => .error (.system .noEntry)
  | none, _ => .error (.system .isDirectory)

/-- Write a whole file. A new one is made where the path leads to nothing in a
directory; an old one keeps its mode. -/
def write (d : Disk) (p : Path) (data : Bytes) : Except Fault Disk := do
  let l ← d.destination p
  match d.tree.find l with
  | some (.file _ mode) => .ok (d.put l (.file data mode))
  | _ => .ok (d.put l (.file data newFileMode))

/-- Make an entry where nothing is, not even a link. -/
def create (d : Disk) (p : Path) (e : Entry) : Except Fault Disk := do
  match ← d.resolveLast p with
  | (dir, .name name slash) =>
    if slash && !e.isDirectory then .error (.system .isDirectory)
    else match ← lift (d.tree.child? dir name) with
      | some _ => .error (.system .alreadyThere)
      | none => .ok (d.put (name :: dir) e)
  | _ => .error (.system .alreadyThere)

def makeDirectory (d : Disk) (p : Path) : Except Fault Disk :=
  d.create p (.directory newDirectoryMode)

def ensureDirectory (d : Disk) (p : Path) : Except Fault Unit × Disk :=
  match d.makeDirectory p with
  | .ok made => (.ok (), made)
  | .error e => if d.isDirectory p then (.ok (), d) else (.error e, d)

/-- Make the first of the paths, and before it those after it where its parent
is missing. The empty path is always there. -/
def makeChain (d : Disk) : List Path → Except Fault Unit × Disk
  | [] => (.error (.system .noEntry), d)
  | p :: above =>
    if p.text = "" then (.ok (), d)
    else match d.ensureDirectory p with
      | (.ok (), made) => (.ok (), made)
      | (.error e, _) =>
        if e = .system .noEntry then
          match d.makeChain above with
          | (.error e, d) => (.error e, d)
          | (.ok (), d) => d.ensureDirectory p
        else (.error e, d)

def makeDirectories (d : Disk) (p : Path) : Except Fault Unit × Disk :=
  d.makeChain (p :: p.ancestors)

def unlink (d : Disk) (p : Path) : Except Fault Disk := do
  match ← d.resolveLast p with
  | (dir, .name name slash) =>
    match ← lift (d.tree.child? dir name) with
    | none => .error (.system .noEntry)
    | some (.directory _) => .error (.system .isDirectory)
    | some _ => if slash then .error (.system .notDirectory) else .ok (d.remove (name :: dir))
  | _ => .error (.system .isDirectory)

def removeDirectory (d : Disk) (p : Path) : Except Fault Disk := do
  match ← d.resolveLast p with
  | (dir, .name name _) =>
    match ← lift (d.tree.child? dir name) with
    | none => .error (.system .noEntry)
    | some (.directory _) =>
      if (d.tree.children (name :: dir)).isEmpty then .ok (d.remove (name :: dir))
      else .error (.system .notEmpty)
    | some _ => .error (.system .notDirectory)
  | (_, .here) => .error (.system .invalid)
  | (_, .up) => .error (.system .notEmpty)
  | (_, .root) => .error (.system .busy)

def settle (d : Disk) (x : Except Fault Disk) : Except Fault Unit × Disk :=
  match x with
  | .ok d => (.ok (), d)
  | .error e => (.error e, d)

/-- There is no need for the change where nothing is found. -/
def settleGone (d : Disk) (x : Except Fault Disk) : Except Fault Unit × Disk :=
  match x with
  | .ok d => (.ok (), d)
  | .error e => (if e = .system .noEntry then .ok () else .error e, d)

/-- Take away a directory with everything inside it. A link goes away itself,
and what it leads to stays. A directory whose path leads through its own inside
is not found any more once it is empty, and stays. -/
def removeAll (d : Disk) (p : Path) : Except Fault Unit × Disk :=
  match d.locate p with
  | .error e => (.error e, d)
  | .ok none => d.settle (d.removeDirectory p)
  | .ok (some l) =>
    match d.tree.entry? l with
    | some (.link _) => d.settle (d.unlink p)
    | some (.directory _) => (d.clear l).settleGone ((d.clear l).removeDirectory p)
    | _ => (.error (.system .notDirectory), d)

/-- Whether the entry `e` at `src` may take the place of what is at `dst`. -/
def checkRename (t : Tree) (src dst : Location) (e : Entry) (slash : Bool) : Except Errno Unit :=
  if !e.isDirectory && slash then .error .notDirectory
  else if Tree.isWithin src dst && src != dst then .error .invalid
  else if Tree.isWithin dst src && src != dst then .error .notEmpty
  else if src = dst then .ok ()
  else match t.find dst with
    | none => .ok ()
    | some f =>
      if e.isDirectory && !f.isDirectory then .error .notDirectory
      else if !e.isDirectory && f.isDirectory then .error .isDirectory
      else if f.isDirectory && !(t.children dst).isEmpty then .error .notEmpty
      else .ok ()

def rename (d : Disk) (p q : Path) : Except Fault Disk := do
  let (srcDir, srcLast) ← d.resolveLast p
  let (dstDir, dstLast) ← d.resolveLast q
  match srcLast, dstLast with
  | .name src srcSlash, .name dst dstSlash =>
    match ← lift (d.tree.child? srcDir src) with
    | none => .error (.system .noEntry)
    | some e =>
      let _ ← lift (d.tree.child? dstDir dst)
      lift (checkRename d.tree (src :: srcDir) (dst :: dstDir) e (srcSlash || dstSlash))
      if src :: srcDir = dst :: dstDir then .ok d else .ok (d.move (src :: srcDir) (dst :: dstDir))
  | _, _ => .error (.system .busy)

def setMode (d : Disk) (p : Path) (mode : Nat) : Except Fault Disk := do
  match ← d.place p with
  | none => .ok d
  | some l =>
    match d.tree.find l with
    | some e => .ok (d.put l (e.withMode mode))
    | none => .ok d

/-- The disk as a change leaves it, done or not. -/
def attempt (d : Disk) (x : Except Fault Disk) : Disk :=
  match x with
  | .ok d => d
  | .error _ => d

end Disk
end PointsTo
