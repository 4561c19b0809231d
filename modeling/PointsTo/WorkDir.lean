import PointsTo.Attempt
import PointsTo.Disk.Change

/-!
Housekeeping in a working directory: emptying it, sweeping away stale tuples,
moving files in, and replacing a file in one stroke.
-/

namespace PointsTo

namespace Disk

def change (p : Path) (f : Disk → Except Fault Disk) : Attempt Disk Unit := fun d =>
  match f d with
  | .ok d => (.ok (), d)
  | .error e => (.error (.disk p e), d)

def changePartly (p : Path) (f : Disk → Except Fault Unit × Disk) : Attempt Disk Unit := fun d =>
  match f d with
  | (.ok (), d) => (.ok (), d)
  | (.error e, d) => (.error (.disk p e), d)

end Disk

/-- A name for a temporary file: a mark, and six letters or digits drawn at random. -/
structure TemporaryName where
  letters : List Char
  length_letters : letters.length = 6
  isAlphanum : ∀ c ∈ letters, c.isAlphanum = true

namespace TemporaryName

def text (name : TemporaryName) : String :=
  String.ofList ('.' :: 't' :: 'm' :: 'p' :: name.letters)

def repeated (c : Char) (h : c.isAlphanum = true) : TemporaryName :=
  ⟨List.replicate 6 c, List.length_replicate, fun _ hc => List.eq_of_mem_replicate hc ▸ h⟩

def usual : List TemporaryName :=
  [repeated 'X' rfl, repeated 'Y' rfl, repeated 'Z' rfl]

end TemporaryName

namespace WorkDir

/-- How many files a directory holds, at any depth. A link to a directory counts
for what it leads to, any other link for one. Every level makes the path longer,
so a path's greatest length bounds the depth. -/
def countWithin (d : Disk) : Nat → Path → Except Failure Nat
  | 0, _ => .ok 0
  | depth + 1, dir => do
    let names ← (d.list dir).mapError (.disk dir)
    names.foldlM
      (fun total name =>
        if d.isDirectory (dir / name) then do
          let inside ← countWithin d depth (dir / name)
          .ok (total + inside)
        else .ok (total + 1))
      0

def countFiles (d : Disk) (dir : Path) : Except Failure Nat :=
  countWithin d (Path.maxBytes + 1) dir

/-- Leave an empty directory, whatever was there. The answer is the number of
files that were counted before. -/
def clean (dir : Path) : Attempt Disk Nat := do
  let removed ←
    if ← .view (·.isPresent dir) then do
      let count ← .look (countFiles · dir)
      Disk.changePartly dir (·.removeAll dir)
      pure count
    else pure 0
  Disk.changePartly dir (·.makeDirectories dir)
  pure removed

/-- The names in a directory of files, or links to files, that a test accepts.
Where there is no directory there are none. -/
def filesMatching (d : Disk) (dir : Path) (accept : String → Bool) : Except Failure (List String) :=
  if d.isDirectory dir then do
    let names ← (d.list dir).mapError (.disk dir)
    .ok (names.filter fun name => d.isFile (dir / name) && accept name)
  else .ok []

def tuplesExtension : String := "tuples"

def isTuples (name : String) : Bool :=
  Path.extensionOf? name = some tuplesExtension

def forEach (act : String → Attempt Disk Unit) : List String → Attempt Disk Unit
  | [] => pure ()
  | name :: names => do
    act name
    forEach act names

def clearTuples (dir : Path) : Attempt Disk Nat := do
  let names ← .look (filesMatching · dir isTuples)
  forEach (fun name => Disk.change (dir / name) (·.unlink (dir / name))) names
  pure names.length

def moveFiles (source : Path) (start : String) (target : Path) : Attempt Disk Nat := do
  let names ← .look (filesMatching · source fun name => start.toList.isPrefixOf name.toList)
  forEach (fun name => Disk.change (source / name) (·.rename (source / name) (target / name))) names
  pure names.length

def temporaryMode : Nat := 0o600

def temporaryDir (d : Disk) (dir : Path) : Except Fault Path :=
  if dir.isAbsolute then .ok dir else d.currentPath.map (·.join dir)

/-- Whether a temporary file is refused a name because something has it. -/
def isTaken (d : Disk) (dir : Path) (name : TemporaryName) : Bool :=
  match d.create (dir / name.text) (.file [] temporaryMode) with
  | .error e => e = .system .alreadyThere
  | .ok _ => false

/-- An absolute path to a temporary file in a directory, under the first of the drawn
names that is not taken. -/
def temporaryPath (draws : List TemporaryName) (d : Disk) (dir : Path) : Except Fault Path := do
  let dir ← temporaryDir d dir
  match draws.find? fun name => !isTaken d dir name with
  | some name => .ok (dir / name.text)
  | none => .error (.temporary (.stated "too many temporary files exist") dir)

/-- The new contents under a temporary name, with the mode of what they are to
replace. -/
def writeTemporary (temporary path : Path) (contents : Bytes) (d : Disk) : Except Fault Disk := do
  let created ← (d.create temporary (.file [] temporaryMode)).mapError (.temporary · temporary)
  let written ← created.write temporary contents
  match written.entry path with
  | .ok e => written.setMode temporary e.mode
  | .error _ => .ok written

/-- Replace a file in one stroke: the new contents are written beside it and then
take its name. The mode of the old file is kept. -/
def writeAtomic (path : Path) (contents : Bytes)
    (draws : List TemporaryName := TemporaryName.usual) : Attempt Disk Unit := fun d =>
  let dir := path.parent?.getD ⟨"."⟩
  match temporaryPath draws d dir with
  | .error e => (.error (.disk dir e), d)
  | .ok temporary =>
    match writeTemporary temporary path contents d with
    | .error e => (.error (.disk dir e), d)
    | .ok written =>
      match written.rename temporary path with
      | .ok done => (.ok (), done)
      | .error e => (.error (.disk path e), written.attempt (written.unlink temporary))

end WorkDir
end PointsTo
