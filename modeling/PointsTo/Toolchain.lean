import PointsTo.Disk.Lookup
import PointsTo.Failure

/-!
Where the engine and the runtime that executes it are installed.
-/

namespace PointsTo

structure Toolchain where
  /-- The directory of the engine. -/
  home : Path
  pqlJar : Path
  jlineJar : Path
  /-- The program that starts the engine. -/
  runtime : Path
  /-- Where the classes of the analysed program are. -/
  baseClassPath : List Path
deriving DecidableEq

namespace Toolchain

def pqlJarName : String := "PQL-0.2.jar"
def jlineJarName : String := "jline.jar"

structure Overrides where
  home : Option Path
  runtimeHome : Option Path
  classPath : Option String
deriving DecidableEq

def requireFile (d : Disk) (home : Path) (name : String) : Except Failure Path :=
  if d.isFile (home / name) then .ok (home / name)
  else .error (.configuration (.partMissing name home))

/-- Find the installation. The directory of the program itself stands in for a
home and a search list that the environment does not give. -/
def resolve (d : Disk) (given : Overrides) (ownDir : Path) : Except Failure Toolchain := do
  let runtimeHome ←
    match given.runtimeHome with
    | some home => .ok home
    | none => .error (.configuration .runtimeUnset)
  let home := given.home.getD ownDir
  if !d.isDirectory home then .error (.configuration (.homeMissing home))
  let pqlJar ← requireFile d home pqlJarName
  let jlineJar ← requireFile d home jlineJarName
  let baseClassPath :=
    match given.classPath with
    | some text => if text = "" then [ownDir] else Path.splitSearchList text
    | none => [ownDir]
  .ok ⟨home, pqlJar, jlineJar, runtimeHome / "bin" / "java", baseClassPath⟩

end Toolchain
end PointsTo
