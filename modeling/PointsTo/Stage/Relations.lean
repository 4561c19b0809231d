import PointsTo.Stage.Solver

/-!
The stage that has the engine write the relations of the analysed program, and
puts its files where the later stages look for them.
-/

namespace PointsTo
namespace Stage

/-- How the engine's equivalence maps are named, which it writes to the root. -/
def mapStart : String := "map_"

def renames : List (String × String) :=
  [("unmunged_method.map", "method.map"), ("unmunged_name.map", "name.map")]

def renameFiles (dir : Path) : List (String × String) → Attempt Disk Unit
  | [] => pure ()
  | (old, new) :: rest => do
    Disk.change (dir / old) (·.rename (dir / old) (dir / new))
    renameFiles dir rest

def relations (entryPoint : String) : Stage where
  id := Setup.relationsLabel
  run := fun host s => do
    Run.onDisk (Disk.changePartly s.workDir (·.makeDirectories s.workDir))
    Run.tell .stages .info "generating relations" [.plain "entry" entryPoint]
    let dumpCommand ← .ofExcept (s.dumpCommand entryPoint)
    let dump ← call host s dumpCommand .merge
    .ofExcept (dump.requireSuccess Setup.relationsLabel)
    Run.tell .stages .info "building heap/invoke equivalence relations"
    let equivalenceCommand ← .ofExcept s.equivalenceCommand
    let equivalence ← call host s equivalenceCommand .merge
    .ofExcept (equivalence.requireSuccess Setup.relationsLabel)
    let moved ← Run.onDisk (WorkDir.moveFiles s.root mapStart s.workDir)
    Run.tell .stages .debug
      ("moved " ++ Decimal.text moved ++ " " ++ mapStart ++ "* files into " ++ s.workDir.text)
    Run.tell .stages .info "de-munging names"
    Run.onDisk (renameFiles s.workDir renames)
    pure ⟨some { dump with output := dump.output ++ equivalence.output },
      some ("relations for " ++ entryPoint ++ " in " ++ s.workDir.text)⟩

end Stage
end PointsTo
