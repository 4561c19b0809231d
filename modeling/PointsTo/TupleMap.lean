import PointsTo.Text.Blank
import PointsTo.Text.Lines
import PointsTo.WorkDir

/-!
Turning the indices of a tuple file back into names. Each line of the tuple file
holds one index into the lines of the name file; indices past its end have no
name and are only counted, however large they are.
-/

namespace PointsTo
namespace TupleMap

inductive Line where
  /-- Nothing, or a comment. -/
  | ignored
  | index (i : Nat)
  /-- Digits whose value no index can have. -/
  | oversized
  | malformed
deriving DecidableEq

def commentMark : Char := '#'

def classify (line : List Char) : Line :=
  let entry := Text.trim line
  if entry.isEmpty || line.head? = some commentMark then .ignored
  else match Decimal.readWord? entry with
    | some i => .index i.toNat
    | none => if Decimal.isNumeral entry then .oversized else .malformed

structure Mapped where
  /-- The names found, the last one first. -/
  found : List (List Char)
  skipped : Nat
deriving DecidableEq

def mapLine (tuples : Path) (names : Array (List Char)) (m : Mapped) (line : List Char × Nat) :
    Except Failure Mapped :=
  match classify line.1 with
  | .ignored => .ok m
  | .index i =>
    match names[i]? with
    | some name => .ok { m with found := name :: m.found }
    | none => .ok { m with skipped := m.skipped + 1 }
  | .oversized => .ok { m with skipped := m.skipped + 1 }
  | .malformed => .error (.tuple tuples line.2 (String.ofList line.1))

def mapText (tuples : Path) (namesText tuplesText : String) : Except Failure Mapped :=
  let names := ((Text.lines namesText.toList).map Text.trim).toArray
  ((Text.lines tuplesText.toList).zipIdx 1).foldlM (mapLine tuples names) ⟨[], 0⟩

namespace Mapped

def written (m : Mapped) : Nat := m.found.length

def text (m : Mapped) : List Char :=
  m.found.reverse.flatMap fun name => name ++ ['\n']

end Mapped

def mapFiles (tuples names dest : Path) : Attempt Disk Mapped := do
  let namesText ← .look fun d => (d.readText names).mapError (.disk names)
  let tuplesText ← .look fun d => (d.readText tuples).mapError (.disk tuples)
  let mapped ← .ofExcept (mapText tuples namesText tuplesText)
  Disk.change dest (·.write dest (Text.encodeChars mapped.text))
  pure mapped

end TupleMap
end PointsTo
