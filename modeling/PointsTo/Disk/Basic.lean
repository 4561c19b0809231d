import PointsTo.Disk.Move

/-!
A disk: a tree and the current directory. The current directory goes along when
it is moved. When it is taken away it holds nothing any more, but it still leads
up to where it stood.

Some things that a file system has are left out. Permission bits are kept, but only
starting a program looks at them (`mayExecute`): no lookup and no change is refused
for want of a permission. A file has one name, as there are no hard links. Space
never runs out and no device fails, so a write that has found its place succeeds.
Names are Unicode texts, so every path has a text.
-/

namespace PointsTo

namespace Tree

theorem isDirectory_put {t : Tree} {l d : Location} {e : Entry} (h : t.isDirectory d = true) :
    (t.put l e).isDirectory d = true := by
  rw [put]
  split
  · next ha => exact isDirectory_insert ha h
  · exact h

def nearest (t : Tree) : Location → Location
  | [] => []
  | name :: above => if t.isDirectory (name :: above) then name :: above else t.nearest above

theorem isDirectory_nearest (t : Tree) (l : Location) : t.isDirectory (t.nearest l) = true := by
  induction l with
  | nil => rfl
  | cons name above ih =>
    rw [nearest]
    split
    · assumption
    · exact ih

theorem nearest_eq_self {t : Tree} {l : Location} (h : t.isDirectory l = true) :
    t.nearest l = l := by
  cases l with
  | nil => rfl
  | cons name above => rw [nearest, if_pos h]

end Tree

@[ext] structure Disk where
  tree : Tree
  /-- The innermost directory that is there on the way to the current one. -/
  cwd : Location
  /-- How many levels the current directory stood below it, now gone. -/
  lost : Nat
  cwd_isDirectory : tree.isDirectory cwd = true

namespace Disk

def empty : Disk where
  tree := .empty
  cwd := []
  lost := 0
  cwd_isDirectory := rfl

def put (d : Disk) (l : Location) (e : Entry) : Disk where
  tree := d.tree.put l e
  cwd := d.cwd
  lost := d.lost
  cwd_isDirectory := Tree.isDirectory_put d.cwd_isDirectory

/-- A tree in which the current directory stood `lost` levels below a place. -/
def standing (t : Tree) (place : Location) (lost : Nat) : Disk where
  tree := t
  cwd := t.nearest place
  lost := lost + (place.length - (t.nearest place).length)
  cwd_isDirectory := t.isDirectory_nearest place

def remove (d : Disk) (l : Location) : Disk :=
  standing (d.tree.remove l) d.cwd d.lost

def clear (d : Disk) (l : Location) : Disk :=
  standing (d.tree.clear l) d.cwd d.lost

/-- A move takes along what is inside the moved directory. A directory that stood
at the new place is gone. -/
def move (d : Disk) (src dst : Location) : Disk :=
  let moved := d.tree.move src dst
  if Tree.isWithin src d.cwd then standing moved (Table.relocate src dst d.cwd) d.lost
  else if Tree.isWithin dst d.cwd then
    standing moved dst.tail (d.lost + (d.cwd.length - dst.tail.length))
  else standing moved d.cwd d.lost

def enter (d : Disk) (l : Location) : Disk :=
  if h : d.tree.isDirectory l = true then
    { tree := d.tree
      cwd := l
      lost := 0
      cwd_isDirectory := h }
  else d

@[simp] theorem tree_standing (t : Tree) (place : Location) (lost : Nat) :
    (standing t place lost).tree = t := rfl

@[simp] theorem tree_put (d : Disk) (l : Location) (e : Entry) :
    (d.put l e).tree = d.tree.put l e := rfl

@[simp] theorem tree_remove (d : Disk) (l : Location) : (d.remove l).tree = d.tree.remove l := rfl

@[simp] theorem tree_clear (d : Disk) (l : Location) : (d.clear l).tree = d.tree.clear l := rfl

@[simp] theorem tree_move (d : Disk) (src dst : Location) :
    (d.move src dst).tree = d.tree.move src dst := by
  unfold move
  split
  · rfl
  · split <;> rfl

end Disk
end PointsTo
