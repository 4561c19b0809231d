import PointsTo.Failure

/-!
A command line of the engine: a label for messages, a program and its
arguments. Nothing is ever joined into one text for a shell.
-/

namespace PointsTo

structure Command where
  label : String
  program : Path
  args : List String
deriving DecidableEq

namespace Command

def new (label : String) (program : Path) : Command :=
  ⟨label, program, []⟩

def arg (c : Command) (a : String) : Command :=
  { c with args := c.args ++ [a] }

def addArgs (c : Command) (as : List String) : Command :=
  { c with args := c.args ++ as }

/-- A search list for classes. Entries with a separator in them have none. -/
def classPath (c : Command) (entries : List Path) : Except Failure Command :=
  match Path.joinSearchList? entries with
  | some joined => .ok ((c.arg "-cp").arg joined)
  | none => .error (.configuration .separatorInEntry)

def property (c : Command) (key value : String) : Command :=
  c.arg ("-D" ++ key ++ "=" ++ value)

/-- A directory as the engine wants it, which puts file names right behind it. -/
def dirText (dir : Path) : String :=
  if dir.text.toList.getLast? = some '/' then dir.text else dir.text ++ "/"

def dirProperty (c : Command) (key : String) (dir : Path) : Command :=
  c.property key (dirText dir)

def display (c : Command) : String :=
  String.intercalate " " (c.program.text :: c.args)

end Command
end PointsTo
