import PointsTo.Disk.Errno
import PointsTo.Path
import PointsTo.Text.Quoted

/-!
Why a request to the operating system failed, and the text that says so.
-/

namespace PointsTo

inductive Fault where
  /-- The system refused with a numbered reason. -/
  | system (errno : Errno)
  /-- A file that should hold text is not UTF-8. -/
  | notText
  /-- A path holds a zero byte, which no name can. -/
  | zeroInName
  /-- A program or argument holds a zero byte. -/
  | zeroInArgument
  /-- A temporary file could not be made at this path. -/
  | temporary (cause : Fault) (path : Path)
  /-- A reason known only by its text. -/
  | stated (text : String)
deriving DecidableEq

namespace Fault

def numbered (errno : Errno) : String :=
  errno.text ++ " (os error " ++ Decimal.signedText errno.code ++ ")"

def text : Fault → String
  | system errno => numbered errno
  | notText => "stream did not contain valid UTF-8"
  | zeroInName => "file name contained an unexpected NUL byte"
  | zeroInArgument => "nul byte found in provided data"
  | temporary cause path => cause.text ++ " at path " ++ Text.quoteName path.text
  | stated text => text

end Fault
end PointsTo
