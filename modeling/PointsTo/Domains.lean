import PointsTo.Text.Blank
import PointsTo.Text.Decimal
import PointsTo.Text.Lines

/-!
The text of a domain file, in which each line gives a domain and its size. The
context domain `VC` is given a new size; every other line stays as it is.
-/

namespace PointsTo
namespace Domains

def contextTag : List Char := ['V', 'C']

def isContextLine (piece : List Char) : Bool :=
  Text.firstWord piece = contextTag

/-- The line that sets the context domain, with the line end of the old one. -/
def contextLine (bound : UInt64) (piece : List Char) : List Char :=
  contextTag ++ [' '] ++ Decimal.digits bound.toNat ++ Text.lineEnd piece

def patchLine (bound : UInt64) (piece : List Char) : List Char :=
  if isContextLine piece then contextLine bound piece else piece

def patchChars (bound : UInt64) (cs : List Char) : List Char :=
  (Text.linePieces cs).flatMap (patchLine bound)

def patch (bound : UInt64) (text : String) : String :=
  String.ofList (patchChars bound text.toList)

def contextLines (text : String) : Nat :=
  (Text.linePieces text.toList).countP isContextLine

end Domains
end PointsTo
