import PointsTo.Blake3

/-!
Names for runs: sixteen random bytes, four bits of which say that the bytes are
random and two which layout they follow, written as five groups of hexadecimal
digits.
-/

namespace PointsTo
namespace RunId

/-- The marks of a random name: a version in the seventh byte and a variant in the
ninth. -/
def marked (bytes : Bytes) : Bytes :=
  (bytes.modify 6 fun b => (b &&& 0x0f) ||| 0x40).modify 8 fun b => (b &&& 0x3f) ||| 0x80

def ofBytes (bytes : Bytes) : String :=
  let group (start size : Nat) := Blake3.hex (((marked bytes).drop start).take size)
  String.intercalate "-" [group 0 4, group 4 2, group 6 2, group 8 2, group 10 6]

end RunId
end PointsTo
