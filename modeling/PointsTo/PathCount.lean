import PointsTo.Failure

/-!
The path count that the engine prints while numbering: the first `paths = `
with a digit right after it.
-/

namespace PointsTo

inductive PathCount where
  | absent
  | found (count : UInt64)
deriving DecidableEq

namespace PathCount

def label : List Char := "paths = ".toList

def digits? : List Char → Option (List Char)
  | [] => none
  | c :: cs =>
    let digits := ((c :: cs).drop label.length).takeWhile Char.isDigit
    if label.isPrefixOf (c :: cs) && !digits.isEmpty then some digits else digits? cs

def scan (text : List Char) : Except Failure PathCount :=
  match digits? text with
  | none => .ok absent
  | some digits =>
    match Decimal.toWord? (Decimal.value digits) with
    | some count => .ok (found count)
    | none => .error (.bound (String.ofList digits))

end PathCount
end PointsTo
