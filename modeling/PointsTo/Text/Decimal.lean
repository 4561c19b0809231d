/-!
Decimal numerals: ASCII digits, their value, and the 64-bit readings that the
engine's numbers use.
-/

namespace PointsTo
namespace Decimal

def digits (n : Nat) : List Char :=
  Nat.toDigits 10 n

def text (n : Nat) : String :=
  String.ofList (digits n)

def signedText (n : Int) : String :=
  if n < 0 then "-" ++ text n.natAbs else text n.natAbs

def value (ds : List Char) : Nat :=
  Nat.ofDigitChars 10 ds 0

@[simp] theorem value_digits (n : Nat) : value (digits n) = n :=
  Nat.ofDigitChars_ten_toDigits

def isNumeral (cs : List Char) : Bool :=
  !cs.isEmpty && cs.all Char.isDigit

def read? (cs : List Char) : Option Nat :=
  if isNumeral cs then some (value cs) else none

def toWord? (n : Nat) : Option UInt64 :=
  if h : n < UInt64.size then some (UInt64.ofNatLT n h) else none

/-- A numeral below 2^64, where a plus sign may stand in front. -/
def readWord? (cs : List Char) : Option UInt64 :=
  match cs with
  | '+' :: ds => (read? ds).bind toWord?
  | ds => (read? ds).bind toWord?

end Decimal
end PointsTo
