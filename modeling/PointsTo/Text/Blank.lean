/-!
The characters with the Unicode property White_Space, and trimming and words by
that class. Core's `Char.isWhitespace` knows four of the twenty-five.
-/

namespace PointsTo
namespace Text

/-- The code points with the property White_Space, as closed ranges. -/
def blankRanges : List (Nat × Nat) :=
  [(0x09, 0x0D), (0x20, 0x20), (0x85, 0x85), (0xA0, 0xA0), (0x1680, 0x1680), (0x2000, 0x200A),
    (0x2028, 0x2029), (0x202F, 0x202F), (0x205F, 0x205F), (0x3000, 0x3000)]

def isBlank (c : Char) : Bool :=
  blankRanges.any fun (low, high) => low ≤ c.toNat && c.toNat ≤ high

def trim (cs : List Char) : List Char :=
  ((cs.dropWhile isBlank).reverse.dropWhile isBlank).reverse

/-- The first word: what stands before, between or after blanks. -/
def firstWord (cs : List Char) : List Char :=
  (cs.dropWhile isBlank).takeWhile fun c => !isBlank c

end Text
end PointsTo
