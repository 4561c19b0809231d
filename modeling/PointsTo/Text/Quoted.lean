import PointsTo.Text.Unprintable
import PointsTo.Text.Extending

/-!
Texts in double quotes, with an escape for each character that would not show
as itself. Names of files also escape the apostrophe; plain texts do not.
-/

namespace PointsTo
namespace Text

def isUnprintable (c : Char) : Bool :=
  c.toNat < 0x20 || c.toNat = 0x7F ||
    unprintableRanges.any fun (low, high) => low ≤ c.toNat && c.toNat ≤ high

def isExtending (c : Char) : Bool :=
  extendingRanges.any fun (low, high) => low ≤ c.toNat && c.toNat ≤ high

def escapeCode (c : Char) : List Char :=
  ['\\', 'u', '\x7b'] ++ Nat.toDigits 16 c.toNat ++ ['\x7d']

def escapeChar (apostrophe : Bool) (c : Char) : List Char :=
  match c with
  | '\x00' => ['\\', '0']
  | '\t' => ['\\', 't']
  | '\r' => ['\\', 'r']
  | '\n' => ['\\', 'n']
  | '\\' => ['\\', '\\']
  | '"' => ['\\', '"']
  | '\'' => if apostrophe then ['\\', '\''] else ['\'']
  | c => if c.toNat < 0x7F && 0x20 ≤ c.toNat then [c]
    else if isExtending c || isUnprintable c then escapeCode c else [c]

def quoteWith (apostrophe : Bool) (s : String) : String :=
  String.ofList (['"'] ++ s.toList.flatMap (escapeChar apostrophe) ++ ['"'])

def quote (s : String) : String :=
  quoteWith false s

def quoteName (s : String) : String :=
  quoteWith true s

def quoteNames (names : List String) : String :=
  "[" ++ String.intercalate ", " (names.map quoteName) ++ "]"

end Text
end PointsTo
