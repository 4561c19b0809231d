/-!
A place in a YAML text, and the classes of characters that the format knows. A
carriage return with a line feed is one break.
-/

namespace PointsTo
namespace Yaml

inductive Error where
  | character
  | token
  | directive
  | version
  | anchor
  | tag
  | tagHandle
  | escape
  | unclosedQuote
  | blockHeader
  | indentation
  | colon
  | missingColon
  | keyPlace
  | valuePlace
  | entryPlace
  | node
  | sequence
  | mapping
  | flowSequence
  | flowMapping
  | documentStart
  | reference
deriving DecidableEq

namespace Error

def message : Error → String
  | character => "a character that is not allowed"
  | token => "a character that cannot start anything"
  | directive => "a directive that is not known or not complete"
  | version => "a version of the format that is not supported"
  | anchor => "a name for a node that is not complete"
  | tag => "a tag that is not complete"
  | tagHandle => "a tag whose handle is not known"
  | escape => "an escape that is not known"
  | unclosedQuote => "a quoted text without an end"
  | blockHeader => "a block text with a bad first line"
  | indentation => "a tab where blanks are expected"
  | colon => "a colon that is out of place"
  | missingColon => "a key without a colon"
  | keyPlace => "a key where none can be"
  | valuePlace => "a value where none can be"
  | entryPlace => "a list entry where none can be"
  | node => "a value is missing"
  | sequence => "a list that is not complete"
  | mapping => "a mapping that is not complete"
  | flowSequence => "a bracketed list that is not complete"
  | flowMapping => "a braced mapping that is not complete"
  | documentStart => "more than one document"
  | reference => "a reference to a name that is not known"

end Error

def isAllowed (c : Char) : Bool :=
  c = '\t' || c = '\n' || c = '\r' || (' ' ≤ c && c ≤ '~') || c = '\u0085' ||
    ('\u00a0' ≤ c && c.toNat ≤ 0xFFFD) || 0x10000 ≤ c.toNat

def isBreak (c : Char) : Bool :=
  c = '\n' || c = '\r' || c = '\u0085' || c = '\u2028' || c = '\u2029'

def isSpacing (c : Char) : Bool :=
  c = ' ' || c = '\t'

def endsLine : Option Char → Bool
  | none => true
  | some c => isBreak c

def endsWord : Option Char → Bool
  | none => true
  | some c => isSpacing c || isBreak c

def isWordChar (c : Char) : Bool :=
  c.isAlphanum || c = '_' || c = '-'

structure Cursor where
  rest : List Char
  index : Nat
  line : Nat
  column : Nat
deriving DecidableEq

namespace Cursor

def start (cs : List Char) : Cursor :=
  ⟨cs, 0, 0, 0⟩

def peek (c : Cursor) (ahead : Nat := 0) : Option Char :=
  c.rest[ahead]?

def skip (c : Cursor) (n : Nat) : Cursor :=
  { c with rest := c.rest.drop n, index := c.index + n, column := c.column + n }

def skipWhile (c : Cursor) (p : Char → Bool) : Cursor :=
  c.skip (c.rest.takeWhile p).length

def skipBreak (c : Cursor) : Cursor :=
  match c.rest with
  | '\r' :: '\n' :: rest => ⟨rest, c.index + 2, c.line + 1, 0⟩
  | _ :: rest => ⟨rest, c.index + 1, c.line + 1, 0⟩
  | [] => c

/-- What a break at this place stands for: a line feed, or a separator of lines or
paragraphs itself. -/
def breakText (c : Cursor) : List Char :=
  match c.rest with
  | '\u2028' :: _ => ['\u2028']
  | '\u2029' :: _ => ['\u2029']
  | c :: _ => if isBreak c then ['\n'] else []
  | [] => []

/-- Three dashes or three dots that start a line mark the end of a document. -/
def atDocumentMark (c : Cursor) : Bool :=
  c.column = 0 && endsWord (c.peek 3) &&
    (['-', '-', '-'].isPrefixOf c.rest || ['.', '.', '.'].isPrefixOf c.rest)

end Cursor
end Yaml
end PointsTo
