import PointsTo.Yaml.Scalar

/-!
The tokens of a YAML text. Indentation shows as tokens that open and close block
collections.
-/

namespace PointsTo
namespace Yaml

inductive Token where
  | version (major minor : Nat)
  | tagDirective (handle start : String)
  | documentStart
  | documentEnd
  | blockSequence
  | blockMapping
  | blockEnd
  | flowSequence
  | flowSequenceEnd
  | flowMapping
  | flowMappingEnd
  | blockEntry
  | flowEntry
  | key
  | value
  | reference (name : String)
  | anchor (name : String)
  | tag (handle suffix : String)
  | scalar (text : String) (style : Style)
  | streamEnd
deriving DecidableEq

def isTagMark (c : Char) : Bool :=
  [';', '/', '?', ':', '@', '&', '=', '+', '$', '.', '!', '~', '*', '\'', '(', ')'].contains c

def encodedLength? (first : Nat) : Option Nat :=
  if first < 0x80 then some 1
  else if 0xC0 ≤ first && first < 0xE0 then some 2
  else if 0xE0 ≤ first && first < 0xF0 then some 3
  else if 0xF0 ≤ first && first < 0xF8 then some 4
  else none

def percentByte? (rest : List Char) : Option Nat :=
  match rest with
  | '%' :: a :: b :: _ => radixValue? 16 [a, b]
  | _ => none

/-- Bytes written with percent signs that make up one character, given by the
number of bytes and the value so far. The answer is the value. -/
def percentRest : Nat → Nat → List Char → Except Error Nat
  | 0, value, _ => .ok value
  | more + 1, value, rest =>
    match percentByte? rest with
    | some b =>
      if 0x80 ≤ b && b < 0xC0 then percentRest more (value * 64 + (b - 0x80)) (rest.drop 3)
      else .error .tag
    | none => .error .tag

def percentChar (rest : List Char) : Except Error (Char × Nat) :=
  match percentByte? rest with
  | none => .error .tag
  | some first =>
    match encodedLength? first with
    | none => .error .tag
    | some length => do
      let value ← percentRest (length - 1) (if length = 1 then first else first % (0x80 >>> length))
        (rest.drop 3)
      .ok (Char.ofNat value, length)

/-- The characters of a tag, up to one that cannot stand in it. In a directive or
between angle brackets more characters may stand. -/
def tagChars (wide : Bool) : Nat → Cursor → List Char → Except Error (List Char × Cursor)
  | 0, c, text => .ok (text, c)
  | fuel + 1, c, text =>
    match c.rest with
    | [] => .ok (text, c)
    | ch :: _ =>
      if ch = '%' then do
        let (decoded, length) ← percentChar c.rest
        tagChars wide fuel (c.skip (3 * length)) (text ++ [decoded])
      else if isWordChar ch || isTagMark ch || (wide && (ch = ',' || ch = '[' || ch = ']')) then
        tagChars wide fuel (c.skip 1) (text ++ [ch])
      else .ok (text, c)

/-- A tag handle: an exclamation mark, a word, and a second mark. In a tag the
second mark may be missing. -/
def tagHandle (inDirective : Bool) (c : Cursor) : Except Error (List Char × Cursor) :=
  if c.peek ≠ some '!' then .error .tag
  else
    let word := (c.rest.drop 1).takeWhile isWordChar
    let after := c.skip (1 + word.length)
    if after.peek = some '!' then .ok (['!'] ++ word ++ ['!'], after.skip 1)
    else if inDirective && !word.isEmpty then .error .tag
    else .ok ('!' :: word, after)

def tagToken (flow : Bool) (c : Cursor) : Except Error (Token × Cursor) := do
  let (token, c) ←
    if c.peek 1 = some '<' then do
      let (suffix, c) ← tagChars true c.rest.length (c.skip 2) []
      if suffix.isEmpty || c.peek ≠ some '>' then .error .tag
      else .ok (Token.tag "" (String.ofList suffix), c.skip 1)
    else do
      let (handle, after) ← tagHandle false c
      if 1 < handle.length && handle.getLast? = some '!' then do
        let (suffix, c) ← tagChars false after.rest.length after []
        if suffix.isEmpty then .error .tag
        else .ok (Token.tag (String.ofList handle) (String.ofList suffix), c)
      else do
        let (suffix, c) ← tagChars false after.rest.length after (handle.drop 1)
        if suffix.isEmpty then .ok (Token.tag "" "!", c)
        else .ok (Token.tag "!" (String.ofList suffix), c)
  if endsWord c.peek || (flow && c.peek = some ',') then .ok (token, c) else .error .tag

def endsName : Option Char → Bool
  | none => true
  | some c =>
    endsWord (some c) || ['?', ':', ',', ']', '\x7d', '%', '@', '\x60'].contains c

def anchorName (c : Cursor) : Except Error (String × Cursor) :=
  let name := (c.rest.drop 1).takeWhile isWordChar
  let c := c.skip (1 + name.length)
  if name.isEmpty || !endsName c.peek then .error .anchor
  else .ok (String.ofList name, c)

def versionPart (c : Cursor) : Except Error (Nat × Cursor) :=
  let digits := c.rest.takeWhile Char.isDigit
  if digits.isEmpty || 9 < digits.length then .error .directive
  else .ok (Nat.ofDigitChars 10 digits 0, c.skip digits.length)

def versionDirective (c : Cursor) : Except Error (Token × Cursor) := do
  let (major, c) ← versionPart (c.skipWhile isSpacing)
  if c.peek ≠ some '.' then .error .directive
  else do
    let (minor, c) ← versionPart (c.skip 1)
    .ok (Token.version major minor, c)

def tagDirective (c : Cursor) : Except Error (Token × Cursor) := do
  let (handle, c) ← tagHandle true (c.skipWhile isSpacing)
  if !c.peek.any isSpacing then .error .directive
  else do
    let c := c.skipWhile isSpacing
    let (start, c) ← tagChars true c.rest.length c []
    if start.isEmpty || !endsWord c.peek then .error .directive
    else .ok (Token.tagDirective (String.ofList handle) (String.ofList start), c)

def directive (c : Cursor) : Except Error (Token × Cursor) := do
  let name := (c.rest.drop 1).takeWhile isWordChar
  let c := c.skip (1 + name.length)
  if name.isEmpty || !endsWord c.peek then .error .directive
  else do
    let (token, c) ←
      if name = ['Y', 'A', 'M', 'L'] then versionDirective c
      else if name = ['T', 'A', 'G'] then tagDirective c
      else .error .directive
    let c ← restOfLine c .directive
    .ok (token, c)

end Yaml
end PointsTo
