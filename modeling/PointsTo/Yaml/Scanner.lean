import PointsTo.Yaml.Token

/-!
Cutting a YAML text into tokens. A key needs no sign of its own, so the scanner
remembers the last place where one may have started and puts the key token there
when the colon comes. Such a key is at most 1024 characters long and on one line.
-/

namespace PointsTo
namespace Yaml

structure PossibleKey where
  /-- How many tokens came before it. -/
  position : Nat
  /-- Whether nothing but a key can stand there. -/
  required : Bool
  index : Nat
  line : Nat
  column : Nat
deriving DecidableEq

structure Scanner where
  cursor : Cursor
  tokens : List Token
  /-- The columns of the open block collections, innermost first. -/
  indents : List Nat
  key : Option PossibleKey
  /-- The possible keys outside each open bracket or brace, innermost first. -/
  outer : List (Option PossibleKey)
  keyAllowed : Bool
  finished : Bool
deriving DecidableEq

namespace Scanner

def start (cs : List Char) : Scanner :=
  ⟨.start cs, [], [], none, [], true, false⟩

def inFlow (s : Scanner) : Bool :=
  !s.outer.isEmpty

def emit (s : Scanner) (t : Token) : Scanner :=
  { s with tokens := s.tokens ++ [t] }

def skip (s : Scanner) (n : Nat) : Scanner :=
  { s with cursor := s.cursor.skip n }

def allowKey (s : Scanner) (allowed : Bool) : Scanner :=
  { s with keyAllowed := allowed }

def dropKey (s : Scanner) : Except Error Scanner :=
  if s.key.any PossibleKey.required then .error .missingColon
  else .ok { s with key := none }

def saveKey (s : Scanner) : Except Error Scanner :=
  if s.keyAllowed then do
    let s ← s.dropKey
    .ok { s with
      key := some
        { position := s.tokens.length
          required := !s.inFlow && s.indents.head? = some s.cursor.column
          index := s.cursor.index
          line := s.cursor.line
          column := s.cursor.column } }
  else .ok s

def openBlock (s : Scanner) (column position : Nat) (t : Token) : Scanner :=
  if !s.inFlow && s.indents.head?.all (· < column) then
    { s with indents := column :: s.indents, tokens := s.tokens.insertIdx position t }
  else s

def closeBlocks (s : Scanner) (column : Nat) : Scanner :=
  if s.inFlow then s
  else
    let closed := s.indents.takeWhile (column < ·)
    { s with
      indents := s.indents.drop closed.length
      tokens := s.tokens ++ closed.map fun _ => .blockEnd }

def closeAllBlocks (s : Scanner) : Scanner :=
  if s.inFlow then s
  else { s with indents := [], tokens := s.tokens ++ s.indents.map fun _ => .blockEnd }

/-- Pass over blanks, breaks and comments. Outside brackets a new line may start
a key, and a tab may not stand where a key can. -/
def toNextToken : Nat → Scanner → Scanner
  | 0, s => s
  | fuel + 1, s =>
    let c := s.cursor
    let c := if c.index = 0 && c.peek = some '\ufeff' then c.skip 1 else c
    let c := c.skipWhile fun ch => ch = ' ' || (ch = '\t' && (s.inFlow || !s.keyAllowed))
    let c := if c.peek = some '#' then c.skipWhile fun ch => !isBreak ch else c
    if c.peek.any isBreak then
      toNextToken fuel
        { s with cursor := c.skipBreak, keyAllowed := s.keyAllowed || !s.inFlow }
    else { s with cursor := c }

def keyLimit : Nat := 1024

/-- The possible key, if a colon at this place would make it one. -/
def currentKey (s : Scanner) : Except Error (Option PossibleKey) :=
  match s.key with
  | none => .ok none
  | some k =>
    if k.line < s.cursor.line || k.index + keyLimit < s.cursor.index then
      if k.required then .error .missingColon else .ok none
    else .ok (some k)

def documentMark (s : Scanner) (t : Token) : Except Error Scanner := do
  let s ← s.closeAllBlocks.dropKey
  .ok ((s.allowKey false).skip 3 |>.emit t)

def fetchDirective (s : Scanner) : Except Error Scanner := do
  let s ← s.closeAllBlocks.dropKey
  let (t, c) ← directive s.cursor
  .ok { s with cursor := c, keyAllowed := false, tokens := s.tokens ++ [t] }

def openFlow (s : Scanner) (t : Token) : Except Error Scanner := do
  let s ← s.saveKey
  .ok ({ s with key := none, outer := s.key :: s.outer, keyAllowed := true }.skip 1 |>.emit t)

def closeFlow (s : Scanner) (t : Token) : Except Error Scanner := do
  let s ← s.dropKey
  let s := match s.outer with
    | [] => s
    | key :: outer => { s with key := key, outer := outer }
  .ok ((s.allowKey false).skip 1 |>.emit t)

def flowEntry (s : Scanner) : Except Error Scanner := do
  let s ← s.dropKey
  .ok ((s.allowKey true).skip 1 |>.emit .flowEntry)

def blockEntry (s : Scanner) : Except Error Scanner :=
  if !s.inFlow && !s.keyAllowed then .error .entryPlace
  else do
    let s ← (s.openBlock s.cursor.column s.tokens.length .blockSequence).dropKey
    .ok ((s.allowKey true).skip 1 |>.emit .blockEntry)

def explicitKey (s : Scanner) : Except Error Scanner :=
  if !s.inFlow && !s.keyAllowed then .error .keyPlace
  else do
    let s ← (s.openBlock s.cursor.column s.tokens.length .blockMapping).dropKey
    .ok ((s.allowKey !s.inFlow).skip 1 |>.emit .key)

def value (s : Scanner) : Except Error Scanner := do
  match ← s.currentKey with
  | some k =>
    let s := { s with tokens := s.tokens.insertIdx k.position .key, key := none }
    let s := s.openBlock k.column k.position .blockMapping
    .ok ((s.allowKey false).skip 1 |>.emit .value)
  | none =>
    if !s.inFlow && !s.keyAllowed then .error .valuePlace
    else
      let s := { s with key := none }.openBlock s.cursor.column s.tokens.length .blockMapping
      .ok ((s.allowKey !s.inFlow).skip 1 |>.emit .value)

def referenceName (s : Scanner) : Except Error Scanner := do
  let s ← s.saveKey
  let (name, c) ← anchorName s.cursor
  .ok ({ s with cursor := c, keyAllowed := false }.emit (.reference name))

def anchor (s : Scanner) : Except Error Scanner := do
  let s ← s.saveKey
  let (name, c) ← anchorName s.cursor
  .ok ({ s with cursor := c, keyAllowed := false }.emit (.anchor name))

def tag (s : Scanner) : Except Error Scanner := do
  let s ← s.saveKey
  let (t, c) ← tagToken s.inFlow s.cursor
  .ok ({ s with cursor := c, keyAllowed := false }.emit t)

def blockScalar (s : Scanner) (folded : Bool) : Except Error Scanner := do
  let s ← s.dropKey
  let (text, c) ← block folded s.indents.head? s.cursor
  .ok ({ s with cursor := c, keyAllowed := true }.emit
    (.scalar text (if folded then .folded else .literal)))

def quotedScalar (s : Scanner) (single : Bool) : Except Error Scanner := do
  let s ← s.saveKey
  let (text, c) ← quoted single s.cursor
  .ok ({ s with cursor := c, keyAllowed := false }.emit
    (.scalar text (if single then .singleQuoted else .doubleQuoted)))

def plainScalar (s : Scanner) : Except Error Scanner := do
  let s ← s.saveKey
  let indent := (s.indents.head?.map (· + 1)).getD 0
  let (text, broken, c) ← plain s.inFlow indent s.cursor
  .ok ({ s with cursor := c, keyAllowed := broken }.emit (.scalar text .plain))

def streamEnd (s : Scanner) : Except Error Scanner := do
  let s ← s.closeAllBlocks.dropKey
  .ok ({ s with keyAllowed := false, finished := true }.emit .streamEnd)

/-- Signs that cannot start a plain text, unless a word follows some of them. -/
def isIndicator (c : Char) : Bool :=
  ['-', '?', ':', ',', '[', ']', '\x7b', '\x7d', '#', '&', '*', '!', '|', '>', '\'', '"', '%', '@',
    '\x60'].contains c

def startsPlain (s : Scanner) (c : Char) (next : Option Char) : Bool :=
  !(endsWord (some c) || isIndicator c) ||
    (c = '-' && !next.any isSpacing) ||
    (!s.inFlow && (c = '?' || c = ':') && !endsWord next)

def fetch (s : Scanner) : Except Error Scanner :=
  match s.cursor.rest with
  | [] => s.streamEnd
  | c :: rest =>
    if s.cursor.column = 0 && c = '%' then s.fetchDirective
    else if s.cursor.atDocumentMark then
      s.documentMark (if c = '-' then .documentStart else .documentEnd)
    else if c = '[' then s.openFlow .flowSequence
    else if c = '\x7b' then s.openFlow .flowMapping
    else if c = ']' then s.closeFlow .flowSequenceEnd
    else if c = '\x7d' then s.closeFlow .flowMappingEnd
    else if c = ',' then s.flowEntry
    else if c = '-' && endsWord rest.head? then s.blockEntry
    else if c = '?' && (s.inFlow || endsWord rest.head?) then s.explicitKey
    else if c = ':' && (s.inFlow || endsWord rest.head?) then s.value
    else if c = '*' then s.referenceName
    else if c = '&' then s.anchor
    else if c = '!' then s.tag
    else if c = '|' && !s.inFlow then s.blockScalar false
    else if c = '>' && !s.inFlow then s.blockScalar true
    else if c = '\'' then s.quotedScalar true
    else if c = '"' then s.quotedScalar false
    else if s.startsPlain c rest.head? then s.plainScalar
    else .error .token

def step (s : Scanner) : Except Error Scanner :=
  let s := s.toNextToken (s.cursor.rest.length + 1)
  (s.closeBlocks s.cursor.column).fetch

def run : Nat → Scanner → Except Error Scanner
  | 0, s => .ok s
  | fuel + 1, s => if s.finished then .ok s else do run fuel (← s.step)

end Scanner

/-- The tokens of a text. Every token but the last takes at least one character. -/
def tokens (text : List Char) : Except Error (List Token) :=
  if !text.all isAllowed then .error .character
  else do
    let text := if text.head? = some '\ufeff' then text.drop 1 else text
    let s ← Scanner.run (text.length + 1) (.start text)
    .ok s.tokens

end Yaml
end PointsTo
