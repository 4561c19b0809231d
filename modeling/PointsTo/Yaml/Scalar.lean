import PointsTo.Yaml.Cursor

/-!
The texts of a YAML document: plain, in quotes of either kind, and in blocks. Each
reader takes the place where the text starts and answers with the text and the
place behind it.
-/

namespace PointsTo
namespace Yaml

inductive Style where
  | plain
  | singleQuoted
  | doubleQuoted
  | literal
  | folded
deriving DecidableEq

structure Gap where
  /-- Blanks before any break. -/
  blanks : List Char
  broken : Bool
  firstBreak : List Char
  laterBreaks : List Char
deriving DecidableEq

namespace Gap

def none : Gap := ⟨[], false, [], []⟩

def afterEscapedBreak : Gap := ⟨[], true, [], []⟩

/-- What a gap leaves: one break is a blank, and several are one fewer. -/
def text (g : Gap) : List Char :=
  if !g.broken then g.blanks
  else if g.firstBreak = ['\n'] then
    if g.laterBreaks.isEmpty then [' '] else g.laterBreaks
  else g.firstBreak ++ g.laterBreaks

/-- Read a gap to its end. Below the column `indent` no tab may stand. -/
def read (indent : Nat) : Nat → Cursor → Gap → Except Error (Gap × Cursor)
  | 0, c, g => .ok (g, c)
  | fuel + 1, c, g =>
    match c.rest with
    | [] => .ok (g, c)
    | ch :: _ =>
      if isSpacing ch then
        if g.broken then
          if ch = '\t' && c.column < indent then .error .indentation
          else read indent fuel (c.skip 1) g
        else read indent fuel (c.skip 1) { g with blanks := g.blanks ++ [ch] }
      else if isBreak ch then
        if g.broken then
          read indent fuel c.skipBreak { g with laterBreaks := g.laterBreaks ++ c.breakText }
        else read indent fuel c.skipBreak ⟨[], true, c.breakText, []⟩
      else .ok (g, c)

end Gap

def isFlowMark (c : Char) : Bool :=
  c = ',' || c = '[' || c = ']' || c = '\x7b' || c = '\x7d'

def plainWord (flow : Bool) : List Char → Except Error (List Char)
  | [] => .ok []
  | c :: rest =>
    if isSpacing c || isBreak c then .ok []
    else if flow && c = ':' && rest.head?.any fun d => isFlowMark d || d = '?' then .error .colon
    else if (c = ':' && endsWord rest.head?) || (flow && isFlowMark c) then .ok []
    else do
      let word ← plainWord flow rest
      .ok (c :: word)

/-- Words of a plain text, with the gap before the next one. The last gap is not
part of the text; the answer has it for what comes after. -/
def plainWords (flow : Bool) (indent : Nat) :
    Nat → Cursor → Gap → List Char → Except Error (List Char × Gap × Cursor)
  | 0, c, gap, text => .ok (text, gap, c)
  | fuel + 1, c, gap, text =>
    if c.atDocumentMark || c.peek = some '#' then .ok (text, gap, c)
    else do
      let word ← plainWord flow c.rest
      let text := if word.isEmpty then text else text ++ gap.text ++ word
      let gap := if word.isEmpty then gap else Gap.none
      let c := c.skip word.length
      if c.rest.isEmpty || !endsWord c.peek then .ok (text, gap, c)
      else do
        let (gap, c) ← Gap.read indent c.rest.length c Gap.none
        if !flow && c.column < indent then .ok (text, gap, c)
        else plainWords flow indent fuel c gap text

/-- A plain text. The flag says whether a break came after it. -/
def plain (flow : Bool) (indent : Nat) (c : Cursor) : Except Error (String × Bool × Cursor) := do
  let (text, gap, c) ← plainWords flow indent (c.rest.length + 1) c Gap.none []
  .ok (String.ofList text, gap.broken, c)

def letterEscape? (c : Char) : Option Char :=
  match c with
  | '0' => some '\x00'
  | 'a' => some '\x07'
  | 'b' => some '\x08'
  | 't' => some '\t'
  | '\t' => some '\t'
  | 'n' => some '\n'
  | 'v' => some '\x0b'
  | 'f' => some '\x0c'
  | 'r' => some '\r'
  | 'e' => some '\x1b'
  | ' ' => some ' '
  | '"' => some '"'
  | '/' => some '/'
  | '\\' => some '\\'
  | 'N' => some '\u0085'
  | '_' => some '\u00a0'
  | 'L' => some '\u2028'
  | 'P' => some '\u2029'
  | _ => none

def codeEscape? (c : Char) : Option Nat :=
  match c with
  | 'x' => some 2
  | 'u' => some 4
  | 'U' => some 8
  | _ => none

def hexValue? (c : Char) : Option Nat :=
  if c.isDigit then some (c.toNat - '0'.toNat)
  else if 'a' ≤ c && c ≤ 'f' then some (c.toNat - 'a'.toNat + 10)
  else if 'A' ≤ c && c ≤ 'F' then some (c.toNat - 'A'.toNat + 10)
  else none

def radixValue? (base : Nat) (ds : List Char) : Option Nat :=
  ds.foldlM
    (fun n d => (hexValue? d).bind fun v => if v < base then some (base * n + v) else none)
    0

/-- The character of an escape after its backslash, and the length of the escape
without it. -/
def escape (rest : List Char) : Except Error (Char × Nat) :=
  match rest with
  | [] => .error .escape
  | c :: digits =>
    match letterEscape? c, codeEscape? c with
    | some ch, _ => .ok (ch, 1)
    | none, some width =>
      match radixValue? 16 (digits.take width) with
      | some code =>
        if digits.length < width || !decide code.isValidChar then .error .escape
        else .ok (Char.ofNat code, width + 1)
      | none => .error .escape
    | none, none => .error .escape

def quotedRest (single : Bool) : Nat → Cursor → List Char → Except Error (List Char × Cursor)
  | 0, _, _ => .error .unclosedQuote
  | fuel + 1, c, text =>
    if c.atDocumentMark then .error .unclosedQuote
    else match c.rest with
      | [] => .error .unclosedQuote
      | ch :: rest =>
        if isSpacing ch || isBreak ch then do
          let (gap, c) ← Gap.read 0 c.rest.length c Gap.none
          quotedRest single fuel c (text ++ gap.text)
        else if single && ch = '\'' then
          if rest.head? = some '\'' then quotedRest single fuel (c.skip 2) (text ++ ['\''])
          else .ok (text, c.skip 1)
        else if !single && ch = '"' then .ok (text, c.skip 1)
        else if !single && ch = '\\' then
          if rest.head?.any isBreak then do
            let c := (c.skip 1).skipBreak
            let (gap, c) ← Gap.read 0 c.rest.length c Gap.afterEscapedBreak
            quotedRest single fuel c (text ++ gap.text)
          else do
            let (escaped, length) ← escape rest
            quotedRest single fuel (c.skip (length + 1)) (text ++ [escaped])
        else quotedRest single fuel (c.skip 1) (text ++ [ch])

def quoted (single : Bool) (c : Cursor) : Except Error (String × Cursor) := do
  let (text, c) ← quotedRest single (c.rest.length + 1) (c.skip 1) []
  .ok (String.ofList text, c)

inductive Chomping where
  | strip
  | clip
  | keep
deriving DecidableEq

def chomping? (c : Char) : Option Chomping :=
  match c with
  | '+' => some .keep
  | '-' => some .strip
  | _ => none

def depth? (c : Char) : Except Error (Option Nat) :=
  if c = '0' then .error .blockHeader
  else if c.isDigit then .ok (some (c.toNat - '0'.toNat))
  else .ok none

/-- The two marks after the sign of a block, in either order. -/
def blockMarks (c : Cursor) : Except Error (Chomping × Option Nat × Cursor) :=
  match c.rest with
  | [] => .ok (.clip, none, c)
  | first :: rest =>
    match chomping? first with
    | some chomping =>
      match rest with
      | [] => .ok (chomping, none, c.skip 1)
      | second :: _ => do
        let depth ← depth? second
        .ok (chomping, depth, c.skip (if depth.isSome then 2 else 1))
    | none => do
      let depth ← depth? first
      if depth.isNone then .ok (.clip, none, c)
      else match rest.head?.bind chomping? with
        | some chomping => .ok (chomping, depth, c.skip 2)
        | none => .ok (.clip, depth, c.skip 1)

def restOfLine (c : Cursor) (otherwise : Error) : Except Error Cursor :=
  let c := c.skipWhile isSpacing
  let c := if c.peek = some '#' then c.skipWhile fun ch => !isBreak ch else c
  if endsLine c.peek then .ok c.skipBreak else .error otherwise

/-- Empty lines and the blanks that start the next line, as far as they count as
indentation. The answer has the breaks and the greatest column reached. -/
def blockBreaks (indent : Option Nat) :
    Nat → Cursor → List Char → Nat → Except Error (List Char × Nat × Cursor)
  | 0, c, breaks, deepest => .ok (breaks, deepest, c)
  | fuel + 1, c, breaks, deepest =>
    let blanks := (c.rest.takeWhile (· = ' ')).length
    let c := c.skip (match indent with
      | some n => min blanks (n - c.column)
      | none => blanks)
    let deepest := max deepest c.column
    if c.peek = some '\t' && indent.all (c.column < ·) then .error .indentation
    else if c.peek.any isBreak then
      blockBreaks indent fuel c.skipBreak (breaks ++ c.breakText) deepest
    else .ok (breaks, deepest, c)

structure Block where
  text : List Char
  /-- The break of the last line. -/
  lastBreak : List Char
  /-- Breaks of the empty lines after it. -/
  moreBreaks : List Char
  /-- Whether the last line starts with a blank. -/
  blankStart : Bool
deriving DecidableEq

namespace Block

/-- The text before the next line. In a folded block a single break between two
lines that start without a blank becomes a blank. -/
def joined (b : Block) (folded blankNext : Bool) : List Char :=
  if folded && b.lastBreak = ['\n'] && !b.blankStart && !blankNext then
    b.text ++ (if b.moreBreaks.isEmpty then [' '] else []) ++ b.moreBreaks
  else b.text ++ b.lastBreak ++ b.moreBreaks

def finish (b : Block) : Chomping → List Char
  | .strip => b.text
  | .clip => b.text ++ b.lastBreak
  | .keep => b.text ++ b.lastBreak ++ b.moreBreaks

def lines (folded : Bool) (indent : Nat) : Nat → Cursor → Block → Except Error (Block × Cursor)
  | 0, c, b => .ok (b, c)
  | fuel + 1, c, b =>
    match c.rest with
    | [] => .ok (b, c)
    | ch :: _ =>
      if c.column ≠ indent then .ok (b, c)
      else do
        let line := c.rest.takeWhile fun ch => !isBreak ch
        let text := b.joined folded (isSpacing ch) ++ line
        let c := c.skip line.length
        let lastBreak := c.breakText
        let c := c.skipBreak
        let (moreBreaks, _, c) ← blockBreaks (some indent) (c.rest.length + 1) c [] 0
        lines folded indent fuel c ⟨text, lastBreak, moreBreaks, isSpacing ch⟩

end Block

/-- A block text, from its sign on, inside a block at the column `parent`. -/
def block (folded : Bool) (parent : Option Nat) (c : Cursor) : Except Error (String × Cursor) := do
  let (chomping, depth, c) ← blockMarks (c.skip 1)
  let c ← restOfLine c .blockHeader
  let given := depth.map (parent.getD 0 + ·)
  let (breaks, deepest, c) ← blockBreaks given (c.rest.length + 1) c [] 0
  let indent := given.getD (max deepest (max 1 ((parent.map (· + 1)).getD 0)))
  let (b, c) ← Block.lines folded indent (c.rest.length + 1) c ⟨[], [], breaks, false⟩
  .ok (String.ofList (b.finish chomping), c)

end Yaml
end PointsTo
