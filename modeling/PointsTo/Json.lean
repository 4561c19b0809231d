import PointsTo.Text.Decimal

/-!
JSON values and their text on several lines: two blanks for each level, one
member or item a line, and no blank lines.
-/

namespace PointsTo

inductive Json where
  | null
  | bool (b : Bool)
  | number (n : Int)
  | string (s : String)
  | array (items : List Json)
  | object (members : List (String × Json))

namespace Json

/-- A character of a string. Those below the blank have escapes, as have the
quote and the backslash; all others stand for themselves. -/
def charText (c : Char) : List Char :=
  match c with
  | '"' => ['\\', '"']
  | '\\' => ['\\', '\\']
  | '\x08' => ['\\', 'b']
  | '\t' => ['\\', 't']
  | '\n' => ['\\', 'n']
  | '\x0c' => ['\\', 'f']
  | '\r' => ['\\', 'r']
  | c =>
    if c.toNat < 0x20 then
      ['\\', 'u', '0', '0', Nat.digitChar (c.toNat / 16), Nat.digitChar (c.toNat % 16)]
    else [c]

def stringText (s : String) : List Char :=
  ['"'] ++ s.toList.flatMap charText ++ ['"']

def newLine (level : Nat) : List Char :=
  '\n' :: List.replicate (2 * level) ' '

mutual

def textAt (level : Nat) : Json → List Char
  | null => "null".toList
  | bool true => "true".toList
  | bool false => "false".toList
  | number n => (Decimal.signedText n).toList
  | string s => stringText s
  | array [] => ['[', ']']
  | array (item :: items) =>
    ['['] ++ newLine (level + 1) ++ textAt (level + 1) item ++ itemsText (level + 1) items ++
      newLine level ++ [']']
  | object [] => ['\x7b', '\x7d']
  | object ((name, value) :: members) =>
    ['\x7b'] ++ newLine (level + 1) ++ stringText name ++ [':', ' '] ++ textAt (level + 1) value ++
      membersText (level + 1) members ++ newLine level ++ ['\x7d']

def itemsText (level : Nat) : List Json → List Char
  | [] => []
  | item :: items => [','] ++ newLine level ++ textAt level item ++ itemsText level items

def membersText (level : Nat) : List (String × Json) → List Char
  | [] => []
  | (name, value) :: members =>
    [','] ++ newLine level ++ stringText name ++ [':', ' '] ++ textAt level value ++
      membersText level members

end

def text (j : Json) : String :=
  String.ofList (j.textAt 0)

def ofOption {α : Type} (f : α → Json) : Option α → Json
  | some a => f a
  | none => null

end Json
end PointsTo
