/-!
Byte strings and their reading as UTF-8. Bytes are read by a machine that owes
at most three continuation bytes. An ill-formed sequence is given up at the
first byte that cannot continue it, and that byte is read afresh. The same
machine gives the strict reading, which refuses ill-formed bytes, and the lossy
reading, which shows one replacement character for each sequence given up.
-/

namespace PointsTo

abbrev Bytes := List UInt8

namespace Text

def encodeChars (cs : List Char) : Bytes :=
  cs.flatMap String.utf8EncodeChar

def encode (s : String) : Bytes :=
  encodeChars s.toList

@[simp] theorem encodeChars_nil : encodeChars [] = [] := rfl

@[simp] theorem encodeChars_append (cs ds : List Char) :
    encodeChars (cs ++ ds) = encodeChars cs ++ encodeChars ds := by
  simp [encodeChars]

/-- Where the machine stands: between characters, or inside one that owes
further bytes, the next of which lies between `low` and `high`. -/
inductive Decoder where
  | start
  | inside (owed : Nat) (low high : UInt8) (value : Nat)
deriving DecidableEq

namespace Decoder

/-- What a byte says when it comes first: a whole character, the opening of a
longer one, or nothing that UTF-8 knows. -/
def first (b : UInt8) : Option Char × Decoder :=
  let v := b.toNat
  if v < 0x80 then (some (Char.ofNat v), start)
  else if v < 0xC2 then (none, start)
  else if v < 0xE0 then (none, inside 1 0x80 0xBF (v - 0xC0))
  else if v < 0xF0 then
    (none, inside 2 (if v = 0xE0 then 0xA0 else 0x80) (if v = 0xED then 0x9F else 0xBF) (v - 0xE0))
  else if v < 0xF5 then
    (none, inside 3 (if v = 0xF0 then 0x90 else 0x80) (if v = 0xF4 then 0x8F else 0xBF) (v - 0xF0))
  else (none, start)

def opening (b : UInt8) : List (Option Char) × Decoder :=
  match first b with
  | (some c, d) => ([some c], d)
  | (none, start) => ([none], start)
  | (none, d) => ([], d)

/-- One byte: the pieces that it completes, `none` for a sequence given up, and
where the machine stands then. -/
def step : Decoder → UInt8 → List (Option Char) × Decoder
  | start, b => opening b
  | inside owed low high value, b =>
    if low ≤ b ∧ b ≤ high then
      let value := value * 64 + (b.toNat - 0x80)
      if owed ≤ 1 then ([some (Char.ofNat value)], start)
      else ([], inside (owed - 1) 0x80 0xBF value)
    else
      let (out, d) := opening b
      (none :: out, d)

/-- The end of the bytes gives up a character that is still open. -/
def finish : Decoder → List (Option Char)
  | start => []
  | inside .. => [none]

end Decoder

/-- The machine's run over the bytes, with the pieces found so far in reverse. -/
def decodeRun (bytes : Bytes) : List (Option Char) × Decoder :=
  bytes.foldl (fun (out, d) b => let (more, d) := d.step b; (more.reverse ++ out, d)) ([], .start)

/-- The characters of a byte string in order, `none` for each sequence that is
not UTF-8. -/
def pieces (bytes : Bytes) : List (Option Char) :=
  let (out, d) := decodeRun bytes
  out.reverse ++ d.finish

/-- The lossy reading: U+FFFD stands for each sequence that is not UTF-8. -/
def lossyChars (bytes : Bytes) : List Char :=
  (pieces bytes).map (·.getD '\ufffd')

def lossy (bytes : Bytes) : String :=
  String.ofList (lossyChars bytes)

/-- The strict reading: a text only if every byte belongs to a character. -/
def decode? (bytes : Bytes) : Option String :=
  let found := pieces bytes
  if found.all Option.isSome then some (String.ofList (found.filterMap id)) else none

end Text

end PointsTo
