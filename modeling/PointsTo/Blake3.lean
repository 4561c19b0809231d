import PointsTo.Text.Utf8

/-!
The BLAKE3 hash of a byte string. The bytes are cut into chunks of 1024, each of
them hashed in blocks of 64; neighbouring results are then joined in pairs, level
by level, until one is left, which is finished as the root.
-/

namespace PointsTo
namespace Blake3

abbrev Words (n : Nat) := Vector UInt32 n

def initial : Words 8 :=
  #v[0x6A09E667, 0xBB67AE85, 0x3C6EF372, 0xA54FF53A, 0x510E527F, 0x9B05688C, 0x1F83D9AB, 0x5BE0CD19]

def chunkStart : UInt32 := 1
def chunkEnd : UInt32 := 2
def parentFlag : UInt32 := 4
def rootFlag : UInt32 := 8

def rotateRight (word count : UInt32) : UInt32 :=
  (word >>> count) ||| (word <<< (32 - count))

def quarter (v : Words 16) (a b c d : Fin 16) (x y : UInt32) : Words 16 :=
  let v := v.set a (v[a] + v[b] + x)
  let v := v.set d (rotateRight (v[d] ^^^ v[a]) 16)
  let v := v.set c (v[c] + v[d])
  let v := v.set b (rotateRight (v[b] ^^^ v[c]) 12)
  let v := v.set a (v[a] + v[b] + y)
  let v := v.set d (rotateRight (v[d] ^^^ v[a]) 8)
  let v := v.set c (v[c] + v[d])
  v.set b (rotateRight (v[b] ^^^ v[c]) 7)

def round (v m : Words 16) : Words 16 :=
  let v := quarter v 0 4 8 12 m[0] m[1]
  let v := quarter v 1 5 9 13 m[2] m[3]
  let v := quarter v 2 6 10 14 m[4] m[5]
  let v := quarter v 3 7 11 15 m[6] m[7]
  let v := quarter v 0 5 10 15 m[8] m[9]
  let v := quarter v 1 6 11 12 m[10] m[11]
  let v := quarter v 2 7 8 13 m[12] m[13]
  quarter v 3 4 9 14 m[14] m[15]

def permutation : Vector (Fin 16) 16 :=
  #v[2, 6, 3, 10, 7, 0, 4, 13, 1, 11, 12, 5, 9, 14, 15, 8]

def permute (m : Words 16) : Words 16 :=
  permutation.map fun i => m[i]

def rounds : Nat → Words 16 → Words 16 → Words 16
  | 0, v, _ => v
  | n + 1, v, m => rounds n (round v m) (permute m)

structure Node where
  chaining : Words 8
  block : Words 16
  counter : Nat
  length : Nat
  flags : UInt32

def Node.compress (n : Node) (extra : UInt32) : Words 8 :=
  let v : Words 16 := n.chaining ++ (#v[initial[0], initial[1], initial[2], initial[3],
    n.counter.toUInt32, (n.counter >>> 32).toUInt32, n.length.toUInt32, n.flags ||| extra])
  let v := rounds 7 v n.block
  Vector.ofFn fun i : Fin 8 => v[i.val] ^^^ v[i.val + 8]

def byteAt (bytes : Array UInt8) (i : Nat) : UInt32 :=
  (bytes[i]?.getD 0).toUInt32

/-- Up to 64 bytes as words, low byte first, filled up with zeros. -/
def blockWords (bytes : Bytes) : Words 16 :=
  let bytes := bytes.toArray
  Vector.ofFn fun i : Fin 16 =>
    byteAt bytes (4 * i) ||| (byteAt bytes (4 * i + 1) <<< 8) |||
      (byteAt bytes (4 * i + 2) <<< 16) ||| (byteAt bytes (4 * i + 3) <<< 24)

/-- Cut bytes into pieces of one size, the last of which may be shorter. There is
always one piece. -/
def cut (size : Nat) : Nat → Bytes → List Bytes
  | 0, bytes => [bytes]
  | fuel + 1, bytes =>
    if (bytes.drop size).isEmpty then [bytes]
    else bytes.take size :: cut size fuel (bytes.drop size)

/-- The last block of a chunk, with the blocks before it compressed. -/
def chunkNode (counter : Nat) (chaining : Words 8) (flags : UInt32) : List Bytes → Node
  | [] => ⟨chaining, blockWords [], counter, 0, flags ||| chunkEnd⟩
  | [last] => ⟨chaining, blockWords last, counter, last.length, flags ||| chunkEnd⟩
  | block :: rest =>
    let node : Node := ⟨chaining, blockWords block, counter, block.length, flags⟩
    chunkNode counter (node.compress 0) 0 rest

def chunk (counter : Nat) (bytes : Bytes) : Node :=
  chunkNode counter initial chunkStart (cut 64 bytes.length bytes)

def join (left right : Node) : Node :=
  ⟨initial, left.compress 0 ++ right.compress 0, 0, 64, parentFlag⟩

/-- Join neighbours. A last one without a neighbour moves up as it is. -/
def joinPairs : List Node → List Node
  | left :: right :: rest => join left right :: joinPairs rest
  | rest => rest

def reduce : Nat → List Node → Option Node
  | _, [] => none
  | _, [node] => some node
  | 0, node :: _ => some node
  | fuel + 1, nodes => reduce fuel (joinPairs nodes)

def wordBytes (w : UInt32) : Bytes :=
  [w.toUInt8, (w >>> 8).toUInt8, (w >>> 16).toUInt8, (w >>> 24).toUInt8]

def hash (bytes : Bytes) : Bytes :=
  let chunks := (cut 1024 bytes.length bytes).zipIdx.map fun (piece, i) => chunk i piece
  match reduce chunks.length chunks with
  | some root => (root.compress rootFlag).toList.flatMap wordBytes
  | none => []

def hexDigits (b : UInt8) : List Char :=
  [Nat.digitChar (b.toNat / 16), Nat.digitChar (b.toNat % 16)]

def hex (bytes : Bytes) : String :=
  String.ofList (bytes.flatMap hexDigits)

end Blake3

def digest (bytes : Bytes) : String :=
  "blake3:" ++ Blake3.hex (Blake3.hash bytes)

end PointsTo
