import CodeIndex.Text.Basic

set_option autoImplicit false

/-!
# BLAKE3 digests

The unkeyed hash with 256 bits of output.  The input is cut into chunks of 1024 bytes and each chunk into
blocks of 64; a chunk's blocks are compressed one after the other, and the chunks are the leaves of a
binary tree whose left subtrees are full.  Only the last compression carries the root flag.
-/

namespace CodeIndex.Digest

abbrev Words := Array UInt32

def initial : Words :=
  #[0x6A09E667, 0xBB67AE85, 0x3C6EF372, 0xA54FF53A, 0x510E527F, 0x9B05688C, 0x1F83D9AB, 0x5BE0CD19]

def chunkStart : UInt32 := 1
def chunkEnd : UInt32 := 2
def parentFlag : UInt32 := 4
def rootFlag : UInt32 := 8

def rotateRight (x : UInt32) (n : UInt32) : UInt32 := (x >>> n) ||| (x <<< (32 - n))

/-- The quarter round on four words of the state. -/
def mix (s : Words) (a b c d : Nat) (x y : UInt32) : Words :=
  let va := s.getD a 0 + s.getD b 0 + x
  let vd := rotateRight (s.getD d 0 ^^^ va) 16
  let vc := s.getD c 0 + vd
  let vb := rotateRight (s.getD b 0 ^^^ vc) 12
  let va := va + vb + y
  let vd := rotateRight (vd ^^^ va) 8
  let vc := vc + vd
  let vb := rotateRight (vb ^^^ vc) 7
  (((s.setIfInBounds a va).setIfInBounds b vb).setIfInBounds c vc).setIfInBounds d vd

/-- Columns, then diagonals, each with two words of the message. -/
def lanes : List (Nat × Nat × Nat × Nat) :=
  [(0, 4, 8, 12), (1, 5, 9, 13), (2, 6, 10, 14), (3, 7, 11, 15),
    (0, 5, 10, 15), (1, 6, 11, 12), (2, 7, 8, 13), (3, 4, 9, 14)]

def round (s m : Words) : Words :=
  lanes.zipIdx.foldl (fun s lane =>
    let ((a, b, c, d), i) := lane
    mix s a b c d (m.getD (2 * i) 0) (m.getD (2 * i + 1) 0)) s

/-- The order in which the next round takes the message words. -/
def order : Array Nat := #[2, 6, 3, 10, 7, 0, 4, 13, 1, 11, 12, 5, 9, 14, 15, 8]

def permute (m : Words) : Words := order.map fun i => m.getD i 0

def rounds : Nat → Words → Words → Words
  | 0, s, _ => s
  | n + 1, s, m => rounds n (round s m) (permute m)

/-- The input of one compression. -/
structure Node where
  chaining : Words
  block : Words
  counter : Nat
  length : Nat
  flags : UInt32

def Node.compress (n : Node) (extra : UInt32) : Words :=
  let state := n.chaining ++ initial.take 4 ++
    #[UInt32.ofNat n.counter, UInt32.ofNat (n.counter >>> 32), UInt32.ofNat n.length, n.flags ||| extra]
  let s := rounds 7 state n.block
  (Array.range 8).map fun i => (s.getD i 0 ^^^ s.getD (i + 8) 0 : UInt32)

/-- Pieces of `size` elements, the last one possibly shorter; nothing is one empty piece. -/
def cut (size : Nat) (bytes : List UInt8) : List (List UInt8) := go bytes.length bytes
where
  go : Nat → List UInt8 → List (List UInt8)
    | 0, bytes => [bytes]
    | fuel + 1, bytes =>
      if bytes.length ≤ size then [bytes] else bytes.take size :: go fuel (bytes.drop size)

/-- Little-endian words, padded with zeros to a block. -/
def wordsOf (bytes : List UInt8) : Words :=
  let padded := bytes.toArray ++ Array.replicate (64 - bytes.length) 0
  (Array.range 16).map fun i =>
    let byte := fun j => (padded.getD (4 * i + j) 0).toUInt32
    byte 0 ||| (byte 1 <<< 8) ||| (byte 2 <<< 16) ||| (byte 3 <<< 24)

/-- Runs through the blocks of a chunk; the last one is left to compress. -/
def chunkNode (counter : Nat) (chaining : Words) (flags : UInt32) : List (List UInt8) → Node
  | [] => ⟨chaining, wordsOf [], counter, 0, flags ||| chunkEnd⟩
  | [block] => ⟨chaining, wordsOf block, counter, block.length, flags ||| chunkEnd⟩
  | block :: rest =>
    let node : Node := ⟨chaining, wordsOf block, counter, 64, flags⟩
    chunkNode counter (node.compress 0) 0 rest

def leaf (counter : Nat) (chunk : List UInt8) : Node :=
  chunkNode counter initial chunkStart (cut 64 chunk)

def parent (left right : Node) : Node :=
  ⟨initial, left.compress 0 ++ right.compress 0, 0, 64, parentFlag⟩

/-- The largest power of two below `n`, for `n` at least two. -/
def leftSize (n : Nat) : Nat := 1 <<< (n - 1).log2

/-- The root of the tree over some leaves. -/
def rootNode : Nat → List Node → Node
  | _, [] => leaf 0 []
  | _, [node] => node
  | 0, node :: _ => node
  | fuel + 1, nodes =>
    let left := leftSize nodes.length
    parent (rootNode fuel (nodes.take left)) (rootNode fuel (nodes.drop left))

def hexByte (b : UInt8) : List Char :=
  [Text.hexDigit (b.toNat / 16), Text.hexDigit (b.toNat % 16)]

/-- The digest in lower-case hexadecimal. -/
def ofBytes (bytes : ByteArray) : String :=
  let leaves := (cut 1024 bytes.toList).zipIdx.map fun (chunk, i) => leaf i chunk
  let words : Words := (rootNode leaves.length leaves).compress rootFlag
  String.ofList <| words.toList.flatMap fun (w : UInt32) =>
    hexByte w.toUInt8 ++ hexByte (w >>> 8).toUInt8 ++ hexByte (w >>> 16).toUInt8
      ++ hexByte (w >>> 24).toUInt8

def ofString (s : String) : String := ofBytes s.toUTF8

end CodeIndex.Digest
