/-
The BLAKE3 tree hash with its default 32-byte output and no key.

The input is cut into chunks of 1024 bytes, each chunk into blocks of 64.
A chunk is folded block by block into a chaining value; chaining values
are then joined in pairs, level by level, an odd one at the end of a
level waiting for the next. That pairing is the same tree as the one in
which every left subtree is the largest full one. Whichever compression
comes last, of a lone chunk or of the top pair, is marked as the root.
-/
import Quorum.Bytes

namespace Quorum.Blake3

-- ======================================================= compression

/-- The first chaining value, for hashing without a key. -/
def start : List UInt32 := [
  0x6A09E667, 0xBB67AE85, 0x3C6EF372, 0xA54FF53A,
  0x510E527F, 0x9B05688C, 0x1F83D9AB, 0x5BE0CD19]

/-- The order in which a round's successor takes the message words. -/
def permutation : List Nat := [2, 6, 3, 10, 7, 0, 4, 13, 1, 11, 12, 5, 9, 14, 15, 8]

/-- Marks the first block of a chunk. Marks are or-ed together. -/
def chunkStart : UInt32 := 1

/-- Marks the last block of a chunk. -/
def chunkEnd : UInt32 := 2

/-- Marks two joined chaining values. -/
def parentMark : UInt32 := 4

/-- Marks the last compression of all. -/
def rootMark : UInt32 := 8

/-- Rotate a word right by `n` bits, `0 < n < 32`. -/
def rotr (x n : UInt32) : UInt32 := (x >>> n) ||| (x <<< (32 - n))

/-- Mix two message words into the four state words at these places. -/
def mix (s : Array UInt32) (ia ib ic id : Nat) (mx my : UInt32) : Array UInt32 :=
  let a := s.getD ia 0
  let b := s.getD ib 0
  let c := s.getD ic 0
  let d := s.getD id 0
  let a := a + b + mx
  let d := rotr (d ^^^ a) 16
  let c := c + d
  let b := rotr (b ^^^ c) 12
  let a := a + b + my
  let d := rotr (d ^^^ a) 8
  let c := c + d
  let b := rotr (b ^^^ c) 7
  (((s.setIfInBounds ia a).setIfInBounds ib b).setIfInBounds ic c).setIfInBounds id d

/-- The four columns, then the four diagonals. -/
def round (s m : Array UInt32) : Array UInt32 :=
  let w (i : Nat) := m.getD i 0
  let s := mix s 0 4 8 12 (w 0) (w 1)
  let s := mix s 1 5 9 13 (w 2) (w 3)
  let s := mix s 2 6 10 14 (w 4) (w 5)
  let s := mix s 3 7 11 15 (w 6) (w 7)
  let s := mix s 0 5 10 15 (w 8) (w 9)
  let s := mix s 1 6 11 12 (w 10) (w 11)
  let s := mix s 2 7 8 13 (w 12) (w 13)
  mix s 3 4 9 14 (w 14) (w 15)

/-- The message words in the next round's order. -/
def permute (m : Array UInt32) : Array UInt32 :=
  (permutation.map fun i => m.getD i 0).toArray

/-- `n` rounds, with the message words permuted between them. -/
def rounds : Nat → Array UInt32 → Array UInt32 → Array UInt32
  | 0, s, _ => s
  | n + 1, s, m => rounds n (round s m) (permute m)

/-- Fold one block of sixteen words into a chaining value. -/
def compress (cv : List UInt32) (block : List UInt32) (counter : Nat) (length : Nat)
    (marks : UInt32) : List UInt32 :=
  let tail :=
    [UInt32.ofNat counter, UInt32.ofNat (counter / UInt32.size), UInt32.ofNat length, marks]
  let out := (rounds 7 (cv ++ start.take 4 ++ tail).toArray block.toArray).toList
  List.zipWith (· ^^^ ·) (out.take 8) (out.drop 8)

-- ===================================================== chunks and tree

/-- Cut `count` words of four bytes from the front; past the end the
bytes are zero. -/
def words : Nat → Bytes → List UInt32
  | 0, _ => []
  | count + 1, bs => UInt32.ofNat (ofLittleEndian (bs.take 4)) :: words count (bs.drop 4)

/-- Fold the last `count` blocks of a chunk; `marks` is added to the very
last of them. -/
def foldBlocks (counter : Nat) (marks : UInt32) :
    Nat → UInt32 → List UInt32 → Bytes → List UInt32
  | 0, _, cv, _ => cv
  | count + 1, first, cv, bs =>
    let block := bs.take 64
    let last := if count = 0 then chunkEnd ||| marks else 0
    foldBlocks counter marks count 0
      (compress cv (words 16 block) counter block.length (first ||| last)) (bs.drop 64)

/-- The chaining value of one chunk. Even an empty chunk has a block. -/
def chunk (counter : Nat) (marks : UInt32) (bs : Bytes) : List UInt32 :=
  foldBlocks counter marks (max 1 ((bs.length + 63) / 64)) chunkStart start bs

/-- The chaining value of two joined subtrees. -/
def parent (marks : UInt32) (left right : List UInt32) : List UInt32 :=
  compress start (left ++ right) 0 64 (parentMark ||| marks)

/-- Join neighbours; a last one without a neighbour goes up as it is. -/
def pairUp : List (List UInt32) → List (List UInt32)
  | left :: right :: rest => parent 0 left right :: pairUp rest
  | rest => rest

/-- Join levels until one pair is left, and mark that as the root;
`fuel` bounds the number of levels. -/
def joinAll : Nat → List (List UInt32) → List UInt32
  | _, [left, right] => parent rootMark left right
  | 0, _ => []
  | fuel + 1, level => joinAll fuel (pairUp level)

/-- The chaining values of `count` chunks, numbered from `counter`. -/
def chunks : Nat → Nat → Bytes → List (List UInt32)
  | 0, _, _ => []
  | count + 1, counter, bs =>
    chunk counter 0 (bs.take 1024) :: chunks count (counter + 1) (bs.drop 1024)

/-- The 32-byte digest. A message of one chunk is its own root and needs no tree. -/
def digest (message : Bytes) : Bytes :=
  let root :=
    if message.length ≤ 1024 then chunk 0 rootMark message
    else
      let count := (message.length + 1023) / 1024
      joinAll count (chunks count 0 message)
  root.flatMap fun w => littleEndian 4 w.toNat

end Quorum.Blake3
