/-
Binary layouts, and readers that accept exactly what writers produce.

A `Layout` pairs a writer with a reader that consumes a value from the
front of a byte string and hands back the rest. Layouts are put together
from a few parts — fixed words, raw octets, options, counted lists, pairs
— and carried along bijections to the domain's own types, so a claim
about all layouts only has to be proved of the parts.

Words are little-endian. An option is a byte 0 or 1 and then the value; a
list is a four-byte count and then the items; a pair is its first
component and then its second. Reading goes front to back and stops at
the first thing that is wrong.
-/
import Quorum.Basic

namespace Quorum.Wire

-- ================================================ what can be wrong

/-- Why a byte string is not the layout of a value. -/
inductive Malformed where
  | endOfInput
  | leftover
  | unknownTag (tag : UInt8)
  | notBool (byte : UInt8)
  | notOption (byte : UInt8)
deriving DecidableEq

/-- The wording of each cause. -/
def Malformed.message : Malformed → String
  | .endOfInput => "Unexpected length of input"
  | .leftover => "Not all bytes read"
  | .unknownTag tag => "Unexpected variant tag: " ++ toString tag.toNat
  | .notBool byte => "Invalid bool representation: " ++ toString byte.toNat
  | .notOption byte =>
    "Invalid Option representation: " ++ toString byte.toNat
      ++ ". The first byte must be 0 or 1"

/-- A value from the front of a byte string, and the bytes behind it. -/
abbrev Reader (α : Type) := Bytes → Except Malformed (α × Bytes)

/-- Read one thing and make another of it. -/
def Reader.map {α β : Type} (make : α → β) (read : Reader α) : Reader β := fun bs =>
  match read bs with
  | .error e => .error e
  | .ok (a, rest) => .ok (make a, rest)

/-- A writer and the reader that takes its output back. -/
structure Layout (α : Type) where
  write : α → Bytes
  read : Reader α

-- ============================================================ running

/-- All of a value's bytes. -/
def Layout.encode {α : Type} (f : Layout α) (a : α) : Bytes := f.write a

/-- The value of a whole byte string, with nothing left over. -/
def Layout.decode {α : Type} (f : Layout α) (bs : Bytes) : Except Malformed α :=
  match f.read bs with
  | .error e => .error e
  | .ok (a, []) => .ok a
  | .ok (_, _ :: _) => .error .leftover

-- ============================================================== parts

namespace Layout

/-- Carry a layout along a bijection. -/
def map {α β : Type} (f : Layout α) (make : α → β) (back : β → α) : Layout β where
  write b := f.write (back b)
  read := Reader.map make f.read

/-- One value and then another. -/
def pair {α β : Type} (f : Layout α) (g : Layout β) : Layout (α × β) where
  write ab := f.write ab.1 ++ g.write ab.2
  read bs :=
    match f.read bs with
    | .error e => .error e
    | .ok (a, rest) =>
      match g.read rest with
      | .error e => .error e
      | .ok (b, rest) => .ok ((a, b), rest)

/-- A fixed number of raw bytes. -/
def octets (n : Nat) : Layout (Octets n) where
  write o := o.bytes
  read bs :=
    match Octets.cut? n bs with
    | none => .error .endOfInput
    | some cut => .ok cut

/-- One byte as it is. -/
def u8 : Layout UInt8 where
  write b := [b]
  read
    | [] => .error .endOfInput
    | b :: rest => .ok (b, rest)

/-- Four bytes as a word. -/
def u32 : Layout UInt32 :=
  (octets 4).map (fun o => UInt32.ofNat (ofLittleEndian o.bytes))
    (fun w => ⟨littleEndian 4 w.toNat, length_littleEndian 4 w.toNat⟩)

/-- Eight bytes as a word. -/
def u64 : Layout UInt64 :=
  (octets 8).map (fun o => UInt64.ofNat (ofLittleEndian o.bytes))
    (fun w => ⟨littleEndian 8 w.toNat, length_littleEndian 8 w.toNat⟩)

/-- Eight bytes as a signed word, in two's complement. -/
def i64 : Layout Int64 := u64.map UInt64.toInt64 Int64.toUInt64

/-- A byte that is 0 or 1. -/
def bool : Layout Bool where
  write b := [if b then 1 else 0]
  read
    | [] => .error .endOfInput
    | b :: rest =>
      if b = 0 then .ok (false, rest) else if b = 1 then .ok (true, rest) else .error (.notBool b)

/-- A byte that is 0 for nothing, or 1 and then a value. -/
def option {α : Type} (f : Layout α) : Layout (Option α) where
  write
    | none => [0]
    | some a => 1 :: f.write a
  read
    | [] => .error .endOfInput
    | b :: rest =>
      if b = 0 then .ok (none, rest)
      else if b = 1 then
        match f.read rest with
        | .error e => .error e
        | .ok (a, rest) => .ok (some a, rest)
      else .error (.notOption b)

/-- Read `count` values one behind the other. -/
def readMany {α : Type} (read : Reader α) : Nat → Reader (List α)
  | 0, bs => .ok ([], bs)
  | count + 1, bs =>
    match read bs with
    | .error e => .error e
    | .ok (a, rest) =>
      match readMany read count rest with
      | .error e => .error e
      | .ok (as, rest) => .ok (a :: as, rest)

/-- A four-byte count and then that many values. -/
def list {α : Type} (f : Layout α) : Layout (List α) where
  write as := u32.write (UInt32.ofNat as.length) ++ as.flatMap f.write
  read bs :=
    match u32.read bs with
    | .error e => .error e
    | .ok (count, rest) => readMany f.read count.toNat rest

/-- A counted byte string. -/
def bytes : Layout Bytes := list u8

-- ====================================================== domain names

/-- The 32 bytes of a key, with no count before them. -/
def address : Layout Address := (octets 32).map Address.mk Address.octets

/-- The 32 bytes of a digest, with no count before them. -/
def blockHash : Layout BlockHash := (octets 32).map BlockHash.mk BlockHash.octets

/-- One byte: 0 for null, 1 for a prevote, 2 for a precommit. -/
def voteKind : Layout VoteKind where
  write
    | .null => [0]
    | .prevote => [1]
    | .precommit => [2]
  read
    | [] => .error .endOfInput
    | b :: rest =>
      if b = 0 then .ok (.null, rest)
      else if b = 1 then .ok (.prevote, rest)
      else if b = 2 then .ok (.precommit, rest)
      else .error (.unknownTag b)

end Layout

end Quorum.Wire
