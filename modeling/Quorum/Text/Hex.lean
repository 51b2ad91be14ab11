/-
Hexadecimal text: two lowercase digits a byte, and back.
-/
import Quorum.Bytes

namespace Quorum.Hex

/-- The digit for a number below sixteen. -/
def digit (n : Nat) : Char := "0123456789abcdef".toList.getD n '0'

/-- The number a digit stands for, in either case. -/
def value? (c : Char) : Option Nat :=
  if c.isDigit then some (c.toNat - '0'.toNat)
  else if 'a' ≤ c ∧ c ≤ 'f' then some (c.toNat - 'a'.toNat + 10)
  else if 'A' ≤ c ∧ c ≤ 'F' then some (c.toNat - 'A'.toNat + 10)
  else none

/-- Two digits a byte, the high one first. -/
def encode (bs : Bytes) : String :=
  String.ofList (bs.flatMap fun b => [digit (b.toNat / 16), digit (b.toNat % 16)])

/-- The bytes that pairs of digits stand for. -/
def bytes? : List Char → Option Bytes
  | [] => some []
  | high :: low :: rest =>
    match value? high, value? low, bytes? rest with
    | some high, some low, some bs => some (UInt8.ofNat (high * 16 + low) :: bs)
    | _, _, _ => none
  | [_] => none

/-- The byte string of a text. -/
def decode? (text : String) : Option Bytes := bytes? text.toList

end Quorum.Hex
