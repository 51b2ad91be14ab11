/-
Base-58 text for keys and digests: the number spelt by the bytes, most
significant first, written with fifty-eight letters that are hard to
confuse. A number forgets its leading zero bytes, so each of them is
written as the letter for zero in front of the rest.
-/
import Quorum.Bytes

namespace Quorum.Base58

/-- The fifty-eight letters, in order of the digit they stand for. -/
def alphabet : List Char :=
  "123456789ABCDEFGHJKLMNPQRSTUVWXYZabcdefghijkmnopqrstuvwxyz".toList

/-- The letter for a digit below fifty-eight. -/
def letter (digit : Nat) : Char := alphabet.getD digit '1'

/-- The letters of a number in front of `tail`, with no leading zero;
`fuel` bounds the number of digits. -/
def digits : Nat → Nat → List Char → List Char
  | 0, _, tail => tail
  | fuel + 1, value, tail =>
    if value = 0 then tail else digits fuel (value / 58) (letter (value % 58) :: tail)

/-- The text of a byte string. Two letters a byte are always enough. -/
def encode (bs : Bytes) : String :=
  let zeros := bs.takeWhile (· == 0)
  String.ofList (zeros.map (fun _ => letter 0) ++ digits (2 * bs.length) (ofBigEndian bs) [])

end Quorum.Base58
