/-
Byte strings, the currency of everything that is hashed, signed or sent.

`Bytes` is a list, so that a layout can be read off by structural
recursion and two layouts compared by append lemmas. `Octets n` is a
string of exactly `n` bytes: keys and digests are such strings, and
carrying the length in the type is what lets a fixed field be cut from
the front of a longer string without a separator.

Numbers enter and leave in either byte order; both directions are
structural on the number of bytes, and a value that does not fit is
reduced modulo the width.
-/
namespace Quorum

-- ====================================================== byte strings

/-- A string of bytes, of whatever length. -/
abbrev Bytes := List UInt8

/-- A string of exactly `n` bytes; the length is part of the type. -/
structure Octets (n : Nat) where
  bytes : Bytes
  length_eq : bytes.length = n
deriving DecidableEq

/-- Cut the first `n` bytes off a string, if it has that many. -/
def Octets.cut? (n : Nat) (bs : Bytes) : Option (Octets n × Bytes) :=
  if h : (bs.take n).length = n then some (⟨bs.take n, h⟩, bs.drop n) else none

/-- A string of exactly the right length, and nothing else. -/
def Octets.ofBytes? (n : Nat) (bs : Bytes) : Option (Octets n) :=
  if h : bs.length = n then some ⟨bs, h⟩ else none

/-- One byte `n` times over; of zeros, the value that stands for none. -/
def Octets.replicate (n : Nat) (b : UInt8) : Octets n :=
  ⟨List.replicate n b, List.length_replicate⟩

/-- Octets are ordered byte by byte from the front, as unsigned numbers. -/
instance {n : Nat} : Ord (Octets n) := ⟨fun a b => compare a.bytes b.bytes⟩

-- ======================================================== byte order

/-- The `width` low bytes of a number, least significant first. -/
def littleEndian : Nat → Nat → Bytes
  | 0, _ => []
  | width + 1, value => UInt8.ofNat (value % 256) :: littleEndian width (value / 256)

/-- The number whose bytes, least significant first, are these. -/
def ofLittleEndian : Bytes → Nat
  | [] => 0
  | b :: bs => b.toNat + 256 * ofLittleEndian bs

/-- The number whose bytes, most significant first, are these. -/
def ofBigEndian (bs : Bytes) : Nat := bs.foldl (fun acc b => acc * 256 + b.toNat) 0

/-- The `width` low bytes of a number, most significant first. -/
def bigEndian (width value : Nat) : Bytes := (littleEndian width value).reverse

/-- How many numbers can be written in `width` bytes. -/
def byteRange : Nat → Nat
  | 0 => 1
  | width + 1 => byteRange width * 256

/-- A word is written in its full width, whatever its value. -/
theorem length_littleEndian (width value : Nat) :
    (littleEndian width value).length = width := by
  induction width generalizing value with
  | zero => rfl
  | succ width ih => simp [littleEndian, ih]

/-- A number that fits its width is read back from its bytes. -/
theorem ofLittleEndian_littleEndian {width value : Nat} (h : value < byteRange width) :
    ofLittleEndian (littleEndian width value) = value := by
  induction width generalizing value with
  | zero =>
    simp only [byteRange] at h
    simp only [littleEndian, ofLittleEndian]
    omega
  | succ width ih =>
    have small : value / 256 < byteRange width := (Nat.div_lt_iff_lt_mul (by decide)).2 h
    have head : (UInt8.ofNat (value % 256)).toNat = value % 256 := by
      simp
    simp only [littleEndian, ofLittleEndian, ih small, head]
    omega

/-- What some bytes spell fits as many bytes. -/
theorem ofLittleEndian_lt (bs : Bytes) : ofLittleEndian bs < byteRange bs.length := by
  induction bs with
  | nil => decide
  | cons b bs ih =>
    have := b.toNat_lt
    simp only [ofLittleEndian, List.length_cons, byteRange]
    omega

/-- Bytes are recovered from the number they spell, given their count. -/
theorem littleEndian_ofLittleEndian (bs : Bytes) :
    littleEndian bs.length (ofLittleEndian bs) = bs := by
  induction bs with
  | nil => rfl
  | cons b bs ih =>
    have hb := b.toNat_lt
    have low : (b.toNat + 256 * ofLittleEndian bs) % 256 = b.toNat := by omega
    have high : (b.toNat + 256 * ofLittleEndian bs) / 256 = ofLittleEndian bs := by omega
    simp only [List.length_cons, littleEndian, ofLittleEndian, low, high, ih]
    simp

end Quorum
