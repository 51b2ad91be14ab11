/-
Signatures on the twisted Edwards curve -x² + y² = 1 + d·x²·y² over the
field of 2^255 - 19 elements.

Points are kept in extended coordinates (x = X/Z, y = Y/Z, T = X·Y/Z),
where one formula adds any two of them. Signing is deterministic: the
nonce is a digest of the secret and the message. Verification recomputes
the nonce point from the signature's scalar and the challenge, and
compares its encoding byte by byte with the one in the signature. So it
uses no cofactor, accepts a key whose y is not reduced, and never accepts
a nonce point that is not written in its one canonical form.
-/
import Quorum.Crypto.Sha512

namespace Quorum.Ed25519

-- ======================================================= field and curve

/-- The weight of the highest of 256 bits. -/
def topBit : Nat := Nat.pow 2 255

/-- The size of the field. -/
def prime : Nat := topBit - 19

/-- The order of the base point: scalars count modulo this number. -/
def order : Nat := Nat.pow 2 252 + 27742317777372353535851937790883648493

/-- The curve constant d = -121665/121666. -/
def curveD : Nat :=
  37095705934669439343138083508754565189542113879843219016388785533085940283555

/-- A square root of -1. -/
def sqrtMinusOne : Nat :=
  19681161376707505956807079304988542015446066515923890162744021073123829784752

/-- Multiply `acc` by `base ^ exponent` modulo the prime; `fuel` bounds
the exponent's bits. -/
def powLoop : Nat → Nat → Nat → Nat → Nat
  | 0, _, _, acc => acc
  | fuel + 1, base, exponent, acc =>
    powLoop fuel (base * base % prime) (exponent / 2)
      (if exponent % 2 = 1 then acc * base % prime else acc)

/-- A power in the field, for an exponent of at most 256 bits. -/
def pow (base exponent : Nat) : Nat := powLoop 256 base exponent 1

/-- A point in extended coordinates. -/
structure Point where
  x : Nat
  y : Nat
  z : Nat
  t : Nat

/-- The neutral point, with x = 0 and y = 1. -/
def Point.zero : Point := ⟨0, 1, 1, 0⟩

/-- The sum of any two points. -/
def Point.add (p q : Point) : Point :=
  let a := (p.y + prime - p.x) * (q.y + prime - q.x) % prime
  let b := (p.y + p.x) * (q.y + q.x) % prime
  let c := 2 * curveD * p.t % prime * q.t % prime
  let d := 2 * p.z * q.z % prime
  let e := b + prime - a
  let f := d + prime - c
  let g := d + c
  let h := b + a
  ⟨e * f % prime, g * h % prime, f * g % prime, e * h % prime⟩

/-- A point added to itself, with two multiplications fewer. -/
def Point.double (p : Point) : Point :=
  let a := p.x * p.x % prime
  let b := p.y * p.y % prime
  let c := 2 * p.z * p.z % prime
  let h := a + b
  let s := p.x + p.y
  let e := h + prime - s * s % prime
  let g := a + prime - b
  let f := c + g
  ⟨e * f % prime, g * h % prime, f * g % prime, e * h % prime⟩

/-- The other point with the same y. -/
def Point.neg (p : Point) : Point := ⟨(prime - p.x) % prime, p.y, p.z, (prime - p.t) % prime⟩

/-- The base point, whose y is 4/5. -/
def base : Point :=
  let x := 15112221349535400772501151409588531511454012693041857206046113283949847762202
  let y := 46316835694926478169428394003475163141307993866256225615783033603165251855960
  ⟨x, y, 1, x * y % prime⟩

/-- The combination m·p + n·q over the `bits` low bits of the scalars,
from the highest: both are walked together, and `both` is p + q. -/
def combineLoop (m n : Nat) (p q both : Point) : Nat → Point → Point
  | 0, acc => acc
  | bits + 1, acc =>
    let acc := acc.double
    let acc := match m.testBit bits, n.testBit bits with
      | false, false => acc
      | true, false => acc.add p
      | false, true => acc.add q
      | true, true => acc.add both
    combineLoop m n p q both bits acc

/-- The combination m·p + n·q, for scalars of at most 256 bits. -/
def combine (m : Nat) (p : Point) (n : Nat) (q : Point) : Point :=
  combineLoop m n p q (p.add q) 256 Point.zero

/-- The doublings of the base point, least first. -/
def baseDoublings : List Point :=
  (List.range 256).foldl (fun (acc, p) _ => (acc.push p, p.double)) ((#[] : Array Point), base)
    |>.1.toList

/-- A multiple of the base point: the sum of the doublings at the
scalar's one bits. -/
def timesBase (scalar : Nat) : Point :=
  (baseDoublings.foldl (fun (acc, s) p => (if s % 2 = 1 then acc.add p else acc, s / 2))
    (Point.zero, scalar)).1

-- =========================================================== encoding

/-- A point is written as its y in 255 bits, and the lowest bit of its x
above them. -/
def Point.compress (p : Point) : Bytes :=
  let inverse := pow p.z (prime - 2)
  let x := p.x * inverse % prime
  let y := p.y * inverse % prime
  littleEndian 32 (y + x % 2 * topBit)

/-- The point that 32 bytes stand for, if there is one. A y beyond the
prime is reduced, and a sign bit on x = 0 is let pass. -/
def decompress? (bs : Bytes) : Option Point :=
  let value := ofLittleEndian bs
  let y := value % topBit % prime
  let sign := value / topBit
  let u := (y * y + prime - 1) % prime
  let v := (curveD * (y * y % prime) + 1) % prime
  let v3 := v * v % prime * v % prime
  let v7 := v3 * v3 % prime * v % prime
  let root := u * v3 % prime * pow (u * v7 % prime) ((prime - 5) / 8) % prime
  let check := v * (root * root % prime) % prime
  let found :=
    if check = u then some root
    else if check = (prime - u) % prime then some (root * sqrtMinusOne % prime)
    else none
  found.map fun x =>
    let x := if x % 2 = sign then x else (prime - x) % prime
    ⟨x, y, 1, x * y % prime⟩

-- ============================================================ signing

/-- A secret spread into the scalar it multiplies by, the salt of its
nonces, and the public key. -/
structure Secret where
  scalar : Nat
  salt : Bytes
  key : Bytes

/-- The secret that a 32-byte seed stands for: the low half of the
seed's digest with its ends clamped is the scalar, the high half the
salt. -/
def Secret.ofSeed (seed : Bytes) : Secret :=
  let spread := Sha512.digest seed
  let low := ofLittleEndian (spread.take 32)
  let scalar := low % (topBit / 2) / 8 * 8 + topBit / 2
  ⟨scalar, spread.drop 32, (timesBase scalar).compress⟩

/-- The challenge that binds a nonce point, a key and a message. -/
def challenge (nonce key message : Bytes) : Nat :=
  ofLittleEndian (Sha512.digest (nonce ++ key ++ message)) % order

/-- The nonce point and the scalar that answers the challenge, 32 bytes each. -/
def Secret.sign (s : Secret) (message : Bytes) : Bytes :=
  let r := ofLittleEndian (Sha512.digest (s.salt ++ message)) % order
  let nonce := (timesBase r).compress
  let k := challenge nonce s.key message
  nonce ++ littleEndian 32 ((r + k * s.scalar) % order)

/-- Whether 64 bytes are a signature of the message under the key. -/
def verify (key message signature : Bytes) : Bool :=
  if signature.length = 64 then
    let nonce := signature.take 32
    let s := ofLittleEndian (signature.drop 32)
    if s < order then
      match decompress? key with
      | some a => (combine s base (challenge nonce key message) a.neg).compress == nonce
      | none => false
    else false
  else false

end Quorum.Ed25519
