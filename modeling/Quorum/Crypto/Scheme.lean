/-
The cryptography agreement rests on, as a class: a check of signatures
and a digest of byte strings.

Everything above is written for any scheme, because nothing in the
protocol depends on how a signature is made, only on who can have made
it. The scheme the program runs with is `Crypto.standard`: curve
signatures and tree-hash digests.
-/
import Quorum.Basic
import Quorum.Crypto.Ed25519
import Quorum.Crypto.Blake3

namespace Quorum

/-- Who signed what, and the name of a byte string. -/
class Crypto where
  /-- Whether these bytes are the address's signature of the message. -/
  verify : Address → Bytes → Bytes → Bool
  /-- The digest of a byte string. -/
  digest : Bytes → BlockHash

/-- Someone who can sign. Nothing ties the signatures to the address
except the scheme's check. -/
structure Signer where
  address : Address
  sign : Bytes → Bytes

/-- Cut or fill up to 32 bytes; digests and keys have that many anyway. -/
def octets32 (bs : Bytes) : Octets 32 :=
  (Octets.ofBytes? 32 bs).getD (Octets.replicate 32 0)

/-- The scheme the program runs with. -/
@[reducible] def Crypto.standard : Crypto where
  verify address message signature := Ed25519.verify address.bytes message signature
  digest message := ⟨octets32 (Blake3.digest message)⟩

/-- The signer that a 32-byte seed stands for. -/
def Signer.ofSeed (seed : Bytes) : Signer :=
  let secret := Ed25519.Secret.ofSeed seed
  ⟨⟨octets32 secret.key⟩, secret.sign⟩

/-- A signer shows only its address. -/
def Signer.short (s : Signer) : String := "PrivateKey(" ++ s.address.short ++ ")"

end Quorum
