/-
Signed statements.

What a validator signs is the layout of the statement's body, with its
own name inside, so a signed statement can be checked on its own. The
signature is not part of what is signed, and an empty one never passes.
-/
import Quorum.Crypto.Scheme
import Quorum.Wire.Layout

namespace Quorum

/-- A kind of statement: who makes it, and how its body is laid out. -/
class Statement (α : Type) where
  author : α → Address
  layout : Wire.Layout α

/-- The bytes a signature is over: the body's layout with nothing around it. Nothing
in them tells one kind of statement from another. -/
def Statement.signBytes {α : Type} [Statement α] (body : α) : Bytes :=
  (Statement.layout (α := α)).encode body

/-- A statement's body and a signature for it. -/
structure Signed (α : Type) where
  body : α
  signature : Bytes
deriving DecidableEq

namespace Signed

variable {α : Type} [Statement α]

/-- Who the body says made the statement. -/
def author (m : Signed α) : Address := Statement.author m.body

/-- Whether the named author made this signature. -/
def verify [Crypto] (m : Signed α) : Bool :=
  !m.signature.isEmpty && Crypto.verify m.author (Statement.signBytes m.body) m.signature

/-- A statement signed by this signer, whoever its body names. -/
def make (signer : Signer) (body : α) : Signed α :=
  ⟨body, signer.sign (Statement.signBytes body)⟩

/-- The body, then the signature as a counted byte string. -/
def layout : Wire.Layout (Signed α) :=
  ((Statement.layout (α := α)).pair .bytes).map (fun p => ⟨p.1, p.2⟩)
    (fun m => (m.body, m.signature))

end Signed

end Quorum
