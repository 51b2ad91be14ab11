/-
Runs plain enough to compute with.

The scheme: a signature spells out its author and what was signed, and a
digest tells no more than a length. Whoever wants to can forge such
signatures, but one that was honestly made is good for its author and its
message only, and no digest is the one that stands for nothing. So a run
of this scheme is a run of honest signers, as long as nobody in it forges.

The committee: four validators of power one, every one of them content
with any block.
-/
import Quorum.Proofs.Machine.Life

namespace Quorum

-- ========================================================== the scheme

/-- Signatures are the author's name and the message; digests count bytes. -/
@[reducible] def Crypto.plain : Crypto where
  verify address message signature := signature == address.bytes ++ message
  digest message :=
    ⟨Octets.replicate 32 (UInt8.ofNat (message.length % 255 + 1))⟩

/-- Who signs by this scheme under an address. -/
def Signer.plain (address : Address) : Signer :=
  ⟨address, fun message => address.bytes ++ message⟩

namespace Plain

scoped instance : Crypto := Crypto.plain

end Plain

open scoped Plain

/-- A signature is good for the message it was made for and for no other. -/
theorem Plain.eq_of_verify {signer named : Address} {message message' : Bytes}
    (good : Crypto.verify named message' ((Signer.plain signer).sign message)
      = true) :
    named = signer ∧ message' = message := by
  have spelled : signer.bytes ++ message = named.bytes ++ message' :=
    eq_of_beq good
  have widths : signer.bytes.length = named.bytes.length :=
    signer.octets.length_eq.trans named.octets.length_eq.symm
  obtain ⟨names, messages⟩ := List.append_inj spelled widths
  refine ⟨?_, messages.symm⟩
  cases signer with
  | mk octets =>
    cases octets
    cases named with
    | mk octets =>
      cases octets
      cases names
      rfl

/-- No digest stands for nothing. -/
theorem Plain.digest_ne_nil (message : Bytes) :
    Crypto.digest message ≠ BlockHash.nil := by
  intro same
  have first : UInt8.ofNat (message.length % 255 + 1) = 0 :=
    congrArg (fun hash : BlockHash => hash.bytes.headD 0) same
  have value : (message.length % 255 + 1) % 256 = 0 :=
    (UInt8.toNat_ofNat').symm.trans (congrArg UInt8.toNat first)
  omega

-- ======================================================= the committee

namespace Plain

/-- The address of 32 equal bytes. -/
def address (byte : UInt8) : Address := ⟨Octets.replicate 32 byte⟩

/-- Four validators of power one, with addresses in order. -/
def members : List Validator := [1, 2, 3, 4].map fun byte => ⟨address byte, 1⟩

/-- The set of them; three are more than two thirds. -/
def committee : ValidatorSet := ⟨members, 4⟩

/-- It is what is built from the list. -/
theorem ofList?_members : ValidatorSet.ofList? members = .ok committee := rfl

/-- One of them at height 1. -/
def setup (address : Address) : Setup :=
  ⟨⟨1, committee⟩, Signer.plain address, {}⟩

/-- A block with so many empty transactions. -/
def block (count : Nat) : Block :=
  ⟨1, none, address 1, 0, List.replicate count [], none⟩

/-- A world in which every block is fine, and the empty one is proposed. -/
def world : World := ⟨0, fun _ => .ok (), fun _ _ => .ok (block 0)⟩

/-- A vote, well signed, of one of them. -/
def cast (byte : UInt8) (round : Round) (hash : BlockHash) (kind : VoteKind) :
    Vote :=
  Signed.make (Signer.plain (address byte))
    ⟨1, round, hash, 0, address byte, 1, kind⟩

/-- The turn at which it is given. -/
def vote (byte : UInt8) (round : Round) (hash : BlockHash) (kind : VoteKind) :
    World × Input :=
  (world, .message (.vote (cast byte round hash kind)))

/-- The turn at which one of them offers a block. -/
def offer (byte : UInt8) (round : Round) (validRound : Option Round)
    (block : Block) : World × Input :=
  (world, .message (.proposal (Signed.make (Signer.plain (address byte))
    (Offer.ofBlock round 0 (address byte) validRound 1 block))))

/-- Votes of several of them for the empty block. -/
def votes (bytes : List UInt8) (round : Round) (kind : VoteKind) :
    List (World × Input) :=
  bytes.map fun byte => vote byte round (block 0).hash kind

/-- The turn at which a timer of height 1 fires. -/
def timer (round : Round) (kind : TimerKind) : World × Input :=
  (world, .timer ⟨1, round, kind⟩)

/-- A certificate of the empty block, with some places of a round empty. -/
def certificate (round : Round) (present : List UInt8) : Certificate where
  height := 1
  round := round
  hash := (block 0).hash
  votes := [1, 2, 3, 4].map fun byte =>
    if byte ∈ present then cast byte round (block 0).hash .precommit
    else Ballot.absent 1 round (block 0).hash (address byte) 1

end Plain

end Quorum
