/-
Votes: the statements that agreement is counted from.
-/
import Quorum.Statement.Signed

namespace Quorum

/-- What a vote says: this validator, with this power, votes for this
block (or none) in this round. -/
structure Ballot where
  height : Height
  round : Round
  hash : BlockHash
  time : Millis
  validator : Address
  power : Power
  kind : VoteKind
deriving DecidableEq

/-- The seven fields in order. -/
def Ballot.layout : Wire.Layout Ballot :=
  (Wire.Layout.u64.pair (Wire.Layout.u32.pair (Wire.Layout.blockHash.pair (Wire.Layout.i64.pair
    (Wire.Layout.address.pair (Wire.Layout.u64.pair Wire.Layout.voteKind)))))).map
    (fun (height, round, hash, time, validator, power, kind) =>
      ⟨height, round, hash, time, validator, power, kind⟩)
    (fun b => (b.height, b.round, b.hash, b.time, b.validator, b.power, b.kind))

/-- A ballot is cast by the validator it names. -/
instance : Statement Ballot := ⟨Ballot.validator, Ballot.layout⟩

/-- A ballot, signed. -/
abbrev Vote := Signed Ballot

/-- The unsigned vote that fills an absent validator's place. -/
def Ballot.absent (height : Height) (round : Round) (hash : BlockHash) (validator : Address)
    (power : Power) : Vote :=
  ⟨⟨height, round, hash, 0, validator, power, .null⟩, []⟩

end Quorum
