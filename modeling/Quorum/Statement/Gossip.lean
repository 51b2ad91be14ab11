/-
The two statements by which validators fill each other's gaps: the claim
to have seen a majority, and the list of the votes one holds for it.
-/
import Quorum.Statement.Vote

namespace Quorum

/-- A claim to have seen more than two thirds of the power vote for one
hash. -/
structure Majority where
  height : Height
  round : Round
  hash : BlockHash
  time : Millis
  validator : Address
  kind : VoteKind
deriving DecidableEq

/-- The six fields in order. -/
def Majority.layout : Wire.Layout Majority :=
  (Wire.Layout.u64.pair (Wire.Layout.u32.pair (Wire.Layout.blockHash.pair (Wire.Layout.i64.pair
    (Wire.Layout.address.pair Wire.Layout.voteKind))))).map
    (fun (height, round, hash, time, validator, kind) =>
      ⟨height, round, hash, time, validator, kind⟩)
    (fun m => (m.height, m.round, m.hash, m.time, m.validator, m.kind))

/-- A claim is made by the validator it names. -/
instance : Statement Majority := ⟨Majority.validator, Majority.layout⟩

/-- A majority somebody claims to have seen, signed. -/
abbrev Claim := Signed Majority

/-- Which validators' votes for one hash the sender holds, one flag per
validator in the order of the set. -/
structure Holding where
  height : Height
  round : Round
  hash : BlockHash
  time : Millis
  validator : Address
  kind : VoteKind
  held : List Bool
deriving DecidableEq

/-- The seven fields in order; the flags are counted, a byte each. -/
def Holding.layout : Wire.Layout Holding :=
  (Wire.Layout.u64.pair (Wire.Layout.u32.pair (Wire.Layout.blockHash.pair (Wire.Layout.i64.pair
    (Wire.Layout.address.pair (Wire.Layout.voteKind.pair
      (Wire.Layout.list Wire.Layout.bool))))))).map
    (fun (height, round, hash, time, validator, kind, held) =>
      ⟨height, round, hash, time, validator, kind, held⟩)
    (fun s => (s.height, s.round, s.hash, s.time, s.validator, s.kind, s.held))

/-- A list of held votes is made by the validator it names. -/
instance : Statement Holding := ⟨Holding.validator, Holding.layout⟩

/-- A list of held votes, signed. -/
abbrev Holdings := Signed Holding

end Quorum
