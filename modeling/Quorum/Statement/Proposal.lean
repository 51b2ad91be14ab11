/-
Proposals: a block offered for a round by the validator whose turn it is.
-/
import Quorum.Chain.Block

namespace Quorum

/-- What a proposal says: this block is proposed for this round. A block
that already had a majority of prevotes is offered again with the round
it had it in. -/
structure Offer where
  height : Height
  round : Round
  hash : BlockHash
  time : Millis
  proposer : Address
  validRound : Option Round
  block : Block
deriving DecidableEq

/-- The seven fields in order; the block is inside, not only its hash. -/
def Offer.layout : Wire.Layout Offer :=
  (Wire.Layout.u64.pair (Wire.Layout.u32.pair (Wire.Layout.blockHash.pair (Wire.Layout.i64.pair
    (Wire.Layout.address.pair ((Wire.Layout.option Wire.Layout.u32).pair Block.layout)))))).map
    (fun (height, round, hash, time, proposer, validRound, block) =>
      ⟨height, round, hash, time, proposer, validRound, block⟩)
    (fun o => (o.height, o.round, o.hash, o.time, o.proposer, o.validRound, o.block))

/-- An offer is made by the proposer it names. -/
instance : Statement Offer := ⟨Offer.proposer, Offer.layout⟩

/-- An offer, signed. -/
abbrev Proposal := Signed Offer

/-- An offer of a block under its own hash. -/
def Offer.ofBlock [Crypto] (round : Round) (time : Millis) (proposer : Address)
    (validRound : Option Round) (height : Height) (block : Block) : Offer :=
  ⟨height, round, block.hash, time, proposer, validRound, block⟩

end Quorum
