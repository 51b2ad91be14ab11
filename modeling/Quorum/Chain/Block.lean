/-
Blocks and the certificates that prove them decided.

A block carries the certificate of its parent, so a chain of blocks
proves all of itself but its last block. A block's hash is the digest of
its whole layout, the certificate included.
-/
import Quorum.Statement.Vote

namespace Quorum

/-- The precommits that decided a block, one place per validator in the
order of the validator set. The places of validators that did not
precommit the block hold null votes. -/
structure Certificate where
  height : Height
  round : Round
  hash : BlockHash
  votes : List Vote
deriving DecidableEq

/-- The four fields in order; the places are counted. -/
def Certificate.layout : Wire.Layout Certificate :=
  (Wire.Layout.u64.pair (Wire.Layout.u32.pair (Wire.Layout.blockHash.pair
    (Wire.Layout.list Signed.layout)))).map
    (fun (height, round, hash, votes) => ⟨height, round, hash, votes⟩)
    (fun c => (c.height, c.round, c.hash, c.votes))

/-- What is decided at a height: transactions, who proposed them and when, and what
they stand on. -/
structure Block where
  height : Height
  /-- The parent's hash; the first block has no parent. -/
  parent : Option BlockHash
  proposer : Address
  time : Millis
  transactions : List Bytes
  /-- The parent's certificate. -/
  lastCommit : Option Certificate
deriving DecidableEq

/-- The six fields in order. The parent's certificate is among them, so it is hashed
too. -/
def Block.layout : Wire.Layout Block :=
  (Wire.Layout.u64.pair ((Wire.Layout.option Wire.Layout.blockHash).pair (Wire.Layout.address.pair
    (Wire.Layout.i64.pair ((Wire.Layout.list Wire.Layout.bytes).pair
      (Wire.Layout.option Certificate.layout)))))).map
    (fun (height, parent, proposer, time, transactions, lastCommit) =>
      ⟨height, parent, proposer, time, transactions, lastCommit⟩)
    (fun b => (b.height, b.parent, b.proposer, b.time, b.transactions, b.lastCommit))

/-- The block's name: the digest of all of its layout. -/
def Block.hash [Crypto] (b : Block) : BlockHash := Crypto.digest (Block.layout.encode b)

end Quorum
