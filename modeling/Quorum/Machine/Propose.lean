/-
Proposals: how a proposer makes one, and which ones the others take up.

The proposer offers the valid block it knows, with the round in which it
became valid, or else a new block of its own. The others check who made
the offer, that the block is what its hash says, and that the round has
room for it. What is wrong first, in the order of the checks here, is
what is reported.
-/
import Quorum.Machine.Work
import Quorum.Validators.Rotation

namespace Quorum

variable [Crypto] (s : Setup) (w : World)

-- ============================================================ making

namespace Work

/-- The block to propose: the valid one with its round, or else a new
one. -/
def blockToPropose (m : Machine) : Except BlockFault (Block × Option Round) :=
  match m.valid with
  | some valid => .ok (valid.block, some valid.round)
  | none =>
    match w.propose s.signer.address s.scope.height with
    | .ok block => .ok (block, none)
    | .error fault => .error fault

/-- The proposer's part: propose a block, or without one wait like the
others. -/
def proposeBlock (k : Work) (round : Round) : Work :=
  match blockToPropose s w k.machine with
  | .ok (block, validRound) =>
    let offer := Offer.ofBlock round w.now s.signer.address validRound s.scope.height block
    (k.emit (.blockProposed round validRound block)).publish
      (.proposal (Signed.make s.signer offer))
  | .error fault => ((k.emit (.faultOccurred (.block fault))).arm s round .propose).1

end Work

-- ========================================================= taking up

namespace Machine

/-- What a hash conflicts with among the majorities of a round. -/
def conflictingMajority? (log : RoundLog) (hash : BlockHash) : Option BlockHash :=
  (log.prevotes.majority.toList ++ log.precommits.majority.toList).find? (· != hash)

/-- What keeps an offer out of its round's one place. -/
def placeRefusal? (log : RoundLog) (offer : Offer) : Option Fault :=
  if log.proposal.isSome then some (.proposalExists offer.round)
  else
    match conflictingMajority? log offer.hash with
    | some majority => some (.proposalConflicts offer.round offer.hash majority)
    | none => none

/-- Whether an offer carries forward a round that is not an earlier
one. -/
def validRoundFault? (offer : Offer) : Option Fault :=
  match offer.validRound with
  | some validRound =>
    if offer.round ≤ validRound then some (.proposal (.validRoundTooHigh validRound offer.round))
    else none
  | none => none

/-- What keeps a proposal out, whatever the state of its round. -/
def proposalFault? (m : Machine) (proposal : Proposal) : Option Fault :=
  let offer := proposal.body
  let expected := s.scope.validators.proposerAddress s.scope.height offer.round
  if offer.height ≠ s.scope.height then
    some (.proposal (.heightMismatch s.scope.height offer.height))
  else if !proposal.verify then some (.proposal (.badSignature offer.proposer))
  else if offer.block.hash ≠ offer.hash then some (.proposal .hashMismatch)
  else if offer.block.height ≠ s.scope.height then
    some (.proposal (.blockHeight offer.block.height s.scope.height))
  else if offer.proposer ≠ expected then
    some (.proposal (.notProposer offer.proposer offer.round expected))
  else if offer.round ≠ m.round then some (.proposal (.roundMismatch m.round offer.round))
  else validRoundFault? offer

/-- What keeps a proposal out. -/
def proposalRefusal? (m : Machine) (proposal : Proposal) : Option Fault :=
  match proposalFault? s m proposal with
  | some fault => some fault
  | none => placeRefusal? (m.log.getOrFresh proposal.body.round) proposal.body

end Machine

namespace Work

/-- Take up a proposal, unless something keeps it out. -/
def addProposal (k : Work) (proposal : Proposal) : Attempt :=
  match k.machine.proposalRefusal? s proposal with
  | some fault => k.fail fault
  | none =>
    (k.updateRound proposal.body.round fun l => { l with proposal := some proposal }).done

end Work

end Quorum
