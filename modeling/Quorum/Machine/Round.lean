/-
How a round begins, and its two votes.

A step is entered only from an earlier one of the same round, so whatever
asks for a vote whose time is over asks in vain, and nobody votes twice.
-/
import Quorum.Machine.Propose

namespace Quorum.Work

variable [Crypto] (s : Setup) (w : World)

-- ========================================================= beginning

/-- Begin a round that the log has already moved to: propose, or wait for
the proposer. -/
def openRound (k : Work) (round : Round) : Work :=
  let k := (k.emit (.roundStarted s.scope.height round)).setStep s .propose
  if s.scope.validators.proposerAddress s.scope.height round = s.signer.address then
    k.proposeBlock s w round
  else (k.arm s round .propose).1

/-- Move to a round and begin it. -/
def startRound (k : Work) (round : Round) : Attempt :=
  match k.machine.log.setRound round with
  | .error fault => k.fail fault
  | .ok log => ((k.update fun m => { m with log := log, round := round }).openRound s w round).done

/-- Follow more than a third of the power into a later round. -/
def followRule (k : Work) (messageRound : Round) : Attempt :=
  if k.machine.round < messageRound ∧ k.machine.prevotesSomeThird s messageRound then
    k.startRound s w messageRound
  else k.done

-- ============================================================= votes

/-- Prevote, if this round is still before that; whether it was. -/
def enterPrevote (k : Work) (round : Round) (hash : BlockHash) : Work × Bool :=
  if k.machine.round ≠ round ∨ k.machine.step = .idle ∨ Step.prevote ≤ k.machine.step then
    (k, false)
  else
    (((k.setStep s .prevote).emit (.prevoteEntered round hash)).castVote s w round hash .prevote,
      true)

/-- Precommit, if this round is still before that; whether it was. -/
def enterPrecommit (k : Work) (round : Round) (hash : BlockHash) : Work × Bool :=
  if k.machine.round ≠ round ∨ k.machine.step = .idle ∨ Step.precommit ≤ k.machine.step then
    (k, false)
  else
    (((k.setStep s .precommit).emit (.precommitEntered round hash)).castVote s w round hash
      .precommit, true)

end Quorum.Work
