/-
How a block is decided, and how a round or the whole height ends.

A majority of precommits decides the block proposed in the current round.
The end of a round is the one place where a machine can fail on its own:
the decided block is validated once more, and without a decision the next
round begins.
-/
import Quorum.Machine.Round

namespace Quorum.Work

variable [Crypto] (s : Setup) (w : World)

-- ========================================================== deciding

/-- Decide a block in this round, and end the height soon. -/
def decideOn (k : Work) (pinned : Pinned) : Work :=
  (((k.update fun m => { m with decision := some pinned }).emit
    (.quorumReached pinned.round pinned.hash .precommit)).arm s pinned.round .endCommitWait).1

/-- Decide the valid block proposed if it has the majority of precommits;
whether it was decided. -/
def decideRule (k : Work) : Work × Bool :=
  match k.machine.proposal? with
  | none => (k, false)
  | some proposal =>
    let round := k.machine.round
    let hash := proposal.body.hash
    if k.machine.precommitMajority? round = some hash then
      let judged := k.judge s w hash proposal.body.block
      if judged.2 then (judged.1.decideOn s ⟨round, hash, proposal.body.block⟩, true)
      else (judged.1, false)
    else (k, false)

/-- Decide, or else catch up with the round that a message was of. Before
the start and after a decision there is neither. -/
def advance (k : Work) (messageRound : Round) : Attempt :=
  if k.machine.step = .idle ∨ k.machine.decision.isSome then k.done
  else
    let after := k.decideRule s w
    if after.2 then after.1.done else after.1.followRule s w messageRound

-- ============================================================ ending

/-- Hand over a decided block with its certificate. -/
def complete (k : Work) (decision : Pinned) : Attempt :=
  match w.validate decision.block with
  | .error fault => k.fail (.block fault)
  | .ok () =>
    match k.machine.certificateOf? s decision.round with
    | none => k.fail (.chain (.noCertificate decision.hash decision.round))
    | some certificate => (k.emit (.completed decision.block certificate)).done

/-- End the round, if it has begun and not ended: complete the height if
a block was decided, and begin the next round if not. -/
def enterEndCommit (k : Work) (round : Round) : Attempt :=
  if k.machine.round ≠ round ∨ k.machine.step = .idle ∨ k.machine.step = .endCommit then
    k.done
  else
    match k.machine.decision with
    | none => (k.setStep s .endCommit).startRound s w (round + 1)
    | some decision => (k.setStep s .endCommit).complete s w decision

end Quorum.Work
