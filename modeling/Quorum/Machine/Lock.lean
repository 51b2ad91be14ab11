/-
The rules around prevotes and the lock.

A validator prevotes for a proposal that its lock allows, locks a block
that has a majority of prevotes, and from then on prevotes for another
only if that one had its majority in the lock's round or later. When the
majority is for nothing, or for another block than the one proposed, the
rules make room for it. Each rule says whether it changed anything.
-/
import Quorum.Machine.Round

namespace Quorum.Work

variable [Crypto] (s : Setup) (w : World)

/-- Whether the lock allows a prevote for a hash. A proposal that had its
majority in `validRound` overrides a lock from up to that round. -/
def lockAllows (locked : Option Pinned) (validRound : Option Round) (hash : BlockHash) : Bool :=
  match locked, validRound with
  | none, _ => true
  | some lock, none => lock.hash == hash
  | some lock, some validRound => decide (lock.round ≤ validRound) || lock.hash == hash

/-- Prevote for a proposal that is valid and that the lock allows, and
for nothing otherwise. -/
def prevoteOn (k : Work) (offer : Offer) : Work × Bool :=
  let judged := k.judge s w offer.hash offer.block
  let acceptable := judged.2 && lockAllows k.machine.locked offer.validRound offer.hash
  judged.1.enterPrevote s w k.machine.round (if acceptable then offer.hash else .nil)

/-- Whether a proposal can be prevoted on: at once if it is new, and once
its earlier majority is seen if it claims one. -/
def isRipe (m : Machine) (offer : Offer) : Bool :=
  match offer.validRound with
  | none => true
  | some validRound =>
    decide (validRound < m.round) && m.prevoteMajority? validRound == some offer.hash

/-- In the step of proposing, prevote as soon as there is a proposal that can be
prevoted on. -/
def prevoteRule (k : Work) : Work × Bool :=
  if k.machine.step = .propose then
    match k.machine.proposal? with
    | none => (k, false)
    | some proposal =>
      if isRipe k.machine proposal.body then k.prevoteOn s w proposal.body else (k, false)
  else (k, false)

/-- Lock a block in this round, and precommit it soon. -/
def lock (k : Work) (pinned : Pinned) : Work :=
  ((k.update fun m => { m with locked := some pinned }).arm s pinned.round
    (.precommitWait pinned.hash)).1.emit (.quorumReached pinned.round pinned.hash .prevote)

/-- Act on the majority of prevotes for a block: remember it as valid,
and lock it if there was no precommit yet. -/
def actOnQuorum (k : Work) (pinned : Pinned) : Work :=
  let k := k.updateRound pinned.round fun l => { l with quorumSeen := true }
  let k := if k.machine.step = .prevote then k.lock s pinned else k
  k.update fun m => { m with valid := some pinned }

/-- Act, once a round, on a majority of prevotes for the valid block
proposed. -/
def lockRule (k : Work) : Work × Bool :=
  if k.machine.step = .prevote ∨ k.machine.step = .precommit then
    match k.machine.proposal? with
    | none => (k, false)
    | some proposal =>
      let round := k.machine.round
      let hash := proposal.body.hash
      let seen := (k.machine.log.getOrFresh round).quorumSeen
      if !seen ∧ k.machine.prevoteMajority? round = some hash then
        let judged := k.judge s w hash proposal.body.block
        if judged.2 then (judged.1.actOnQuorum s ⟨round, hash, proposal.body.block⟩, true)
        else (judged.1, false)
      else (k, false)
  else (k, false)

/-- On a majority of prevotes for nothing, precommit nothing soon; on one
for another block than the one proposed, drop the proposal. -/
def otherMajorityRule (k : Work) : Work × Bool :=
  if k.machine.step = .prevote then
    match k.machine.prevoteMajority? k.machine.round with
    | none => (k, false)
    | some majority =>
      if majority.isNil then k.arm s k.machine.round (.precommitWait .nil)
      else
        match k.machine.proposal? with
        | none => (k, false)
        | some proposal =>
          if proposal.body.hash = majority then (k, false)
          else
            ((k.updateRound k.machine.round RoundLog.discard).emit
              (.proposalReclaimed k.machine.round majority), true)
  else (k, false)

end Quorum.Work
