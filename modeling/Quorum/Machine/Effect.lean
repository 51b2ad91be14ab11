/-
What a machine wants done in the world: send a message it has just
signed, pass on a vote it holds, tell watchers of an event, wait for a
timer.

A message just signed and a vote passed on travel the same way. They are
kept apart because only the first binds the one who sends it: whatever a
machine ever signed is what it asked to publish.
-/
import Quorum.Fault
import Quorum.Timing.Timer

namespace Quorum

/-- What watchers are told. -/
inductive Event where
  | roundStarted (height : Height) (round : Round)
  | stepChanged (height : Height) (round : Round) (step : Step)
  | prevoteEntered (round : Round) (hash : BlockHash)
  | precommitEntered (round : Round) (hash : BlockHash)
  | quorumReached (round : Round) (hash : BlockHash) (kind : VoteKind)
  /-- The proposal held was not the one with the majority and was dropped. -/
  | proposalReclaimed (round : Round) (hash : BlockHash)
  | blockProposed (round : Round) (validRound : Option Round) (block : Block)
  /-- A message went out. -/
  | messagePublished (message : Message)
  | completed (block : Block) (certificate : Certificate)
  | faultOccurred (fault : Fault)
  | timerProcessed (round : Round) (step : Step)
deriving DecidableEq

/-- What a machine asks of its surroundings while it handles an input. -/
inductive Effect where
  /-- Send a message that was signed for it. -/
  | publish (message : Message)
  /-- Pass on a recorded vote to those who miss it. -/
  | forward (vote : Vote)
  | emit (event : Event)
  | schedule (timer : Timer) (delay : UInt64)
deriving DecidableEq

namespace Effect

/-- What watchers see of an effect: an event, or that a message went
out. -/
def event? : Effect → Option Event
  | .publish message => some (.messagePublished message)
  | .forward vote => some (.messagePublished (.vote vote))
  | .emit event => some event
  | .schedule _ _ => none

/-- The timer that has to be waited for, and how long. -/
def delayed? : Effect → Option (Timer × UInt64)
  | .schedule timer delay => if delay = 0 then none else some (timer, delay)
  | .publish _ => none
  | .forward _ => none
  | .emit _ => none

end Effect

end Quorum
