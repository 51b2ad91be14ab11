/-
Timers: what keeps a round moving when messages do not come.

A timer belongs to one round of one height. Three of its kinds guard a
step and end it; the other two only put a short wait before a step that
is already due.
-/
import Quorum.Timing.Settings

namespace Quorum

/-- What a timer does when it fires. -/
inductive TimerKind where
  /-- No proposal came: prevote for nothing. -/
  | propose
  /-- No majority of prevotes came: precommit nothing. -/
  | prevote
  /-- No majority of precommits came: end the round. -/
  | precommit
  /-- Precommit this hash. -/
  | precommitWait (hash : BlockHash)
  /-- End the height. -/
  | endCommitWait
deriving DecidableEq

/-- The five kinds without the hash: each is armed once a round. -/
inductive TimerSlot where
  | propose
  | prevote
  | precommit
  | precommitWait
  | endCommitWait
deriving DecidableEq

namespace TimerKind

/-- The slot of a kind: the hash to precommit does not make it another timer. -/
def slot : TimerKind → TimerSlot
  | .propose => .propose
  | .prevote => .prevote
  | .precommit => .precommit
  | .precommitWait _ => .precommitWait
  | .endCommitWait => .endCommitWait

/-- The step a timer guards. -/
def guarded? : TimerKind → Option Step
  | .propose => some .propose
  | .prevote => some .prevote
  | .precommit => some .precommit
  | .precommitWait _ => none
  | .endCommitWait => none

/-- The delay in milliseconds before a timer of a round fires. -/
def delay (settings : Settings) (round : Round) : TimerKind → UInt64
  | .propose => settings.proposeDelay round
  | .prevote => settings.prevoteDelay round
  | .precommit => settings.precommitDelay round
  | .precommitWait _ => settings.precommitWait
  | .endCommitWait => settings.endCommitWait

end TimerKind

/-- A timer of one round of one height. -/
structure Timer where
  height : Height
  round : Round
  kind : TimerKind
deriving DecidableEq

end Quorum
