/-
What is known of one round: its two tallies, its proposal, and which
timers were armed. A timer slot is armed once and never again, and so is
the mark that a majority of prevotes was acted on.
-/
import Quorum.Record.Tally
import Quorum.Timing.Timer

namespace Quorum

/-- The record of one round. -/
structure RoundLog where
  round : Round
  prevotes : Tally
  precommits : Tally
  proposal : Option Proposal := none
  /-- The slots armed so far, latest first. -/
  armed : List TimerSlot := []
  /-- Whether the majority of prevotes was acted on. -/
  quorumSeen : Bool := false
deriving DecidableEq

namespace RoundLog

/-- A round of which nothing is known. -/
def fresh (round : Round) : RoundLog where
  round := round
  prevotes := { round := round, kind := .prevote }
  precommits := { round := round, kind := .precommit }

/-- The tally of a kind; null votes have none. -/
def tally? (l : RoundLog) : VoteKind → Option Tally
  | .null => none
  | .prevote => some l.prevotes
  | .precommit => some l.precommits

/-- Put a tally in place of the one of its kind. -/
def setTally (l : RoundLog) (kind : VoteKind) (tally : Tally) : RoundLog :=
  match kind with
  | .null => l
  | .prevote => { l with prevotes := tally }
  | .precommit => { l with precommits := tally }

/-- Take up a proposal; a round has only one. -/
def setProposal (l : RoundLog) (proposal : Proposal) : Except Fault RoundLog :=
  match l.proposal with
  | some _ => .error (.proposalExists l.round)
  | none => .ok { l with proposal := some proposal }

/-- Drop the proposal, so that another can be taken up. -/
def discard (l : RoundLog) : RoundLog := { l with proposal := none }

/-- Whether a slot was armed in this round at any time. -/
def isArmed (l : RoundLog) (slot : TimerSlot) : Bool := l.armed.contains slot

/-- Note that a slot is armed now. -/
def arm (l : RoundLog) (slot : TimerSlot) : RoundLog :=
  if l.isArmed slot then l else { l with armed := slot :: l.armed }

/-- Arming a slot arms that slot and no other. -/
theorem isArmed_arm (l : RoundLog) (slot other : TimerSlot) :
    (l.arm slot).isArmed other = (other == slot || l.isArmed other) := by
  unfold arm
  split
  · rename_i h
    by_cases same : other = slot
    · subst same
      simp [h]
    · simp [same]
  · by_cases same : other = slot
    · subst same
      simp [isArmed]
    · simp [isArmed, same]

end RoundLog

end Quorum
