/-
Waiting for a majority, but not for ever.

Once two thirds of the power have voted, a timer is armed; when it fires,
the machine goes on without a majority. A timer that comes too late finds
the step it guards already over and does nothing.
-/
import Quorum.Machine.Decision

namespace Quorum.Work

variable [Crypto] (s : Setup) (w : World)

-- ============================================================ arming

/-- Once two thirds have prevoted anything, do not wait for ever for a
majority. -/
def prevoteWaitRule (k : Work) : Work × Bool :=
  if k.machine.step = .prevote ∧ k.machine.prevotesSomeTwoThirds s k.machine.round then
    k.arm s k.machine.round .prevote
  else (k, false)

/-- Once two thirds have precommitted anything, do not wait for ever for
a majority. -/
def precommitWaitRule (k : Work) : Work × Bool :=
  if k.machine.precommitsSomeTwoThirds s k.machine.round then
    k.arm s k.machine.round .precommit
  else (k, false)

-- ============================================================ firing

/-- What a timer does, by its kind. -/
def expire (k : Work) (round : Round) : TimerKind → Attempt
  | .propose =>
    if k.machine.step = .propose then (k.enterPrevote s w round .nil).1.done else k.done
  | .prevote =>
    if k.machine.step = .prevote then (k.enterPrecommit s w round .nil).1.done else k.done
  | .precommit => k.enterEndCommit s w round
  | .precommitWait hash => (k.enterPrecommit s w round hash).1.done
  | .endCommitWait => k.enterEndCommit s w round

/-- Tell watchers of a timer that guarded a step. -/
def reportTimer (k : Work) (timer : Timer) : Work :=
  match timer.kind.guarded? with
  | some step => k.emit (.timerProcessed timer.round step)
  | none => k

/-- Take in a timer; one of another height does nothing. -/
def takeTimer (k : Work) (timer : Timer) : Attempt :=
  if timer.height ≠ s.scope.height then k.done
  else (k.expire s w timer.round timer.kind).andThen fun k => (k.reportTimer timer).done

end Quorum.Work
