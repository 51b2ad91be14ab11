/-
Running the rules of the current round until they rest.

A pass goes once over the five rules: prevote on the proposal, wait for
prevotes, lock, act on another majority, wait for precommits. Passes are
repeated until one changes nothing, and their number is bounded.
-/
import Quorum.Machine.Lock
import Quorum.Machine.Wait

namespace Quorum.Work

variable [Crypto] (s : Setup) (w : World)

/-- One pass over the five rules; whether any of them changed anything. -/
def pass (k : Work) : Work × Bool :=
  let voted := k.prevoteRule s w
  let waiting := voted.1.prevoteWaitRule s
  let locked := waiting.1.lockRule s w
  let other := locked.1.otherMajorityRule s
  let last := other.1.precommitWaitRule s
  (last.1, voted.2 || waiting.2 || locked.2 || other.2 || last.2)

/-- Passes until one changes nothing, `left` of them at most; `limit` is
what is reported when they do not suffice. -/
def passes (limit : Nat) : Nat → Work → Attempt
  | 0, k => k.fail (.unsettled limit)
  | left + 1, k =>
    let after := k.pass s w
    if after.2 then passes limit left after.1 else after.1.done

/-- The number of passes an input may cause; one is always allowed. -/
def passLimit : Nat := max s.settings.maxPasses.toNat 1

/-- Run the five rules until they rest. Before the start there are no
rules. -/
def settle (k : Work) : Attempt :=
  if k.machine.step = .idle then k.done else passes s w (passLimit s) (passLimit s) k

end Quorum.Work
