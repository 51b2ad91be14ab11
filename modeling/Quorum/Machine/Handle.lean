/-
The machine as a whole: one input in, effects and a result out.

An input is the start, a message or a timer. It is applied first, and
then the rules are run until they rest; an input that fails is not
followed by the rules. What changed before a failure stays changed.
-/
import Quorum.Machine.Count
import Quorum.Machine.Gossip
import Quorum.Machine.Settle

namespace Quorum

/-- What a machine is driven by. Nothing else changes it but taking its evidence
away. -/
inductive Input where
  | start
  | message (message : Message)
  | timer (timer : Timer)
deriving DecidableEq

/-- What handling an input gave. Machine and effects stand also where the result is
a fault. -/
structure Outcome where
  machine : Machine
  /-- Asked for while the input was handled, first one first. -/
  effects : List Effect
  result : Except Fault Unit

/-- The input that an effect is at once to the machine of `me` itself: its
own proposals and votes, and timers without a delay. -/
def Effect.input? (me : Address) : Effect → Option Input
  | .publish message => if message.isOwnInput me then some (.message message) else none
  | .forward vote => if vote.author = me then some (.message (.vote vote)) else none
  | .emit _ => none
  | .schedule timer delay => if delay = 0 then some (.timer timer) else none

namespace Work

variable [Crypto] (s : Setup) (w : World)

/-- Begin with round 0, once. Votes that came before count at once. -/
def start (k : Work) : Attempt :=
  if k.machine.step ≠ .idle then k.fail .alreadyStarted
  else (k.startRound s w 0).andThen fun k => k.advance s w 0

/-- Hand a message of this height to the part that its kind is for. A vote and a
proposal may at once move the machine to a later round or decide; what fills gaps
cannot. -/
def takeMessage (k : Work) (message : Message) : Attempt :=
  if message.height ≠ s.scope.height then
    k.fail (.message (.heightMismatch s.scope.height message.height))
  else
    match message with
    | .proposal proposal =>
      (k.addProposal s proposal).andThen fun k => k.advance s w proposal.body.round
    | .vote vote => (k.addVote s w vote).andThen fun k => k.advance s w vote.body.round
    | .claim claim => k.takeClaim s w claim
    | .holdings holdings => k.takeHoldings s holdings

/-- Apply an input, before the rules. -/
def apply (k : Work) : Input → Attempt
  | .start => k.start s w
  | .message message => k.takeMessage s w message
  | .timer timer => k.takeTimer s w timer

/-- Apply an input and run the rules until they rest. -/
def run (k : Work) (input : Input) : Attempt :=
  (k.apply s w input).andThen fun k => k.settle s w

end Work

/-- One whole turn of a machine: the input, then the rules until they rest. -/
def Machine.handle [Crypto] (s : Setup) (w : World) (m : Machine) (input : Input) : Outcome :=
  let after := (Work.ofMachine m).run s w input
  ⟨after.1.machine, after.1.effects, after.2⟩

end Quorum
