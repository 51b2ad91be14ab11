/-
A machine driven by hand: inputs are fed one at a time, and timers that
were scheduled stay armed until somebody fires them.

Feeding can also take care of what the machine owes itself. Its own
proposals and votes and its timers without a delay are then queued behind
the input, first in first out, until the queue is empty. A machine whose
timers all have no delay can go on for ever, so a budget bounds the
number of inputs.
-/
import Quorum.Machine.Handle

namespace Quorum

/-- A machine and its armed timers, in order of arming. -/
structure Session where
  setup : Setup
  machine : Machine
  armed : List Timer

/-- One input that was handled, and what came of it. -/
structure Trace where
  input : Input
  result : Except Fault Unit
  effects : List Effect

namespace Session

variable [Crypto] (w : World)

/-- A session with a machine at rest. -/
def atRest (setup : Setup) : Session := ⟨setup, Machine.initial setup, []⟩

/-- Feed one input; whatever it schedules is armed. -/
def feed (s : Session) (input : Input) : Trace × Session :=
  let outcome := s.machine.handle s.setup w input
  let scheduled := outcome.effects.filterMap fun
    | .schedule timer _ => some timer
    | _ => none
  (⟨input, outcome.result, outcome.effects⟩,
    { s with machine := outcome.machine, armed := s.armed ++ scheduled })

/-- Feed a queue of inputs and what the machine owes itself behind
them. -/
def feedAll : Nat → Session → List Input → List Trace × Session
  | 0, s, _ => ([], s)
  | _, s, [] => ([], s)
  | budget + 1, s, input :: queue =>
    let outcome := s.machine.handle s.setup w input
    let own := outcome.effects.filterMap (Effect.input? s.setup.signer.address)
    let delayed := (outcome.effects.filterMap Effect.delayed?).map (·.1)
    let next := { s with machine := outcome.machine, armed := s.armed ++ delayed }
    let (traces, last) := feedAll budget next (queue ++ own)
    (⟨input, outcome.result, outcome.effects⟩ :: traces, last)

/-- Take the first armed timer that has this property. -/
def takeArmed? (s : Session) (p : Timer → Bool) : Option (Timer × Session) :=
  (s.armed.find? p).map fun timer => (timer, { s with armed := s.armed.eraseP p })

end Session

end Quorum
