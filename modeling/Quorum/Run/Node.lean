/-
A machine at work: a queue of inputs, timers on a clock of its own, and
watchers that are told of events.

The clock only moves when it is told to. At any moment the queue is
worked off first in first out; what an input owes the machine itself goes
to the end of the queue, and everything else becomes an event or a timer.
A fatal fault ends the node, as stopping it does: nothing is handled any
more, and what waits is dropped.
-/
import Quorum.Machine.Handle

namespace Quorum

/-- Where a node is in its life. -/
inductive NodePhase where
  | waiting
  | running
  | stopped
deriving DecidableEq

/-- A node: its machine, its inputs in waiting, its timers with the time
they are due, in order of arming. -/
structure Node where
  setup : Setup
  machine : Machine
  phase : NodePhase := .waiting
  queue : List Input := []
  timers : List (Nat × Timer) := []
  /-- The time on the node's clock, in milliseconds. -/
  clock : Nat := 0
  /-- The fatal fault that nobody has asked for yet. -/
  failure : Option Fault := none

namespace Node

variable [Crypto] (w : World)

-- ========================================================= one input

/-- Put inputs at the end of the queue, and timers on the clock. -/
def dispatch (n : Node) (effects : List Effect) : Node :=
  { n with
    queue := n.queue ++ effects.filterMap (Effect.input? n.setup.signer.address)
    timers := n.timers ++ (effects.filterMap Effect.delayed?).map fun (timer, delay) =>
      (n.clock + delay.toNat, timer) }

/-- End the node, whether by request or by a fault. -/
def halt (n : Node) (failure : Option Fault) : Node :=
  { n with phase := .stopped, queue := [], timers := [], failure := failure }

/-- Handle one input: the events of its effects, then its fault. -/
def handleInput (n : Node) (input : Input) : List Event × Node :=
  let outcome := n.machine.handle n.setup w input
  let events := outcome.effects.filterMap Effect.event?
  let n := { n with machine := outcome.machine }.dispatch outcome.effects
  match outcome.result with
  | .ok () => (events, n)
  | .error fault =>
    (events ++ [.faultOccurred fault], if fault.isFatal then n.halt (some fault) else n)

/-- Work off the queue, as far as the budget goes. -/
def drain : Nat → Node → List Event × Node
  | 0, n => ([], n)
  | budget + 1, n =>
    match n.phase, n.queue with
    | .running, input :: queue =>
      let (events, n) := { n with queue := queue }.handleInput w input
      let (more, n) := drain budget n
      (events ++ more, n)
    | _, _ => ([], n)

-- ============================================================ clock

/-- The timer that is due first, not later than a given time, and first
armed among equals. -/
def firstDue? (timers : List (Nat × Timer)) (limit : Nat) : Option (Nat × Timer) :=
  (timers.filter (fun timer => timer.1 ≤ limit)).foldl
    (fun best timer =>
      match best with
      | none => some timer
      | some first => if timer.1 < first.1 then some timer else some first)
    none

/-- Fire timers in the order they are due, each with all that follows
from it, up to a given time. -/
def fireUntil (budget : Nat) (limit : Nat) : Nat → Node → List Event × Node
  | 0, n => ([], n)
  | rounds + 1, n =>
    match firstDue? n.timers limit with
    | none => ([], { n with clock := limit })
    | some (due, timer) =>
      let n := { n with
        clock := due
        timers := n.timers.erase (due, timer)
        queue := n.queue ++ [Input.timer timer] }
      let (events, n) := n.drain w budget
      let (more, n) := fireUntil budget limit rounds n
      (events ++ more, n)

/-- Let time pass. -/
def advance (budget : Nat) (n : Node) (millis : Nat) : List Event × Node :=
  n.fireUntil w budget (n.clock + millis) budget

-- ========================================================= life cycle

/-- Begin to work. What was posted before is handled after the start. -/
def start (n : Node) : Except Fault Node :=
  match n.phase with
  | .stopped => .error .stopped
  | .running => .error .alreadyStarted
  | .waiting => .ok { n with phase := .running, queue := .start :: n.queue }

/-- Stop working. A node that never worked cannot be stopped. -/
def stop (n : Node) : Except Fault Node :=
  match n.phase with
  | .stopped => .ok n
  | .running => .ok (n.halt none)
  | .waiting => .error .notStarted

/-- Wait for the end; the fault that brought it is told once. -/
def join (n : Node) : Except Fault Unit × Node :=
  match n.failure with
  | some fault => (.error fault, { n with failure := none })
  | none => (.ok (), n)

/-- Post a message of a peer. -/
def post (n : Node) (message : Message) : Except Fault Node :=
  match n.phase with
  | .stopped => .error .stopped
  | _ => .ok { n with queue := n.queue ++ [.message message] }

end Node

end Quorum
