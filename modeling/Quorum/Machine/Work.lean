/-
The single acts a machine's transitions are made of.

`Work` is a machine together with the effects it has asked for since the
input came in, first one first. An `Attempt` is work with the fault it
ran into, if any. Effects stay in place when a later act fails, and so do
the changes made up to there.
-/
import Quorum.Machine.Effect
import Quorum.Machine.State

namespace Quorum

/-- A machine and the effects asked for so far. -/
structure Work where
  machine : Machine
  effects : List Effect
deriving DecidableEq

/-- Work that may have run into a fault. -/
abbrev Attempt := Work × Except Fault Unit

/-- Go on, unless there was a fault. -/
def Attempt.andThen (a : Attempt) (next : Work → Attempt) : Attempt :=
  match a.2 with
  | .error _ => a
  | .ok () => next a.1

/-- After a fault nothing further is tried. -/
theorem Attempt.andThen_error (k : Work) (fault : Fault) (next : Work → Attempt) :
    Attempt.andThen (k, .error fault) next = (k, .error fault) := rfl

namespace Work

variable (s : Setup) (w : World)

/-- A machine that an input just came to: nothing asked for yet. -/
def ofMachine (m : Machine) : Work := ⟨m, []⟩

/-- Work that went well. -/
def done (k : Work) : Attempt := (k, .ok ())

/-- Work that ran into a fault, with all it did before. -/
def fail (k : Work) (fault : Fault) : Attempt := (k, .error fault)

-- ============================================================ asking

/-- Ask for one effect more, behind those asked for before. -/
def ask (k : Work) (effect : Effect) : Work := { k with effects := k.effects ++ [effect] }

/-- Tell watchers of an event. -/
def emit (k : Work) (event : Event) : Work := k.ask (.emit event)

/-- Send a message that was signed for it. -/
def publish (k : Work) (message : Message) : Work := k.ask (.publish message)

/-- Pass on a recorded vote. -/
def forward (k : Work) (vote : Vote) : Work := k.ask (.forward vote)

-- ========================================================== changing

/-- Change the machine and ask for nothing. -/
def update (k : Work) (f : Machine → Machine) : Work := { k with machine := f k.machine }

/-- Change the record of a round, which comes into being if need be. -/
def updateRound (k : Work) (round : Round) (f : RoundLog → RoundLog) : Work :=
  k.update fun m => { m with log := m.log.put (f (m.log.getOrFresh round)) }

/-- Enter a step of the current round, and tell. -/
def setStep (k : Work) (step : Step) : Work :=
  (k.update fun m => { m with step := step }).emit
    (.stepChanged s.scope.height k.machine.round step)

/-- Schedule a timer, unless its slot was armed in this round before;
whether it was scheduled. -/
def arm (k : Work) (round : Round) (kind : TimerKind) : Work × Bool :=
  if (k.machine.log.getOrFresh round).isArmed kind.slot then (k, false)
  else
    ((k.updateRound round (·.arm kind.slot)).ask
      (.schedule ⟨s.scope.height, round, kind⟩ (kind.delay s.settings round)), true)

-- =========================================================== judging

/-- Whether a block can be accepted, as the world answers now: it is of
this height and passes validation. -/
def accepts (block : Block) : Bool :=
  block.height == s.scope.height && (w.validate block).toBool

/-- Whether the block of this hash can be accepted; the answer is
remembered. -/
def judge (k : Work) (hash : BlockHash) (block : Block) : Work × Bool :=
  let verdict := k.machine.verdicts.consult hash fun () => accepts s w block
  (k.update fun m => { m with verdicts := verdict.2 }, verdict.1)

-- ============================================================ voting

/-- Sign and send a vote, if this is a validator at all. -/
def castVote (k : Work) (round : Round) (hash : BlockHash) (kind : VoteKind) : Work :=
  match s.scope.validators.powerOf? s.signer.address with
  | none => k
  | some power =>
    k.publish (.vote (Signed.make s.signer
      (⟨s.scope.height, round, hash, w.now, s.signer.address, power, kind⟩ : Ballot)))

end Work

end Quorum
