/-
The state of one validator deciding one height.

`Setup` is what never changes while a height is decided, `World` is what
the surroundings answer at the moment of an input, and `Machine` is what
inputs change. The machine never looks at the world except through these
answers, so it can be run against any behaviour of them.
-/
import Quorum.Machine.Verdict
import Quorum.Record.Evidence
import Quorum.Record.Height

namespace Quorum

/-- Who decides what, as whom, and with which delays. -/
structure Setup where
  scope : Scope
  signer : Signer
  settings : Settings

/-- The setup for a height of this ledger. The height has to be a real
one, and the ledger has to know who decides it. -/
def Setup.ofLedger? (ledger : Ledger) (height : Height) (signer : Signer) (settings : Settings) :
    Except Fault Setup :=
  if height = 0 then .error (.badHeight height)
  else
    match ledger.validatorsAt height with
    | .error fault => .error (.chain (.block fault))
    | .ok validators => .ok ⟨⟨height, validators⟩, signer, settings⟩

/-- What the surroundings answer: the time, whether a block can be
accepted, and a block to propose. -/
structure World where
  now : Millis
  validate : Block → Except BlockFault Unit
  propose : Address → Height → Except BlockFault Block

/-- The world of a ledger at a given time. -/
def Ledger.world [Crypto] (l : Ledger) (now : Millis) : World where
  now := now
  validate := l.validate
  propose := l.propose now

/-- A block that is remembered with its hash and a round. -/
structure Pinned where
  round : Round
  hash : BlockHash
  block : Block
deriving DecidableEq

/-- All that inputs change: where the machine stands, what was recorded, what it is
bound to by its own votes, and what it found out on the way. -/
structure Machine where
  round : Round
  step : Step
  log : HeightLog
  /-- The block that has to be voted for, and the round it was locked in. -/
  locked : Option Pinned
  /-- The latest block seen with a majority of prevotes, and its round. -/
  valid : Option Pinned
  /-- The decided block and the round it was committed in. -/
  decision : Option Pinned
  verdicts : VerdictCache
  /-- Evidence that nobody has taken away yet, oldest first. -/
  evidence : List Evidence
deriving DecidableEq

namespace Machine

/-- At rest, before round 0. -/
def initial (s : Setup) : Machine where
  round := 0
  step := .idle
  log := HeightLog.start
  locked := none
  valid := none
  decision := none
  verdicts := VerdictCache.empty s.settings.verdictCapacity.toNat
  evidence := []

/-- The current round, once started. -/
def currentRound? (m : Machine) : Option Round := if m.step = .idle then none else some m.round

/-- The proposal held for the current round. -/
def proposal? (m : Machine) : Option Proposal := (m.log.get? m.round).bind (·.proposal)

/-- The hash with more than two thirds of a round's prevotes, frozen when it was
reached. -/
def prevoteMajority? (m : Machine) (round : Round) : Option BlockHash :=
  (m.log.get? round).bind (·.prevotes.majority)

/-- The hash with more than two thirds of a round's precommits, frozen when it was
reached. -/
def precommitMajority? (m : Machine) (round : Round) : Option BlockHash :=
  (m.log.get? round).bind (·.precommits.majority)

/-- Whether prevotes of any kind in a round are more than a third. -/
def prevotesSomeThird (s : Setup) (m : Machine) (round : Round) : Bool :=
  match m.log.get? round with
  | some l => l.prevotes.someThird s.scope
  | none => false

/-- Whether prevotes of any kind in a round are more than two thirds. -/
def prevotesSomeTwoThirds (s : Setup) (m : Machine) (round : Round) : Bool :=
  match m.log.get? round with
  | some l => l.prevotes.someTwoThirds s.scope
  | none => false

/-- Whether precommits of any kind in a round are more than two thirds. -/
def precommitsSomeTwoThirds (s : Setup) (m : Machine) (round : Round) : Bool :=
  match m.log.get? round with
  | some l => l.precommits.someTwoThirds s.scope
  | none => false

/-- The certificate of a round's precommits. -/
def certificateOf? (s : Setup) (m : Machine) (round : Round) : Option Certificate :=
  (m.log.get? round).bind (·.precommits.certificate? s.scope)

/-- The proof of the decision: the precommits of the round it was committed in. -/
def certificate? (s : Setup) (m : Machine) : Option Certificate :=
  m.decision.bind fun d => m.certificateOf? s d.round

/-- Take the evidence away. -/
def takeEvidence (m : Machine) : List Evidence × Machine := (m.evidence, { m with evidence := [] })

end Machine

end Quorum
