/-
What a machine can do, act by act.

Handling one input is a sequence of acts: a vote is counted, a round
begins, a prevote is cast, a block is locked. `Act` lists them, each with
the guard under which the machine does it, what it asks for and what the
machine is afterwards. `handle_acts` says that handling an input is
nothing but such acts.

# Why acts

Votes are signed and timers are armed from many places in the rules, and
a property of a whole run would have to follow each of them through every
function in between. Over acts it is one case analysis: an invariant that
every act keeps is kept by handling any input, and nothing about the
rules has to be opened again.

An act is no finer than what an invariant may be asked of. The lock is
taken, announced and put on its timer in one act, and a round begins with
its proposal or its timer in one act, because in between a machine would
hold a lock it never announced.
-/
import Quorum.Machine.Handle
import Quorum.Proofs.Record.Height

namespace Quorum

-- ================================================ statement vocabulary

namespace Machine

variable (s : Setup) (w : World)

/-- The verdict on a block, remembered or passed now. -/
def verdict (m : Machine) (hash : BlockHash) (block : Block) : Bool :=
  (m.verdicts.consult hash fun () => Work.accepts s w block).1

/-- The machine once it has a verdict on a block. -/
def judged (m : Machine) (hash : BlockHash) (block : Block) : Machine :=
  { m with
    verdicts := (m.verdicts.consult hash fun () => Work.accepts s w block).2 }

/-- The machine with a slot of a round armed. -/
def armed (m : Machine) (round : Round) (slot : TimerSlot) : Machine :=
  if (m.log.getOrFresh round).isArmed slot then m
  else { m with log := m.log.put ((m.log.getOrFresh round).arm slot) }

/-- What arming asks for: the timer, unless its slot was armed before. -/
def scheduling (m : Machine) (round : Round) (kind : TimerKind) : List Effect :=
  if (m.log.getOrFresh round).isArmed kind.slot then []
  else [.schedule ⟨s.scope.height, round, kind⟩ (kind.delay s.settings round)]

/-- The machine once it has acted on a majority of prevotes. -/
def sawQuorum (m : Machine) (round : Round) : Machine :=
  { m with log := m.log.put { m.log.getOrFresh round with quorumSeen := true } }

/-- The vote of this validator, if it is one. -/
def casting (round : Round) (hash : BlockHash) (kind : VoteKind) :
    List Effect :=
  match s.scope.validators.powerOf? s.signer.address with
  | none => []
  | some power =>
    [.publish (.vote (Signed.make s.signer
      (⟨s.scope.height, round, hash, w.now, s.signer.address, power, kind⟩
        : Ballot)))]

/-- Entering the step of prevotes: watchers are told of the step and of the hash,
and the vote is cast. -/
def prevoting (round : Round) (hash : BlockHash) : List Effect :=
  .emit (.stepChanged s.scope.height round .prevote)
    :: .emit (.prevoteEntered round hash)
    :: casting s w round hash .prevote

/-- Entering the step of precommits, likewise. -/
def precommitting (round : Round) (hash : BlockHash) : List Effect :=
  .emit (.stepChanged s.scope.height round .precommit)
    :: .emit (.precommitEntered round hash)
    :: casting s w round hash .precommit

/-- The hash a proposal is prevoted with: its own, or none when the
verdict or the lock is against it. -/
def prevoteHash (m : Machine) (offer : Offer) : BlockHash :=
  if m.verdict s w offer.hash offer.block
      && Work.lockAllows m.locked offer.validRound offer.hash then offer.hash
  else .nil

/-- How a round opens once the machine is in it: the proposer proposes,
and whoever has nothing to propose waits for a proposal. -/
def opening [Crypto] (m : Machine) (round : Round) : Machine × List Effect :=
  if s.scope.validators.proposerAddress s.scope.height round
      = s.signer.address then
    match Work.blockToPropose s w m with
    | .ok (block, validRound) =>
      (m, [.emit (.blockProposed round validRound block),
        .publish (.proposal (Signed.make s.signer
          (Offer.ofBlock round w.now s.signer.address validRound
            s.scope.height block)))])
    | .error fault =>
      (m.armed round .propose,
        .emit (.faultOccurred (.block fault)) :: m.scheduling s round .propose)
  else (m.armed round .propose, m.scheduling s round .propose)

/-- The evidence that counting a vote gives. -/
def convictions : Except Fault Unit → List Evidence
  | .error (.conflict first second) => [⟨first, second, w.now⟩]
  | _ => []

/-- The answer that a claim gets. -/
def answering : Except Fault (Option Holdings) → List Effect
  | .ok (some holdings) => [.publish (.holdings holdings)]
  | _ => []

end Machine

/-- Why a machine begins a round. -/
inductive Cause (s : Setup) (input : Input) (m : Machine) (round : Round) : Prop
  | start (told : input = .start) (idle : m.step = .idle) (first : round = 0)
  /-- A message came of a round in which more than a third of the power
  is ahead of it. -/
  | follow (message : Message) (given : input = .message message)
      (of_round : message.round = round) (started : m.step ≠ .idle)
      (undecided : m.decision = none) (later : m.round < round)
      (ahead : m.prevotesSomeThird s round = true)
  /-- Its round ended without a decision. -/
  | next (kind : TimerKind)
      (fired : input = .timer ⟨s.scope.height, m.round, kind⟩)
      (ends : kind = .precommit ∨ kind = .endCommitWait)
      (ended : m.step = .endCommit) (undecided : m.decision = none)
      (after : round = m.round + 1)

/-- Why a machine arms a timer by a rule that does nothing else. -/
inductive Waits (s : Setup) (m : Machine) : TimerKind → Prop
  | prevotes (step : m.step = .prevote)
      (many : m.prevotesSomeTwoThirds s m.round = true) : Waits s m .prevote
  | precommits (many : m.precommitsSomeTwoThirds s m.round = true) :
      Waits s m .precommit
  | nothing (step : m.step = .prevote)
      (majority : m.prevoteMajority? m.round = some .nil) :
      Waits s m (.precommitWait .nil)

-- ============================================================== claims

/-- What becomes of a claim. It is turned away before its round is opened; or the
round is open, and its author claimed something else there before, or it is
recorded, and answered where some of the claimed votes are missing. -/
inductive Claiming [Crypto] (s : Setup) (w : World) (m : Machine) (claim : Claim)
    (m' : Machine) (result : Except Fault (Option Holdings)) : Prop
  | barred (cause : ClaimFault) (same : m' = m)
      (fails : result = .error (.claim cause))
  | changed (opened : HeightLog) (t : Tally) (first : BlockHash)
      (cause : ClaimFault)
      (opens : m.log.openFor? claim.body.round claim.body.validator = some opened)
      (found : (opened.getOrFresh claim.body.round).tally? claim.body.kind = some t)
      (claimed : t.claimOf? claim.body.validator = some first)
      (same : m' = { m with log := opened })
      (fails : result = .error (.claim cause))
  | recorded (opened : HeightLog) (t t' : Tally)
      (opens : m.log.openFor? claim.body.round claim.body.validator = some opened)
      (found : (opened.getOrFresh claim.body.round).tally? claim.body.kind = some t)
      (added : t.addClaim claim.body.validator claim.body.hash = .ok t')
      (same : m' = { m with
        log := opened.put
          ((opened.getOrFresh claim.body.round).setTally claim.body.kind t') })
      (answers : result = .ok (if (t'.heldFor s.scope claim.body.hash).all id
        then none
        else some (Machine.signHoldings s w claim.body.round claim.body.hash
          claim.body.kind (t'.heldFor s.scope claim.body.hash))))

/-- A tally refuses a claim only of a peer that claims something there already. -/
theorem Tally.claimOf?_of_refused {t : Tally} {peer : Address} {hash : BlockHash}
    {fault : Fault} (refused : t.addClaim peer hash = .error fault) :
    ∃ first cause, t.claimOf? peer = some first ∧ fault = .claim cause := by
  unfold addClaim at refused
  split at refused
  case h_1 first claimed =>
    split at refused
    · cases refused
    · cases refused
      exact ⟨first, _, claimed, rfl⟩
  case h_2 => cases refused

namespace Machine

variable [Crypto] {s : Setup} {claim : Claim}

/-- A claim is turned away for a reason of its own, never for one of votes or
proposals. -/
theorem cause_of_claimRefusal? {fault : Fault}
    (refused : claimRefusal? s claim = some fault) :
    ∃ cause, fault = .claim cause := by
  unfold claimRefusal? at refused
  dsimp only at refused
  repeat' split at refused
  all_goals cases refused
  all_goals exact ⟨_, rfl⟩

/-- A claim that is looked at is one of prevotes or of precommits. -/
theorem kind_ne_null_of_claimRefusal? (accepted : claimRefusal? s claim = none) :
    claim.body.kind ≠ .null := by
  intro null
  unfold claimRefusal? at accepted
  dsimp only at accepted
  rw [if_pos null] at accepted
  split at accepted <;> cases accepted

/-- Nothing else can become of a claim. -/
theorem claiming_addClaim (s : Setup) (w : World) (m : Machine) (claim : Claim) :
    Claiming s w m claim (m.addClaim s w claim).1 (m.addClaim s w claim).2 := by
  unfold addClaim
  dsimp only
  split
  case h_1 fault refused =>
    obtain ⟨cause, rfl⟩ := cause_of_claimRefusal? refused
    exact .barred cause rfl rfl
  case h_2 accepted =>
    split
    case h_1 => exact .barred _ rfl rfl
    case h_2 opened opens =>
      unfold recordClaim
      split
      case h_1 uncounted =>
        -- the kind is not null, so there is a tally to record it in
        exact absurd (HeightLog.null_of_uncounted uncounted)
          (kind_ne_null_of_claimRefusal? accepted)
      case h_2 t found =>
        split
        case h_1 refused =>
          obtain ⟨first, cause, claimed, rfl⟩ := Tally.claimOf?_of_refused refused
          exact .changed opened t first cause opens found claimed rfl rfl
        case h_2 t' added =>
          exact .recorded opened t t' opens found added rfl rfl

/-- The answer to a claim is a list of held votes for the claimed hash, with
a flag for each validator. -/
theorem answer_of_addClaim {w : World} {m : Machine} {answer : Holdings}
    (answers : (m.addClaim s w claim).2 = .ok (some answer)) :
    claim.body.kind ≠ .null
      ∧ ∃ held : List Bool, held.length = s.scope.validators.size
        ∧ answer = signHoldings s w claim.body.round claim.body.hash
          claim.body.kind held := by
  cases claiming_addClaim s w m claim with
  | barred _ _ fails => cases answers.symm.trans fails
  | changed _ _ _ _ _ _ _ _ fails => cases answers.symm.trans fails
  | recorded opened t t' _ found _ _ answered =>
    have answered := Except.ok.inj (answers.symm.trans answered)
    split at answered
    case isTrue => cases answered
    case isFalse =>
      refine ⟨fun null => ?_, t'.heldFor s.scope claim.body.hash, ?_, ?_⟩
      · rw [null] at found
        cases found
      · exact List.length_map _
      · exact Option.some.inj answered

end Machine

-- ========================================================= single acts

namespace Work

variable (s : Setup) (w : World)

/-- Arming in one equation: the slot is marked and the timer asked for, or
neither. -/
theorem arm_eq (k : Work) (round : Round) (kind : TimerKind) :
    (k.arm s round kind).1
      = ⟨k.machine.armed round kind.slot,
        k.effects ++ k.machine.scheduling s round kind⟩ := by
  unfold arm Machine.armed Machine.scheduling
  split
  · rw [List.append_nil]
  · rfl

/-- Judging asks for nothing, and changes no more than the memory of verdicts. -/
theorem judge_eq (k : Work) (hash : BlockHash) (block : Block) :
    k.judge s w hash block
      = (⟨k.machine.judged s w hash block, k.effects⟩,
        k.machine.verdict s w hash block) := rfl

/-- To cast a vote is to send it. It is counted when it comes back as an input. -/
theorem castVote_eq (k : Work) (round : Round) (hash : BlockHash)
    (kind : VoteKind) :
    k.castVote s w round hash kind
      = ⟨k.machine, k.effects ++ Machine.casting s w round hash kind⟩ := by
  unfold castVote Machine.casting
  cases s.scope.validators.powerOf? s.signer.address with
  | none => exact congrArg (Work.mk k.machine) (List.append_nil k.effects).symm
  | some power => rfl

end Work

-- ============================================================ the acts

/-- One act of a machine while it handles an input: the machine before,
what it asks for, and the machine after. -/
inductive Act [Crypto] (s : Setup) (w : World) (input : Input) :
    Machine → List Effect → Machine → Prop
  /-- Judge the proposed block, and leave it at that. -/
  | judge (m : Machine) (proposal : Proposal)
      (held : m.proposal? = some proposal) :
      Act s w input m [] (m.judged s w proposal.body.hash proposal.body.block)
  /-- Count a vote, or refuse it in its round. -/
  | count (m : Machine) (vote : Vote) (given : input = .message (.vote vote))
      (sound : Machine.voteRefusal? s vote = none) :
      Act s w input m [] { m with
        log := (m.log.addVote s.scope vote).1
        evidence :=
          m.evidence ++ Machine.convictions w (m.log.addVote s.scope vote).2 }
  /-- Look at a claim, and answer it where votes are missing. -/
  | claim (m : Machine) (claim : Claim)
      (given : input = .message (.claim claim)) :
      Act s w input m (Machine.answering (m.addClaim s w claim).2)
        (m.addClaim s w claim).1
  /-- Pass on the votes that somebody misses. -/
  | passOn (m : Machine) (holdings : Holdings) (votes : List Vote)
      (given : input = .message (.holdings holdings))
      (missed : m.answer s holdings = .ok votes) :
      Act s w input m (votes.map .forward) m
  /-- Take up a proposal for its round. -/
  | takeUp (m : Machine) (proposal : Proposal)
      (given : input = .message (.proposal proposal))
      (sound : m.proposalRefusal? s proposal = none) :
      Act s w input m [] { m with
        log := m.log.put { m.log.getOrFresh proposal.body.round with
          proposal := some proposal } }
  /-- Begin a round and open it. -/
  | beginRound (m : Machine) (round : Round) (log : HeightLog)
      (cause : Cause s input m round)
      (moved : m.log.setRound round = .ok log) :
      Act s w input m
        (.emit (.roundStarted s.scope.height round)
          :: .emit (.stepChanged s.scope.height round .propose)
          :: (Machine.opening s w
            { m with log := log, round := round, step := .propose } round).2)
        (Machine.opening s w
          { m with log := log, round := round, step := .propose } round).1
  /-- Prevote on the proposal, for it or for nothing. -/
  | prevote (m : Machine) (proposal : Proposal) (step : m.step = .propose)
      (held : m.proposal? = some proposal)
      (ripe : Work.isRipe m proposal.body = true) :
      Act s w input m
        (Machine.prevoting s w m.round (m.prevoteHash s w proposal.body))
        { m.judged s w proposal.body.hash proposal.body.block with
          step := .prevote }
  /-- Prevote for nothing, no proposal having come. -/
  | prevoteNothing (m : Machine) (step : m.step = .propose)
      (fired : input = .timer ⟨s.scope.height, m.round, .propose⟩) :
      Act s w input m (Machine.prevoting s w m.round .nil)
        { m with step := .prevote }
  /-- Precommit what a timer was armed for. -/
  | precommit (m : Machine) (hash : BlockHash)
      (step : m.step = .propose ∨ m.step = .prevote)
      (fired : input = .timer ⟨s.scope.height, m.round, .precommitWait hash⟩) :
      Act s w input m (Machine.precommitting s w m.round hash)
        { m with step := .precommit }
  /-- Precommit nothing, no majority having come. -/
  | precommitNothing (m : Machine) (step : m.step = .prevote)
      (fired : input = .timer ⟨s.scope.height, m.round, .prevote⟩) :
      Act s w input m (Machine.precommitting s w m.round .nil)
        { m with step := .precommit }
  /-- Lock the proposed block, and remember it as valid. -/
  | lock (m : Machine) (proposal : Proposal) (pinned : Pinned)
      (step : m.step = .prevote) (held : m.proposal? = some proposal)
      (pins : pinned = ⟨m.round, proposal.body.hash, proposal.body.block⟩)
      (unseen : (m.log.getOrFresh m.round).quorumSeen = false)
      (majority : m.prevoteMajority? m.round = some pinned.hash)
      (valid : m.verdict s w pinned.hash pinned.block = true) (m' : Machine)
      (seen : m' = { (m.judged s w pinned.hash pinned.block).sawQuorum m.round
        with locked := some pinned }) :
      Act s w input m
        (m'.scheduling s m.round (.precommitWait pinned.hash)
          ++ [.emit (.quorumReached m.round pinned.hash .prevote)])
        { m'.armed m.round .precommitWait with valid := some pinned }
  /-- Remember the proposed block as valid, too late to lock it. -/
  | remember (m : Machine) (proposal : Proposal) (pinned : Pinned)
      (step : m.step = .precommit) (held : m.proposal? = some proposal)
      (pins : pinned = ⟨m.round, proposal.body.hash, proposal.body.block⟩)
      (unseen : (m.log.getOrFresh m.round).quorumSeen = false)
      (majority : m.prevoteMajority? m.round = some pinned.hash)
      (valid : m.verdict s w pinned.hash pinned.block = true) :
      Act s w input m []
        { (m.judged s w pinned.hash pinned.block).sawQuorum m.round with
          valid := some pinned }
  /-- Drop a proposal that the majority is not for. -/
  | discard (m : Machine) (proposal : Proposal) (majority : BlockHash)
      (step : m.step = .prevote) (held : m.proposal? = some proposal)
      (other : m.prevoteMajority? m.round = some majority)
      (real : majority.isNil = false)
      (differs : proposal.body.hash ≠ majority) :
      Act s w input m [.emit (.proposalReclaimed m.round majority)]
        { m with log := m.log.put (m.log.getOrFresh m.round).discard }
  /-- Arm a timer, and do nothing else. -/
  | wait (m : Machine) (kind : TimerKind) (waits : Waits s m kind) :
      Act s w input m (m.scheduling s m.round kind) (m.armed m.round kind.slot)
  /-- Decide the proposed block, and arm the wait before the height ends. -/
  | decideBlock (m : Machine) (proposal : Proposal) (pinned : Pinned)
      (started : m.step ≠ .idle) (undecided : m.decision = none)
      (held : m.proposal? = some proposal)
      (pins : pinned = ⟨m.round, proposal.body.hash, proposal.body.block⟩)
      (majority : m.precommitMajority? m.round = some pinned.hash)
      (valid : m.verdict s w pinned.hash pinned.block = true) (m' : Machine)
      (decided : m' = { m.judged s w pinned.hash pinned.block with
        decision := some pinned }) :
      Act s w input m
        (.emit (.quorumReached m.round pinned.hash .precommit)
          :: m'.scheduling s m.round .endCommitWait)
        (m'.armed m.round .endCommitWait)
  /-- End the round and hand nothing over. -/
  | finish (m : Machine) (kind : TimerKind) (started : m.step ≠ .idle)
      (unfinished : m.step ≠ .endCommit)
      (fired : input = .timer ⟨s.scope.height, m.round, kind⟩)
      (ends : kind = .precommit ∨ kind = .endCommitWait) :
      Act s w input m [.emit (.stepChanged s.scope.height m.round .endCommit)]
        { m with step := .endCommit }
  /-- End the round, and hand over the decided block. -/
  | complete (m : Machine) (kind : TimerKind) (decision : Pinned)
      (certificate : Certificate) (started : m.step ≠ .idle)
      (unfinished : m.step ≠ .endCommit)
      (fired : input = .timer ⟨s.scope.height, m.round, kind⟩)
      (ends : kind = .precommit ∨ kind = .endCommitWait)
      (decided : m.decision = some decision)
      (accepted : w.validate decision.block = .ok ())
      (certified : m.certificateOf? s decision.round = some certificate) :
      Act s w input m
        [.emit (.stepChanged s.scope.height m.round .endCommit),
          .emit (.completed decision.block certificate)]
        { m with step := .endCommit }
  /-- Tell that a timer was processed. -/
  | report (m : Machine) (timer : Timer) (step : Step)
      (fired : input = .timer timer)
      (guards : timer.kind.guarded? = some step) :
      Act s w input m [.emit (.timerProcessed timer.round step)] m

/-- Acts one after the other, and all they ask for. -/
inductive Acts [Crypto] (s : Setup) (w : World) (input : Input) :
    Machine → List Effect → Machine → Prop
  | rest (m : Machine) : Acts s w input m [] m
  | act {m m' m'' : Machine} {es es' : List Effect} :
      Act s w input m es m' → Acts s w input m' es' m'' →
      Acts s w input m (es ++ es') m''

-- ==================================================== acts in sequence

variable [Crypto] {s : Setup} {w : World} {input : Input}

/-- One act is all that is done. -/
theorem Acts.single {m m' : Machine} {es : List Effect}
    (h : Act s w input m es m') :
    Acts s w input m es m' := by
  rw [← List.append_nil es]
  exact .act h (.rest m')

/-- What is asked for later stands behind. -/
theorem Acts.trans {m m' m'' : Machine} {es es' : List Effect}
    (h : Acts s w input m es m') (h' : Acts s w input m' es' m'') :
    Acts s w input m (es ++ es') m'' := by
  induction h with
  | rest m => exact h'
  | act first _ ih =>
    rw [List.append_assoc]
    exact .act first (ih h')

namespace Work

/-- Acts lead from one state of the work to another. -/
def Reaches (s : Setup) (w : World) (input : Input) (k k' : Work) : Prop :=
  ∃ es, k'.effects = k.effects ++ es ∧ Acts s w input k.machine es k'.machine

theorem Reaches.refl (k : Work) : Reaches s w input k k :=
  ⟨[], (List.append_nil _).symm, .rest _⟩

/-- Work is reached in stages. -/
theorem Reaches.trans {k k' k'' : Work} (h : Reaches s w input k k')
    (h' : Reaches s w input k' k'') : Reaches s w input k k'' := by
  obtain ⟨es, asked, acts⟩ := h
  obtain ⟨es', asked', acts'⟩ := h'
  refine ⟨es ++ es', ?_, acts.trans acts'⟩
  rw [asked', asked, List.append_assoc]

/-- One act leads to any work that has its machine and asked for its effects
last. -/
theorem Reaches.of_act {k k' : Work} {es : List Effect} {m : Machine}
    (act : Act s w input k.machine es m) (hm : k'.machine = m)
    (asked : k'.effects = k.effects ++ es) : Reaches s w input k k' :=
  ⟨es, asked, hm ▸ .single act⟩

/-- What goes on after an attempt without a fault goes on by acts. -/
theorem Reaches.andThen {k : Work} {a : Attempt} {next : Work → Attempt}
    (h : Reaches s w input k a.1)
    (h' : a.2 = .ok () → Reaches s w input a.1 (next a.1).1) :
    Reaches s w input k (a.andThen next).1 := by
  obtain ⟨k', result⟩ := a
  cases result with
  | error fault => exact h
  | ok _ => exact h.trans (h' rfl)

end Work

end Quorum
