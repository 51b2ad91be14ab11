/-
What does not ask for a verdict does not depend on the memory of verdicts.

A machine looks into its memory in one place, where it judges a block
(`Work.judge`), and no rule reads a verdict in any other way. So everything
else that a machine does, from casting a vote to taking in a claim, it does the
same with any other memory, which it leaves alone. One lemma for each function
says so: given another memory (`Work.recalling`), what the function does is what
it did, with that memory (`Work.recalled`).
-/
import Quorum.Proofs.Machine.Handling

namespace Quorum

-- ======================================================== another memory

/-- The machine with another memory of verdicts. -/
def Machine.recalling (m : Machine) (memory : VerdictCache) : Machine :=
  { m with verdicts := memory }

namespace Work

/-- The work with another memory of verdicts; what was asked for is the same. -/
def recalling (k : Work) (memory : VerdictCache) : Work :=
  { k with machine := k.machine.recalling memory }

/-- What was done to the work, done with another memory. -/
def recalled {α : Type} (memory : VerdictCache) (a : Work × α) : Work × α :=
  (a.1.recalling memory, a.2)

section

variable {memory : VerdictCache}

/-- The work that was reached has the other memory. -/
theorem recalled_fst {α : Type} (a : Work × α) :
    (recalled memory a).1 = a.1.recalling memory := rfl

/-- What comes out beside the work is the same. -/
theorem recalled_snd {α : Type} (a : Work × α) : (recalled memory a).2 = a.2 := rfl

/-- A choice that does not look at the memory is made alike. -/
theorem recalled_ite {α : Type} {c : Prop} [Decidable c] {a b : Work × α} :
    recalled memory (if c then a else b)
      = if c then recalled memory a else recalled memory b := by
  split <;> rfl

/-- What does the same with any memory leaves its own alone. -/
theorem verdicts_of_blind {α : Type} {f : Work → Work × α} {k : Work}
    (blind : ∀ memory, f (k.recalling memory) = recalled memory (f k)) :
    (f k).1.machine.verdicts = k.machine.verdicts :=
  congrArg (fun a => a.1.machine.verdicts) (blind k.machine.verdicts)

/-- An attempt goes on alike if its next part does: whether there was a fault is not
the memory's business. -/
theorem recalled_andThen {a : Attempt} {next : Work → Attempt}
    (same : ∀ k : Work, next (k.recalling memory) = recalled memory (next k)) :
    Attempt.andThen (recalled memory a) next = recalled memory (a.andThen next) := by
  obtain ⟨k, result⟩ := a
  cases result with
  | error fault => rfl
  | ok _ => exact same k

end

-- ================================================================= rules

section

variable {s : Setup} {w : World} (k : Work) (memory : VerdictCache)

/-- The proposal is read off the log. -/
theorem proposal?_recalling :
    (k.recalling memory).machine.proposal? = k.machine.proposal? := rfl

/-- A slot is looked up in the log as well. -/
theorem arm_recalling (round : Round) (kind : TimerKind) :
    (k.recalling memory).arm s round kind = recalled memory (k.arm s round kind) := by
  unfold arm
  rw [recalled_ite]
  rfl

/-- A prevote is entered with a hash. Whether the block behind it passes was asked
before. -/
theorem enterPrevote_recalling (round : Round) (hash : BlockHash) :
    (k.recalling memory).enterPrevote s w round hash
      = recalled memory (k.enterPrevote s w round hash) := by
  unfold enterPrevote
  rw [recalled_ite, castVote_eq, castVote_eq]
  rfl

/-- A precommit is entered with the hash its timer was armed for. -/
theorem enterPrecommit_recalling (round : Round) (hash : BlockHash) :
    (k.recalling memory).enterPrecommit s w round hash
      = recalled memory (k.enterPrecommit s w round hash) := by
  unfold enterPrecommit
  rw [recalled_ite, castVote_eq, castVote_eq]
  rfl

/-- How long to wait for prevotes depends on their power. -/
theorem prevoteWaitRule_recalling :
    (k.recalling memory).prevoteWaitRule s = recalled memory (k.prevoteWaitRule s) := by
  unfold prevoteWaitRule
  rw [recalled_ite, ← arm_recalling]
  rfl

theorem precommitWaitRule_recalling :
    (k.recalling memory).precommitWaitRule s
      = recalled memory (k.precommitWaitRule s) := by
  unfold precommitWaitRule
  rw [recalled_ite, ← arm_recalling]
  rfl

/-- A majority against the proposal is one of hashes. The block it is for need not
even be there, so nothing is judged. -/
theorem otherMajorityRule_recalling :
    (k.recalling memory).otherMajorityRule s
      = recalled memory (k.otherMajorityRule s) := by
  have majorities : (k.recalling memory).machine.prevoteMajority?
      (k.recalling memory).machine.round
        = k.machine.prevoteMajority? k.machine.round := rfl
  unfold otherMajorityRule
  rw [majorities, proposal?_recalling, recalled_ite]
  cases k.machine.prevoteMajority? k.machine.round with
  | none => rfl
  | some majority =>
    dsimp only
    rw [recalled_ite, ← arm_recalling]
    cases k.machine.proposal? with
    | none => rfl
    | some proposal =>
      dsimp only
      rw [recalled_ite]
      rfl

/-- What is locked has been judged. -/
theorem lock_recalling (pinned : Pinned) :
    (k.recalling memory).lock s pinned = (k.lock s pinned).recalling memory := by
  have locks := arm_recalling (s := s)
    (k.update fun m => { m with locked := some pinned }) memory pinned.round
    (.precommitWait pinned.hash)
  exact congrArg (fun a => a.1.emit (.quorumReached pinned.round pinned.hash .prevote))
    locks

/-- So has what is remembered as valid. -/
theorem actOnQuorum_recalling (pinned : Pinned) :
    (k.recalling memory).actOnQuorum s pinned
      = (k.actOnQuorum s pinned).recalling memory := by
  unfold actOnQuorum
  -- the mark is set first, and what follows does not ask how
  generalize marked : (k.updateRound pinned.round fun l => { l with quorumSeen := true })
    = k'
  have marks : (k.recalling memory).updateRound pinned.round
      (fun l => { l with quorumSeen := true }) = k'.recalling memory := marked ▸ rfl
  have step : (k'.recalling memory).machine.step = k'.machine.step := rfl
  rw [marks]
  dsimp only
  rw [lock_recalling, step]
  split <;> rfl

/-- So has what is decided. -/
theorem decideOn_recalling (pinned : Pinned) :
    (k.recalling memory).decideOn s pinned
      = (k.decideOn s pinned).recalling memory := by
  have ends := arm_recalling (s := s)
    ((k.update fun m => { m with decision := some pinned }).emit
      (.quorumReached pinned.round pinned.hash .precommit)) memory pinned.round
    .endCommitWait
  exact congrArg Prod.fst ends

/-- Before a block is handed over the chain is asked once more, and not the
memory. -/
theorem complete_recalling (decision : Pinned) :
    (k.recalling memory).complete s w decision
      = recalled memory (k.complete s w decision) := by
  have certificate : (k.recalling memory).machine.certificateOf? s decision.round
      = k.machine.certificateOf? s decision.round := rfl
  unfold complete
  rw [certificate]
  cases w.validate decision.block with
  | error fault => rfl
  | ok _ => cases k.machine.certificateOf? s decision.round <;> rfl

/-- A claim is recorded in a tally and answered from it. -/
theorem recordClaim_recalling (m : Machine) (log : RoundLog) (body : Majority) :
    Machine.recordClaim s w (m.recalling memory) log body
      = ((Machine.recordClaim s w m log body).1.recalling memory,
        (Machine.recordClaim s w m log body).2) := by
  unfold Machine.recordClaim
  cases log.tally? body.kind with
  | none => rfl
  | some tally =>
    dsimp only
    cases tally.addClaim body.validator body.hash <;> rfl

end

-- ====================================================== rounds and timers

section

variable [Crypto] {s : Setup} {w : World} (k : Work) (memory : VerdictCache)

/-- The valid block is proposed again as it is, and a new one comes from the
chain. -/
theorem proposeBlock_recalling (round : Round) :
    (k.recalling memory).proposeBlock s w round
      = (k.proposeBlock s w round).recalling memory := by
  have offers : blockToPropose s w (k.recalling memory).machine
      = blockToPropose s w k.machine := rfl
  unfold proposeBlock
  rw [offers]
  cases blockToPropose s w k.machine with
  | ok offered => rfl
  | error fault =>
    exact congrArg Prod.fst (arm_recalling
      (k.emit (.faultOccurred (.block fault))) memory round .propose)

/-- Whose turn it is depends on height, round and validators. -/
theorem openRound_recalling (round : Round) :
    (k.recalling memory).openRound s w round
      = (k.openRound s w round).recalling memory := by
  have enters : ((k.recalling memory).emit
        (.roundStarted s.scope.height round)).setStep s .propose
      = ((k.emit (.roundStarted s.scope.height round)).setStep s
        .propose).recalling memory := rfl
  unfold openRound
  rw [enters]
  dsimp only
  rw [proposeBlock_recalling, arm_recalling]
  split <;> rfl

/-- A round begins in the log. -/
theorem startRound_recalling (round : Round) :
    (k.recalling memory).startRound s w round
      = recalled memory (k.startRound s w round) := by
  have moves : (k.recalling memory).machine.log.setRound round
      = k.machine.log.setRound round := rfl
  unfold startRound
  rw [moves]
  cases k.machine.log.setRound round with
  | error fault => rfl
  | ok log =>
    exact congrArg done (openRound_recalling
      (k.update fun m => { m with log := log, round := round }) memory round)

/-- A later round is followed for the power that is ahead there. -/
theorem followRule_recalling (round : Round) :
    (k.recalling memory).followRule s w round
      = recalled memory (k.followRule s w round) := by
  unfold followRule
  rw [recalled_ite, ← startRound_recalling]
  rfl

/-- The end of a round hands over or begins the next, both of which are blind. -/
theorem enterEndCommit_recalling (round : Round) :
    (k.recalling memory).enterEndCommit s w round
      = recalled memory (k.enterEndCommit s w round) := by
  have decisions : (k.recalling memory).machine.decision = k.machine.decision := rfl
  unfold enterEndCommit
  rw [recalled_ite, decisions]
  cases k.machine.decision with
  | none =>
    dsimp only
    rw [← startRound_recalling]
    rfl
  | some decision =>
    dsimp only
    rw [← complete_recalling]
    rfl

/-- What a timer does is entering a step. -/
theorem expire_recalling (round : Round) (kind : TimerKind) :
    (k.recalling memory).expire s w round kind
      = recalled memory (k.expire s w round kind) := by
  cases kind with
  | propose =>
    unfold expire
    rw [recalled_ite, enterPrevote_recalling]
    rfl
  | prevote =>
    unfold expire
    rw [recalled_ite, enterPrecommit_recalling]
    rfl
  | precommit => exact enterEndCommit_recalling k memory round
  | precommitWait hash =>
    exact congrArg (done ·.1) (enterPrecommit_recalling k memory round hash)
  | endCommitWait => exact enterEndCommit_recalling k memory round

/-- Whether a timer is in time depends on height, round and step. -/
theorem takeTimer_recalling (timer : Timer) :
    (k.recalling memory).takeTimer s w timer
      = recalled memory (k.takeTimer s w timer) := by
  unfold takeTimer
  rw [recalled_ite, expire_recalling, recalled_andThen]
  · rfl
  · intro k'
    unfold reportTimer
    cases timer.kind.guarded? <;> rfl

-- ============================================================== messages

/-- A proposal is taken up unjudged. -/
theorem addProposal_recalling (proposal : Proposal) :
    (k.recalling memory).addProposal s proposal
      = recalled memory (k.addProposal s proposal) := by
  have refusal : (k.recalling memory).machine.proposalRefusal? s proposal
      = k.machine.proposalRefusal? s proposal := rfl
  unfold addProposal
  rw [refusal]
  cases k.machine.proposalRefusal? s proposal <;> rfl

/-- A vote is for a hash, and is counted whatever is known of the block. -/
theorem addVote_recalling (vote : Vote) :
    (k.recalling memory).addVote s w vote = recalled memory (k.addVote s w vote) := by
  have counts : (k.recalling memory).machine.log.addVote s.scope vote
      = k.machine.log.addVote s.scope vote := rfl
  unfold addVote
  cases Machine.voteRefusal? s vote with
  | some fault => rfl
  | none =>
    dsimp only
    rw [counts]
    cases (k.machine.log.addVote s.scope vote).2 with
    | ok _ => rfl
    | error fault => cases fault <;> rfl

/-- A claim is for a hash too. -/
theorem addClaim_recalling (m : Machine) (claim : Claim) :
    (m.recalling memory).addClaim s w claim
      = ((m.addClaim s w claim).1.recalling memory, (m.addClaim s w claim).2) := by
  have opens : (m.recalling memory).log.openFor? claim.body.round claim.body.validator
      = m.log.openFor? claim.body.round claim.body.validator := rfl
  unfold Machine.addClaim
  dsimp only
  cases Machine.claimRefusal? s claim with
  | some fault => rfl
  | none =>
    dsimp only
    rw [opens]
    cases m.log.openFor? claim.body.round claim.body.validator with
    | none => rfl
    | some log =>
      exact recordClaim_recalling memory { m with log := log }
        (log.getOrFresh claim.body.round) claim.body

/-- Its answer goes out as before. -/
theorem takeClaim_recalling (claim : Claim) :
    (k.recalling memory).takeClaim s w claim
      = recalled memory (k.takeClaim s w claim) := by
  have claims : (k.recalling memory).machine.addClaim s w claim
      = ((k.machine.addClaim s w claim).1.recalling memory,
        (k.machine.addClaim s w claim).2) :=
    addClaim_recalling memory k.machine claim
  unfold takeClaim
  rw [claims]
  dsimp only
  cases (k.machine.addClaim s w claim).2 with
  | error fault => rfl
  | ok answer => cases answer <;> rfl

/-- Votes are passed on from the tally. -/
theorem takeHoldings_recalling (holdings : Holdings) :
    (k.recalling memory).takeHoldings s holdings
      = recalled memory (k.takeHoldings s holdings) := by
  have answers : (k.recalling memory).machine.answer s holdings
      = k.machine.answer s holdings := rfl
  unfold takeHoldings
  rw [answers]
  cases k.machine.answer s holdings with
  | error fault => rfl
  | ok votes =>
    dsimp only
    rw [foldl_forward, foldl_forward]
    rfl

end

end Work

end Quorum
