/-
What an input can fail with.

There are three sources of faults. The rules fail when they do not settle
or would go back a round, and then nothing can be trusted any more
(`OfRules`, always fatal). A message is refused for what it is, or because
its author has opened too many rounds; that is never fatal (`Refusal`). And
at the end of a decided round the block may no longer be valid, or its
certificate may be missing (`Uncompleted`), of which the second is fatal.

An attempt that goes on after another one fails with the faults of either,
so each function of the machine has one lemma that says what it can fail
with, and `handle_fails` collects them.
-/
import Quorum.Proofs.Machine.Act

namespace Quorum

-- ============================================================ attempts

/-- Whatever fault the attempt ran into is one of these. -/
def Attempt.FailsWith (a : Attempt) (p : Fault → Prop) : Prop :=
  ∀ fault, a.2 = .error fault → p fault

namespace Attempt.FailsWith

variable {a : Attempt} {k : Work} {p q : Fault → Prop}

/-- Work that went well fails with nothing. -/
theorem done (k : Work) : k.done.FailsWith p := nofun

/-- Work that failed did so with the fault it names. -/
theorem fail {fault : Fault} (here : p fault) : (k.fail fault).FailsWith p := by
  intro _ same
  cases same
  exact here

/-- An attempt without a fault fails with nothing. -/
theorem of_ok (fine : a.2 = .ok ()) : a.FailsWith p := by
  intro _ failed
  cases fine.symm.trans failed

/-- What is true of every fault stays true if less is claimed. -/
theorem mono (h : a.FailsWith p) (weaker : ∀ fault, p fault → q fault) :
    a.FailsWith q :=
  fun fault failed => weaker fault (h fault failed)

/-- What goes on fails with the faults of either part. -/
theorem andThen {next : Work → Attempt} (h : a.FailsWith p)
    (h' : a.2 = .ok () → (next a.1).FailsWith p) :
    (a.andThen next).FailsWith p := by
  obtain ⟨k, result⟩ := a
  cases result with
  | error fault => exact h
  | ok _ => exact h' rfl

end Attempt.FailsWith

-- =============================================================== rules

/-- The faults of the rules themselves. -/
inductive OfRules : Fault → Prop
  | unsettled (passes : Nat) : OfRules (.unsettled passes)
  | regression (current requested : Round) :
      OfRules (.roundRegression current requested)

/-- When the rules fail it is nobody's message that is to blame. -/
theorem OfRules.isRejection {fault : Fault} (h : OfRules fault) :
    fault.isRejection = false := by
  cases h <;> rfl

/-- The one of them that is met before any pass is run. -/
inductive Regression : Fault → Prop
  | back (current requested : Round) :
      Regression (.roundRegression current requested)

/-- To go back a round is one of the two ways. -/
theorem Regression.ofRules {fault : Fault} (h : Regression fault) :
    OfRules fault := by
  cases h with
  | back current requested => exact .regression current requested

namespace Work

variable {s : Setup} {w : World}

/-- Passes are stopped at the limit, and the fault says which. -/
theorem passes_fails (limit left : Nat) (k : Work) :
    (passes s w limit left k).FailsWith (· = .unsettled limit) := by
  induction left generalizing k with
  | zero => exact .fail rfl
  | succ left ih =>
    unfold passes
    dsimp only
    split
    case isTrue => exact ih _
    case isFalse => exact .done _

/-- The rules fail with nothing but having been stopped. -/
theorem settle_unsettled (k : Work) :
    (k.settle s w).FailsWith (· = .unsettled (passLimit s)) := by
  unfold settle
  split
  case isTrue => exact .done k
  case isFalse => exact passes_fails _ _ k

/-- So the faults of the rules are those of `OfRules`. -/
theorem settle_fails (k : Work) : (k.settle s w).FailsWith OfRules := by
  refine (settle_unsettled k).mono ?_
  rintro _ rfl
  exact .unsettled _

variable [Crypto]

/-- A round fails to begin only where the log would go back. -/
theorem startRound_fails (k : Work) (round : Round) :
    (k.startRound s w round).FailsWith Regression := by
  unfold startRound
  split
  case h_1 fault refused =>
    refine .fail ?_
    unfold HeightLog.setRound at refused
    split at refused
    case isTrue =>
      cases refused
      exact .back _ _
    case isFalse => cases refused
  case h_2 => exact .done _

/-- A round that cannot be gone to is not begun. -/
theorem startRound_failed {k : Work} {round : Round} {fault : Fault}
    (failed : (k.startRound s w round).2 = .error fault) :
    (k.startRound s w round).1 = k := by
  unfold startRound at failed ⊢
  split
  case h_1 => rfl
  case h_2 log moved =>
    rw [moved] at failed
    cases failed

/-- To follow others is to begin their round. -/
theorem followRule_fails (k : Work) (round : Round) :
    (k.followRule s w round).FailsWith Regression := by
  unfold followRule
  split
  case isTrue => exact startRound_fails k round
  case isFalse => exact .done k

/-- To decide never fails, and to follow fails as beginning a round does. -/
theorem advance_fails (k : Work) (round : Round) :
    (k.advance s w round).FailsWith Regression := by
  unfold advance
  split
  case isTrue => exact .done k
  case isFalse =>
    dsimp only
    split
    case isTrue => exact .done _
    case isFalse => exact followRule_fails _ round

end Work

-- ============================================================== timers

/-- Why a decided block is not handed over. -/
inductive Uncompleted (s : Setup) (w : World) (m : Machine) : Fault → Prop
  | invalid (d : Pinned) (decided : m.decision = some d) (fault : BlockFault)
      (refused : w.validate d.block = .error fault) :
      Uncompleted s w m (.block fault)
  | uncertified (d : Pinned) (decided : m.decision = some d)
      (missing : m.certificateOf? s d.round = none) :
      Uncompleted s w m (.chain (.noCertificate d.hash d.round))

namespace Work

variable [Crypto] {s : Setup} {w : World}

/-- Whether a round ends in the next one or hands over a block, it fails with what
that fails with. -/
theorem enterEndCommit_fails_of {p : Fault → Prop} {k : Work} {round : Round}
    (next : k.machine.round = round →
      ((k.setStep s .endCommit).startRound s w (round + 1)).FailsWith p)
    (uncompleted : ∀ fault, Uncompleted s w k.machine fault → p fault) :
    (k.enterEndCommit s w round).FailsWith p := by
  unfold enterEndCommit
  split
  case isTrue => exact .done k
  case isFalse going =>
    split
    case h_1 => exact next (Decidable.not_not.1 fun away => going (Or.inl away))
    case h_2 d decided =>
      unfold complete
      split
      case h_1 fault refused =>
        exact .fail (uncompleted _ (.invalid d decided fault refused))
      case h_2 =>
        split
        case h_1 missing => exact .fail (uncompleted _ (.uncertified d decided missing))
        case h_2 => exact .done _

/-- So it would go back, or a decided block is not handed over. -/
theorem enterEndCommit_fails (k : Work) (round : Round) :
    (k.enterEndCommit s w round).FailsWith fun fault =>
      Regression fault ∨ Uncompleted s w k.machine fault :=
  enterEndCommit_fails_of (fun _ => (startRound_fails _ _).mono fun _ => Or.inl)
    fun _ => Or.inr

/-- A timer fails with nothing but what the end of a round fails with. -/
theorem takeTimer_fails_of {p : Fault → Prop} {k : Work}
    (ends : ∀ round, (k.enterEndCommit s w round).FailsWith p) (timer : Timer) :
    (k.takeTimer s w timer).FailsWith p := by
  unfold takeTimer
  split
  case isTrue => exact .done k
  case isFalse =>
    refine .andThen ?_ fun _ => .done _
    unfold expire
    split
    case h_1 => split <;> exact .done _
    case h_2 => split <;> exact .done _
    case h_3 => exact ends _
    case h_4 => exact .done _
    case h_5 => exact ends _

/-- A timer that is late, or ends a step and no round, cannot fail. -/
theorem takeTimer_fails (k : Work) (timer : Timer) :
    (k.takeTimer s w timer).FailsWith fun fault =>
      Regression fault ∨ Uncompleted s w k.machine fault :=
  takeTimer_fails_of (enterEndCommit_fails k) timer

end Work

-- ============================================================ messages

/-- The author of the input has opened too many rounds ahead of time. -/
def Fault.isSpent : Fault → Bool
  | .vote (.allowanceSpent _ _) => true
  | .claim (.allowanceSpent _ _) => true
  | _ => false

/-- The rules spend no allowance. -/
theorem OfRules.isSpent {fault : Fault} (h : OfRules fault) :
    fault.isSpent = false := by
  cases h <;> rfl

/-- How a message of an author for a round is refused: that is never fatal, and
for an allowance only where the round is closed to the author. -/
structure Refusal (h : HeightLog) (round : Round) (author : Address)
    (fault : Fault) : Prop where
  rejects : fault.isRejection = true
  closed : fault.isSpent = true → h.openFor? round author = none

section

variable {s : Setup} {m : Machine} {h : HeightLog} {round : Round}
  {author : Address} {fault : Fault}

/-- A proposal is refused its place by the round that is there. -/
theorem refusal_of_placeRefusal? {log : RoundLog} {offer : Offer}
    (refused : Machine.placeRefusal? log offer = some fault) :
    Refusal h round author fault := by
  unfold Machine.placeRefusal? at refused
  repeat' split at refused
  all_goals cases refused
  all_goals exact ⟨rfl, nofun⟩

/-- Whatever keeps a vote out of a tally is the vote's own fault. -/
theorem refusal_of_refusal? {s : Scope} {t : Tally} {vote : Vote}
    (refused : t.refusal? s vote = some fault) : Refusal h round author fault := by
  unfold Tally.refusal? at refused
  dsimp only at refused
  repeat' split at refused
  all_goals cases refused
  all_goals exact ⟨rfl, nofun⟩

/-- The same is true of what keeps a claim out. -/
theorem refusal_of_claimed {t : Tally} {peer : Address} {hash : BlockHash}
    (refused : t.addClaim peer hash = .error fault) :
    Refusal h round author fault := by
  unfold Tally.addClaim at refused
  repeat' split at refused
  all_goals cases refused
  all_goals exact ⟨rfl, nofun⟩

/-- A vote is refused for its height or kind, for the allowance, or by the tally; of
these only the second depends on the round being closed. -/
theorem refusal_of_addVote {s : Scope} {vote : Vote}
    (refused : (h.addVote s vote).2 = .error fault) :
    Refusal h vote.body.round vote.body.validator fault := by
  unfold HeightLog.addVote at refused
  dsimp only at refused
  split at refused
  case isTrue =>
    cases refused
    exact ⟨rfl, nofun⟩
  case isFalse =>
    split at refused
    case isTrue =>
      cases refused
      exact ⟨rfl, nofun⟩
    case isFalse =>
      split at refused
      case h_1 closed =>
        cases refused
        exact ⟨rfl, fun _ => closed⟩
      case h_2 =>
        split at refused
        case h_1 =>
          cases refused
          exact ⟨rfl, nofun⟩
        case h_2 t _ =>
          unfold Tally.add at refused
          cases kept : t.refusal? s vote with
          | none =>
            rw [kept] at refused
            cases refused
          | some other =>
            rw [kept] at refused
            cases refused
            exact refusal_of_refusal? kept

variable [Crypto]

/-- A proposal is refused for what it says: height, signature, hash, block or
proposer. -/
theorem refusal_of_proposalFault? {proposal : Proposal}
    (refused : m.proposalFault? s proposal = some fault) :
    Refusal h round author fault := by
  unfold Machine.proposalFault? Machine.validRoundFault? at refused
  dsimp only at refused
  repeat' split at refused
  all_goals cases refused
  all_goals exact ⟨rfl, nofun⟩

/-- Or for its round, which may be another one or taken. -/
theorem refusal_of_proposalRefusal? {proposal : Proposal}
    (refused : m.proposalRefusal? s proposal = some fault) :
    Refusal h round author fault := by
  unfold Machine.proposalRefusal? at refused
  split at refused
  case h_1 found =>
    cases refused
    exact refusal_of_proposalFault? found
  case h_2 => exact refusal_of_placeRefusal? refused

/-- A vote is refused unread for its height or its signature. -/
theorem refusal_of_voteRefusal? {vote : Vote}
    (refused : Machine.voteRefusal? s vote = some fault) :
    Refusal h round author fault := by
  unfold Machine.voteRefusal? at refused
  dsimp only at refused
  repeat' split at refused
  all_goals cases refused
  all_goals exact ⟨rfl, nofun⟩

/-- A claim is refused unread for more reasons, all its own. -/
theorem refusal_of_claimRefusal? {claim : Claim}
    (refused : Machine.claimRefusal? s claim = some fault) :
    Refusal h round author fault := by
  unfold Machine.claimRefusal? at refused
  dsimp only at refused
  repeat' split at refused
  all_goals cases refused
  all_goals exact ⟨rfl, nofun⟩

/-- A claim is refused unread, for the allowance, or by the tally. -/
theorem refusal_of_addClaim {w : World} {claim : Claim}
    (refused : (m.addClaim s w claim).2 = .error fault) :
    Refusal m.log claim.body.round claim.body.validator fault := by
  unfold Machine.addClaim at refused
  dsimp only at refused
  split at refused
  case h_1 barred =>
    cases refused
    exact refusal_of_claimRefusal? barred
  case h_2 =>
    split at refused
    case h_1 closed =>
      cases refused
      exact ⟨rfl, fun _ => closed⟩
    case h_2 =>
      unfold Machine.recordClaim at refused
      split at refused
      case h_1 => cases refused
      case h_2 =>
        split at refused
        case h_1 claimed =>
          cases refused
          exact refusal_of_claimed claimed
        case h_2 => cases refused

/-- A list of held votes is refused for what it says. -/
theorem refusal_of_answer {holdings : Holdings}
    (refused : m.answer s holdings = .error fault) :
    Refusal h round author fault := by
  unfold Machine.answer at refused
  dsimp only at refused
  split at refused
  case h_1 kept =>
    cases refused
    unfold Machine.holdingsRefusal? at kept
    dsimp only at kept
    repeat' split at kept
    all_goals cases kept
    all_goals exact ⟨rfl, nofun⟩
  case h_2 => split at refused <;> cases refused

end

namespace Work

variable [Crypto] {s : Setup} {w : World}

/-- Taking up a proposal costs no allowance, so the author may be anybody. -/
theorem addProposal_fails {h : HeightLog} {round : Round} {author : Address}
    (k : Work) (proposal : Proposal) :
    (k.addProposal s proposal).FailsWith (Refusal h round author) := by
  unfold addProposal
  split
  case h_1 refused => exact .fail (refusal_of_proposalRefusal? refused)
  case h_2 => exact .done _

/-- Counting a vote fails with a refusal of that vote. -/
theorem addVote_fails (k : Work) (vote : Vote) :
    (k.addVote s w vote).FailsWith
      (Refusal k.machine.log vote.body.round vote.body.validator) := by
  unfold addVote
  split
  case h_1 refused => exact .fail (refusal_of_voteRefusal? refused)
  case h_2 =>
    dsimp only
    split
    case h_1 refused => exact .fail (refusal_of_addVote refused)
    case h_2 => exact .done _

/-- Taking in a claim fails with a refusal of that claim. -/
theorem takeClaim_fails (k : Work) (claim : Claim) :
    (k.takeClaim s w claim).FailsWith
      (Refusal k.machine.log claim.body.round claim.body.validator) := by
  unfold takeClaim
  dsimp only
  split
  case h_1 refused => exact .fail (refusal_of_addClaim refused)
  case h_2 => exact .done _
  case h_3 => exact .done _

/-- Answering costs no allowance either. -/
theorem takeHoldings_fails {h : HeightLog} {round : Round} {author : Address}
    (k : Work) (holdings : Holdings) :
    (k.takeHoldings s holdings).FailsWith (Refusal h round author) := by
  unfold takeHoldings
  split
  case h_1 refused => exact .fail (refusal_of_answer refused)
  case h_2 => exact .done _

/-- A message is refused, or what follows on it fails. -/
theorem takeMessage_fails_of {p : Fault → Prop} {k : Work} {message : Message}
    (refused : ∀ fault, Refusal k.machine.log message.round message.author fault → p fault)
    (proposed : ∀ proposal, message = .proposal proposal →
      ((k.addProposal s proposal).1.advance s w proposal.body.round).FailsWith p)
    (voted : ∀ vote, message = .vote vote →
      ((k.addVote s w vote).1.advance s w vote.body.round).FailsWith p) :
    (k.takeMessage s w message).FailsWith p := by
  unfold takeMessage
  split
  case isTrue => exact .fail (refused _ ⟨rfl, nofun⟩)
  case isFalse =>
    cases message with
    | proposal proposal =>
      exact .andThen ((addProposal_fails k proposal).mono refused)
        fun _ => proposed proposal rfl
    | vote vote =>
      exact .andThen ((addVote_fails k vote).mono refused) fun _ => voted vote rfl
    | claim claim => exact (takeClaim_fails k claim).mono refused
    | holdings holdings => exact (takeHoldings_fails k holdings).mono refused

/-- A message is refused for its own sake, or moves the machine where it cannot
go. -/
theorem takeMessage_fails (k : Work) (message : Message) :
    (k.takeMessage s w message).FailsWith fun fault =>
      Refusal k.machine.log message.round message.author fault ∨ Regression fault :=
  takeMessage_fails_of (fun _ => Or.inl)
    (fun _ _ => (advance_fails _ _).mono fun _ => Or.inr)
    fun _ _ => (advance_fails _ _).mono fun _ => Or.inr

end Work

-- ======================================================== whole inputs

/-- How an input is refused for its own sake. -/
def Refuses (s : Setup) (w : World) (m : Machine) : Input → Fault → Prop
  | .start, fault => fault = .alreadyStarted
  | .message message, fault => Refusal m.log message.round message.author fault
  | .timer _, fault => Uncompleted s w m fault

variable [Crypto] {s : Setup} {w : World}

/-- All that an input can fail with before the rules are run. -/
theorem Work.apply_fails (k : Work) (input : Input) :
    (k.apply s w input).FailsWith fun fault =>
      Regression fault ∨ Refuses s w k.machine input fault := by
  cases input with
  | start =>
    show (k.start s w).FailsWith _
    unfold start
    split
    case isTrue => exact .fail (Or.inr rfl)
    case isFalse =>
      refine .andThen ?_ fun _ => ?_
      · exact (startRound_fails _ 0).mono fun _ => Or.inl
      · exact (advance_fails _ 0).mono fun _ => Or.inl
  | message message =>
    exact (takeMessage_fails _ message).mono fun _ => Or.symm
  | timer timer => exact takeTimer_fails _ timer

/-- All that handling an input can fail with. -/
theorem Machine.handle_fails {m : Machine} {input : Input} {fault : Fault}
    (failed : (m.handle s w input).result = .error fault) :
    OfRules fault ∨ Refuses s w m input fault := by
  have whole : ((Work.ofMachine m).run s w input).FailsWith fun fault =>
      OfRules fault ∨ Refuses s w m input fault := by
    refine .andThen ?_ fun _ => (Work.settle_fails _).mono fun _ => Or.inl
    exact (Work.apply_fails _ input).mono fun _ => Or.imp_left Regression.ofRules
  exact whole fault failed

end Quorum
