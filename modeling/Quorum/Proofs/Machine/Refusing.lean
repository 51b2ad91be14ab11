/-
What a refused message leaves behind.

A message is refused before anything is changed, with two exceptions. A
vote against an earlier one of its validator is refused and kept as
evidence. And a vote may come for a round of which there is no record yet:
the round is opened for it, at the charge of its validator if the round is
far ahead, and only then the power it states is compared with the
validator's. If that is the wrong one, the vote is refused, but the round
stays open and the charge is made. No other refusal of any message comes
that late: where the round was there before, opening it changes nothing,
and a round just opened has nothing in it that a vote or a claim could be
in conflict with.

What the rules fail with afterwards is no refusal, so a refused message
never gets as far as the rules.
-/
import Quorum.Proofs.Machine.Failing
import Quorum.Proofs.Machine.Plain
import Quorum.Proofs.Record.Height

namespace Quorum

/-- Where what comes next fails by the rules only, a refusal came before. -/
theorem Attempt.eq_of_rejected {a : Attempt} {next : Work → Attempt}
    {fault : Fault} (rules : ∀ k, (next k).FailsWith OfRules)
    (failed : (a.andThen next).2 = .error fault)
    (rejects : fault.isRejection = true) :
    a.andThen next = a ∧ a.2 = .error fault := by
  obtain ⟨k, result⟩ := a
  cases result with
  | error other => exact ⟨rfl, failed⟩
  | ok _ =>
    have fatal := (rules k fault failed).isRejection
    rw [rejects] at fatal
    cases fatal

theorem Work.machine_convict (w : World) (k : Work) (fault : Fault) :
    ∃ evidence,
      (k.convict w fault).machine = { k.machine with evidence := evidence } := by
  cases fault with
  | conflict first second => exact ⟨_, rfl⟩
  | _ => exact ⟨_, rfl⟩

section

variable [Crypto] {s : Setup} {w : World} {m : Machine} {fault : Fault}

/-- A claim that is refused changes nothing. -/
theorem Machine.addClaim_refused {claim : Claim}
    (refused : (m.addClaim s w claim).2 = .error fault) :
    (m.addClaim s w claim).1 = m := by
  cases claiming_addClaim s w m claim with
  | barred _ same => exact same
  | recorded _ _ _ _ _ _ _ answers => cases refused.symm.trans answers
  | changed opened t first _ opens found claimed same =>
    cases here : m.log.get? claim.body.round with
    | some l =>
      rw [HeightLog.openFor?_of_exists here] at opens
      cases opens
      exact same
    | none =>
      -- in a round just opened nobody has claimed anything
      unfold HeightLog.getOrFresh at found
      rw [HeightLog.get?_openFor? here opens] at found
      rw [HeightLog.tally?_fresh found] at claimed
      cases claimed

/-- What a refused vote may leave behind. -/
inductive VoteLeaves (m : Machine) (vote : Vote) (fault : Fault) (m' : Machine) :
    Prop
  /-- Evidence, or nothing. -/
  | evidence (evidence : List Evidence)
      (same : m' = { m with evidence := evidence })
  /-- A round opened for it, when it states another power than its validator
  has. -/
  | round (opened : HeightLog) (absent : m.log.get? vote.body.round = none)
      (opens : m.log.openFor? vote.body.round vote.body.validator = some opened)
      (mismatch : ∃ power, fault = .vote
        (.powerMismatch vote.body.validator vote.body.power power))
      (same : m' = { m with log := opened })

theorem kind_ne_null_of_voteRefusal? {vote : Vote}
    (sound : Machine.voteRefusal? s vote = none) : vote.body.kind ≠ .null := by
  intro null
  unfold Machine.voteRefusal? at sound
  dsimp only at sound
  rw [if_pos null] at sound
  split at sound <;> cases sound

theorem height_of_voteRefusal? {vote : Vote}
    (sound : Machine.voteRefusal? s vote = none) :
    vote.body.height = s.scope.height := by
  by_contra away
  unfold Machine.voteRefusal? at sound
  dsimp only at sound
  rw [if_pos away] at sound
  cases sound

/-- A vote of this height that its validator signed is counted. -/
theorem Machine.voteRefusal?_eq_none {vote : Vote}
    (height : vote.body.height = s.scope.height) (counts : vote.body.kind ≠ .null)
    (signed : vote.verify = true) : voteRefusal? s vote = none := by
  unfold voteRefusal?
  dsimp only
  rw [if_neg (not_not.2 height), if_neg counts, signed]
  rfl

/-- A message that is refused is not followed by the rules. -/
theorem Machine.handle_of_takeMessage {message : Message} {k : Work}
    (refused : (Work.ofMachine m).takeMessage s w message = (k, .error fault)) :
    m.handle s w (.message message) = ⟨k.machine, k.effects, .error fault⟩ := by
  unfold handle Work.run Work.apply
  dsimp only
  rw [refused, Attempt.andThen_error]

/-- A vote that is turned away before it is counted changes nothing. -/
theorem Machine.handle_vote_barred {vote : Vote}
    (barred : voteRefusal? s vote = some fault) :
    ∃ fault, m.handle s w (.message (.vote vote)) = ⟨m, [], .error fault⟩
      ∧ fault.isRejection = true ∧ fault.isEvidence = false := by
  by_cases ours : (Message.vote vote).height = s.scope.height
  · have named : fault.isRejection = true ∧ fault.isEvidence = false := by
      unfold voteRefusal? at barred
      dsimp only at barred
      repeat' split at barred
      all_goals cases barred
      all_goals exact ⟨rfl, rfl⟩
    refine ⟨fault, handle_of_takeMessage (k := Work.ofMachine m) ?_, named⟩
    unfold Work.takeMessage Work.addVote
    rw [if_neg (not_not.2 ours)]
    dsimp only
    rw [barred]
    rfl
  · have taken : (Work.ofMachine m).takeMessage s w (.vote vote)
        = (Work.ofMachine m).fail
          (.message (.heightMismatch s.scope.height vote.body.height)) :=
      if_pos ours
    exact ⟨_, handle_of_takeMessage taken, rfl, rfl⟩

/-- A vote that is refused when it is counted leaves what counting it leaves, and
evidence if it is in conflict with another. -/
theorem Machine.handle_vote_refused {vote : Vote}
    (sound : voteRefusal? s vote = none)
    (refused : (m.log.addVote s.scope vote).2 = .error fault) :
    m.handle s w (.message (.vote vote))
      = ⟨{ m with
          log := (m.log.addVote s.scope vote).1
          evidence := m.evidence ++ convictions w (.error fault) },
        [], .error fault⟩ := by
  have ours : ¬(Message.vote vote).height ≠ s.scope.height :=
    not_not.2 (height_of_voteRefusal? sound)
  have taken : (Work.ofMachine m).takeMessage s w (.vote vote)
      = (⟨{ m with
          log := (m.log.addVote s.scope vote).1
          evidence := m.evidence ++ convictions w (.error fault) }, []⟩,
        .error fault) := by
    unfold Work.takeMessage Work.addVote
    rw [if_neg ours]
    dsimp only [Work.ofMachine]
    rw [sound]
    dsimp only
    rw [refused]
    cases fault <;>
      simp [Work.convict, Work.fail, Work.update, Attempt.andThen, convictions]
  exact handle_of_takeMessage taken

/-- A proposal of this height that is refused changes nothing. -/
theorem Machine.handle_proposal_refused {p : Proposal}
    (ours : p.body.height = s.scope.height)
    (refused : m.proposalRefusal? s p = some fault) :
    m.handle s w (.message (.proposal p)) = ⟨m, [], .error fault⟩ := by
  have ours : (Message.proposal p).height = s.scope.height := ours
  refine handle_of_takeMessage (k := Work.ofMachine m) ?_
  unfold Work.takeMessage Work.addProposal
  rw [if_neg (not_not.2 ours)]
  dsimp only [Work.ofMachine]
  rw [refused]
  rfl

/-- A proposal that is refused changes nothing, whatever is wrong with it. -/
theorem Machine.handle_proposal_barred {p : Proposal}
    (barred : m.proposalRefusal? s p = some fault) :
    ∃ fault, m.handle s w (.message (.proposal p)) = ⟨m, [], .error fault⟩
      ∧ fault.isRejection = true := by
  by_cases ours : p.body.height = s.scope.height
  · have refusal : Refusal m.log p.body.round p.body.proposer fault :=
      refusal_of_proposalRefusal? barred
    exact ⟨fault, handle_proposal_refused ours barred, refusal.rejects⟩
  · have taken : (Work.ofMachine m).takeMessage s w (.proposal p)
        = (Work.ofMachine m).fail
          (.message (.heightMismatch s.scope.height p.body.height)) :=
      if_pos ours
    exact ⟨_, handle_of_takeMessage taken, rfl⟩

theorem Work.addVote_refused {k : Work} {vote : Vote}
    (refused : (k.addVote s w vote).2 = .error fault) :
    VoteLeaves k.machine vote fault (k.addVote s w vote).1.machine := by
  unfold Work.addVote at refused ⊢
  split
  case h_1 => exact .evidence _ rfl
  case h_2 sound =>
    rw [sound] at refused
    dsimp only at refused ⊢
    split
    case h_2 counted =>
      rw [counted] at refused
      cases refused
    case h_1 kept =>
      rw [kept] at refused
      cases refused
      rcases HeightLog.addVote_refused (kind_ne_null_of_voteRefusal? sound) kept
        with same | ⟨absent, opens, power, rfl⟩
      · rw [same]
        obtain ⟨evidence, convicted⟩ := machine_convict w _ fault
        exact .evidence evidence convicted
      · exact .round _ absent opens ⟨power, rfl⟩ rfl

theorem Work.addProposal_refused {k : Work} {proposal : Proposal}
    (refused : (k.addProposal s proposal).2 = .error fault) :
    (k.addProposal s proposal).1.machine = k.machine := by
  unfold Work.addProposal at refused ⊢
  split
  case h_1 => rfl
  case h_2 sound =>
    rw [sound] at refused
    cases refused

theorem Work.takeClaim_refused {k : Work} {claim : Claim}
    (refused : (k.takeClaim s w claim).2 = .error fault) :
    (k.takeClaim s w claim).1.machine = k.machine := by
  unfold takeClaim at refused ⊢
  dsimp only at refused ⊢
  split
  case h_1 kept => exact Machine.addClaim_refused kept
  case h_2 unanswered =>
    rw [unanswered] at refused
    cases refused
  case h_3 answered =>
    rw [answered] at refused
    cases refused

theorem Work.takeHoldings_refused {k : Work} {holdings : Holdings}
    (refused : (k.takeHoldings s holdings).2 = .error fault) :
    (k.takeHoldings s holdings).1.machine = k.machine := by
  unfold takeHoldings at refused ⊢
  split
  case h_1 => rfl
  case h_2 missed =>
    rw [missed] at refused
    cases refused

/-- What a refused message may leave behind is what a refused vote may. -/
theorem Work.takeMessage_refused {k : Work} {message : Message}
    (refused : (k.takeMessage s w message).2 = .error fault)
    (rejects : fault.isRejection = true) :
    (∃ evidence, (k.takeMessage s w message).1.machine
        = { k.machine with evidence := evidence })
      ∨ ∃ vote, message = .vote vote
        ∧ VoteLeaves k.machine vote fault
          (k.takeMessage s w message).1.machine := by
  have same : ∀ {m' : Machine}, m' = k.machine →
      ∃ evidence, m' = { k.machine with evidence := evidence } :=
    fun same => ⟨k.machine.evidence, same⟩
  unfold takeMessage at refused ⊢
  split
  case isTrue => exact Or.inl (same rfl)
  case isFalse here =>
    rw [if_neg here] at refused
    cases message with
    | proposal proposal =>
      obtain ⟨whole, failed⟩ := Attempt.eq_of_rejected
        (fun k => (advance_fails k proposal.body.round).mono fun _ => Regression.ofRules)
        refused rejects
      refine Or.inl (same ?_)
      dsimp only
      rw [whole]
      exact addProposal_refused failed
    | vote vote =>
      obtain ⟨whole, failed⟩ := Attempt.eq_of_rejected
        (fun k => (advance_fails k vote.body.round).mono fun _ => Regression.ofRules)
        refused rejects
      refine Or.inr ⟨vote, rfl, ?_⟩
      dsimp only
      rw [whole]
      exact addVote_refused failed
    | claim claim => exact Or.inl (same (takeClaim_refused refused))
    | holdings holdings => exact Or.inl (same (takeHoldings_refused refused))

/-- A refused message leaves the machine as it was, but for its evidence, with
one exception: a vote that states another power than its validator has, in a
round of which there was no record. Of that there is an empty one now, at the
charge of the validator where the round is far ahead, and nothing else is
changed. -/
theorem rejected_message_leaves_machine_but_for_round {message : Message}
    (failed : (m.handle s w (.message message)).result = .error fault)
    (rejects : fault.isRejection = true) :
    (∃ evidence, (m.handle s w (.message message)).machine
        = { m with evidence := evidence })
      ∨ ∃ vote power opened, message = .vote vote
        ∧ fault = .vote
          (.powerMismatch vote.body.validator vote.body.power power)
        ∧ m.log.get? vote.body.round = none
        ∧ m.log.openFor? vote.body.round vote.body.validator = some opened
        ∧ opened.get? vote.body.round
          = some (RoundLog.fresh vote.body.round)
        ∧ (m.handle s w (.message message)).machine
          = { m with log := opened } := by
  obtain ⟨whole, refused⟩ := Attempt.eq_of_rejected
    (fun k => Work.settle_fails k) failed rejects
  have after : (m.handle s w (.message message)).machine
      = ((Work.ofMachine m).takeMessage s w message).1.machine :=
    congrArg (·.1.machine) whole
  rw [after]
  rcases Work.takeMessage_refused refused rejects with same | ⟨vote, rfl, leaves⟩
  · exact Or.inl same
  · cases leaves with
    | evidence evidence same => exact Or.inl ⟨evidence, same⟩
    | round opened absent opens mismatch same =>
      obtain ⟨power, mismatch⟩ := mismatch
      exact Or.inr ⟨vote, power, opened, rfl, mismatch, absent, opens,
        HeightLog.get?_openFor? absent opens, same⟩

end

open scoped Plain

namespace Plain

/-- The first of four validators, just started. -/
def started : Life := Life.after (setup (address 1)) [(world, .start)]

/-- A prevote of round 5 by the second validator, of power one, that states a
power of two. -/
def misstated : Vote :=
  Signed.make (Signer.plain (address 2)) ⟨1, 5, .nil, 0, address 2, 2, .prevote⟩

/-- What the machine makes of it. -/
def misstatedOutcome : Outcome :=
  started.machine.handle (setup (address 1)) world (.message (.vote misstated))

/-- What it is refused for. -/
def powerFault : Fault := .vote (.powerMismatch (address 2) 2 1)

end Plain

open Plain in
/-- A vote is refused, and the round it opened is there from then on, at the
charge of its validator. -/
theorem refused_vote_opens_round :
    Reachable (setup (address 1)) ownTimers started
      ∧ misstatedOutcome.result = .error powerFault
      ∧ powerFault.isRejection = true
      ∧ started.machine.log.get? 5 = none
      ∧ misstatedOutcome.machine.log.get? 5 = some (RoundLog.fresh 5)
      ∧ started.machine.log.charged (address 2) = 0
      ∧ misstatedOutcome.machine.log.charged (address 2) = 1 := by
  have start : Reachable (setup (address 1)) ownTimers started :=
    leads_run _ _ _ fun turn given =>
      ownTimers_of_untimed (by revert turn; decide)
  refine ⟨start, ?_, rfl, ?_, ?_, ?_, ?_⟩
  all_goals decide +kernel

open Plain in
/-- What that vote leaves behind is the round opened for it. -/
theorem rejected_message_leaves_machine_but_for_round_of_misstated :
    misstatedOutcome.result = .error powerFault
      ∧ powerFault.isRejection = true
      ∧ ∃ opened, started.machine.log.openFor? 5 (address 2) = some opened
        ∧ misstatedOutcome.machine = { started.machine with log := opened } := by
  have failed : misstatedOutcome.result = .error powerFault := by
    decide +kernel
  have opens : misstatedOutcome.machine.log.get? 5 ≠ started.machine.log.get? 5 := by
    decide +kernel
  refine ⟨failed, rfl, ?_⟩
  rcases rejected_message_leaves_machine_but_for_round failed rfl
    with ⟨evidence, same⟩ | ⟨vote, power, opened, named, -, -, opened', -, same⟩
  · have same : misstatedOutcome.machine.log = started.machine.log :=
      congrArg (·.log) same
    exact absurd (congrArg (·.get? 5) same) opens
  · cases named
    exact ⟨opened, opened', same⟩

end Quorum
