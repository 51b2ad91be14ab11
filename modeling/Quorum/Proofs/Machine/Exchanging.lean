/-
What one machine sends, another takes in.

Signing and admission are two paths through the rules with a dozen checks
each. They meet in what is said of a message alone (`Sendable`): it states the
sender's height, name and power; a proposal is by the one whose turn it is,
under its block's own hash, and carries forward an earlier round or none; a list
of votes held has one flag per validator.

The sender's half is an invariant of its life. Votes and lists get these values
where they are signed. A proposal made again takes its block and round from what
the sender remembers as valid, so the block's height was checked when it was
proposed before, and its round has passed (`Proposing.remembered`).

The receiver's half reads the same facts off its checks. What is left of them is
about the receiver: whether it holds a vote of the sender already, whether the
sender may open the round, whether the round has room for the proposal. Behind
the checks nothing fails, because the rules settle in two passes
(`Work.settle_ok`).
-/
import Quorum.Proofs.Machine.Completing
import Quorum.Proofs.Machine.Convicting
import Quorum.Proofs.Machine.Passing

namespace Quorum

-- ================================================ statement vocabulary

/-- What it signs passes for its own. -/
def Signer.Faithful [Crypto] (signer : Signer) : Prop :=
  ∀ message, signer.sign message ≠ []
    ∧ Crypto.verify signer.address message (signer.sign message) = true

/-- Asked for a block of some height, it proposes one of that height. -/
def World.ProposesInPlace (w : World) : Prop :=
  ∀ proposer height block, w.propose proposer height = .ok block → block.height = height

/-- The chain does. -/
theorem Ledger.proposesInPlace [Crypto] (l : Ledger) (now : Millis) :
    (l.world now).ProposesInPlace := by
  intro proposer height block proposed
  obtain ⟨-, rfl⟩ := Ledger.propose_eq_ok_iff.1 proposed
  rfl

/-- What a machine signed for others: what it asked to publish, and the lists of
votes held that it makes on demand or in answer to a claim. -/
inductive Sent [Crypto] (s : Setup) (turns : List (World × Input)) : Message → Prop
  | published {message : Message}
      (asks : .publish message ∈ (Life.after s turns).asked) : Sent s turns message
  | listed {holdings : Holdings} (w : World) (round : Round) (hash : BlockHash)
      (kind : VoteKind)
      (made : (Life.after s turns).machine.holdings s w round hash kind = .ok holdings) :
      Sent s turns (.holdings holdings)
  | answered {holdings : Holdings} (w : World) (claim : Claim)
      (made : ((Life.after s turns).machine.addClaim s w claim).2 = .ok (some holdings)) :
      Sent s turns (.holdings holdings)

/-- A round that its author may not open any more. -/
def HeightLog.Closed (h : HeightLog) (round : Round) (author : Address) : Prop :=
  h.isAhead round = true ∧ h.get? round = none ∧ catchUpAllowance ≤ h.charged author

/-- How a machine takes in what another one sent. -/
def Machine.Takes [Crypto] (s : Setup) (w : World) (m : Machine) : Message → Prop
  /- A vote is recorded, unless one of its validator is held, or the validator may
  not open the round. -/
  | .vote vote =>
    let after := m.handle s w (.message (.vote vote))
    after.result = .ok () ∧ after.machine.log.standing? vote = some vote
      ∨ (∃ first, m.log.standing? vote = some first)
      ∨ m.log.Closed vote.body.round vote.body.validator
  /- A proposal for the current round is held, if that has room for it. -/
  | .proposal proposal =>
    let after := m.handle s w (.message (.proposal proposal))
    m.round = proposal.body.round → m.proposal? = none →
      (∀ majority, m.prevoteMajority? m.round = some majority
        ∨ m.precommitMajority? m.round = some majority → majority = proposal.body.hash) →
      after.result = .ok () ∧ after.machine.proposal? = some proposal
  /- No machine claims a majority. -/
  | .claim _ => False
  /- A list of held votes is answered, whatever it says. -/
  | .holdings holdings =>
    (∃ votes, m.answer s holdings = .ok votes)
      ∧ (m.handle s w (.message (.holdings holdings))).result = .ok ()

-- ======================================================= what is sendable

/-- A ballot of this validator. -/
structure Ballot.Ours (s : Setup) (b : Ballot) : Prop where
  height : b.height = s.scope.height
  validator : b.validator = s.signer.address
  power : s.scope.validators.powerOf? s.signer.address = some b.power
  counts : b.kind ≠ .null

/-- An offer of this validator, in its turn. -/
structure Offer.Ours [Crypto] (s : Setup) (o : Offer) : Prop where
  height : o.height = s.scope.height
  proposer : o.proposer = s.signer.address
  turn : s.scope.validators.proposerAddress s.scope.height o.round = s.signer.address
  named : o.block.hash = o.hash
  carries : Machine.validRoundFault? o = none

/-- A list of held votes of this validator, with a flag for every member. -/
structure Holding.Ours (s : Setup) (h : Holding) : Prop where
  height : h.height = s.scope.height
  validator : h.validator = s.signer.address
  counts : h.kind ≠ .null
  flags : h.held.length = s.scope.validators.size

/-- What is true of a message that this validator signs, wherever it is read. -/
inductive Sendable [Crypto] (s : Setup) : Message → Prop
  | vote (ballot : Ballot) (ours : ballot.Ours s) :
      Sendable s (.vote (Signed.make s.signer ballot))
  | proposal (offer : Offer) (ours : offer.Ours s) :
      Sendable s (.proposal (Signed.make s.signer offer))
  | holdings (holding : Holding) (ours : holding.Ours s) :
      Sendable s (.holdings (Signed.make s.signer holding))

section

variable [Crypto] {s r : Setup} {w : World} {input : Input} {m m' : Machine}
  {es : List Effect}

-- ================================================================ signing

/-- A vote is cast with this validator's name and power. -/
theorem Machine.mem_casting {round : Round} {hash : BlockHash} {kind : VoteKind}
    {message : Message} (real : kind ≠ .null)
    (asks : .publish message ∈ Machine.casting s w round hash kind) : Sendable s message := by
  unfold casting at asks
  split at asks
  case h_1 => cases asks
  case h_2 power member =>
    cases List.mem_singleton.1 asks
    exact .vote _ ⟨rfl, rfl, member, real⟩

/-- A list of held votes is sendable as it is made. -/
theorem Machine.sendable_signHoldings {round : Round} {hash : BlockHash} {kind : VoteKind}
    {held : List Bool} (real : kind ≠ .null)
    (flags : held.length = s.scope.validators.size) :
    Sendable s (.holdings (signHoldings s w round hash kind held)) :=
  .holdings ⟨s.scope.height, round, hash, w.now, s.signer.address, kind, held⟩
    ⟨rfl, rfl, real, flags⟩

omit [Crypto] in
/-- Timers are not published. -/
theorem Machine.not_mem_scheduling {round : Round} {kind : TimerKind} {message : Message} :
    .publish message ∉ m.scheduling s round kind := by
  unfold scheduling
  split
  · exact List.not_mem_nil
  · intro asks
    cases List.mem_singleton.1 asks

/-- What a machine opens a round with is its offer, if it has a block for it. -/
theorem Machine.mem_opening {message : Message}
    (asks : .publish message ∈ (opening s w m m.round).2) :
    s.scope.validators.proposerAddress s.scope.height m.round = s.signer.address
      ∧ ∃ block validRound, Work.blockToPropose s w m = .ok (block, validRound)
        ∧ message = .proposal (Signed.make s.signer (Offer.ofBlock m.round w.now
          s.signer.address validRound s.scope.height block)) := by
  unfold opening at asks
  split at asks
  case isFalse => exact absurd asks not_mem_scheduling
  case isTrue turn =>
    split at asks
    case h_2 =>
      rcases List.mem_cons.1 asks with told | asks
      · cases told
      · exact absurd asks not_mem_scheduling
    case h_1 block validRound made =>
      rcases List.mem_cons.1 asks with told | asks
      · cases told
      · cases List.mem_singleton.1 asks
        exact ⟨turn, block, validRound, made, rfl⟩

/-- It carries forward a round that has passed, or none. -/
theorem Machine.sendable_opening {message : Message}
    (asks : .publish message ∈ (opening s w m m.round).2)
    (remembered : ∀ pin, m.valid = some pin → pin.round < m.round
      ∧ m.prevoteMajority? pin.round = some pin.block.hash) :
    Sendable s message := by
  obtain ⟨turn, block, validRound, made, rfl⟩ := mem_opening asks
  refine .proposal _ ⟨rfl, rfl, turn, rfl, ?_⟩
  have ripe := (own_of_blockToPropose turn remembered made).ripe
  unfold Work.isRipe at ripe
  refine validRoundFault?_eq_none_iff.2 fun valid carried => ?_
  dsimp only [Signed.make, Offer.ofBlock] at ripe carried ⊢
  rw [carried] at ripe
  simp only [Bool.and_eq_true, decide_eq_true_eq] at ripe
  exact ripe.1

omit [Crypto] in
/-- A block that is proposed is of this height, where the one remembered is. -/
theorem Work.placed_of_blockToPropose {block : Block} {validRound : Option Round}
    (made : blockToPropose s w m = .ok (block, validRound))
    (placed : ∀ pin, m.valid = some pin → pin.block.height = s.scope.height)
    (world : w.ProposesInPlace) : block.height = s.scope.height := by
  unfold blockToPropose at made
  split at made
  case h_1 pin valid =>
    cases made
    exact placed pin valid
  case h_2 =>
    split at made
    case h_1 proposed =>
      cases made
      exact world _ _ _ proposed
    case h_2 => cases made

/-- So what is sent on entering the step of prevotes is sendable. -/
theorem Machine.mem_prevoting {round : Round} {hash : BlockHash} {message : Message}
    (asks : .publish message ∈ prevoting s w round hash) : Sendable s message := by
  rcases List.mem_cons.1 asks with told | asks
  · cases told
  rcases List.mem_cons.1 asks with told | asks
  · cases told
  refine mem_casting ?_ asks
  nofun

/-- And on entering that of precommits. -/
theorem Machine.mem_precommitting {round : Round} {hash : BlockHash} {message : Message}
    (asks : .publish message ∈ precommitting s w round hash) : Sendable s message := by
  rcases List.mem_cons.1 asks with told | asks
  · cases told
  rcases List.mem_cons.1 asks with told | asks
  · cases told
  refine mem_casting ?_ asks
  nofun

/-- What an answer to a claim says is sendable. -/
theorem sendable_of_addClaim {claim : Claim} {holdings : Holdings}
    (answers : (m.addClaim s w claim).2 = .ok (some holdings)) :
    Sendable s (.holdings holdings) := by
  obtain ⟨real, held, flags, rfl⟩ := Machine.answer_of_addClaim answers
  exact Machine.sendable_signHoldings real flags

/-- An answer to a claim is a list with a flag for everybody. -/
theorem Machine.mem_answering {claim : Claim} {message : Message}
    (asks : .publish message ∈ answering (m.addClaim s w claim).2) :
    Sendable s message := by
  unfold answering at asks
  split at asks
  case h_1 holdings answers =>
    cases List.mem_singleton.1 asks
    exact sendable_of_addClaim answers
  case h_2 => cases asks

/-- What is true of a sender between any two acts. -/
structure Sending (s : Setup) (turns : List (World × Input)) (m : Machine)
    (asked : List Effect) : Prop where
  proposing : Proposing s turns m asked
  pinned : ∀ pin ∈ m.pins, pin.block.height = s.scope.height
  sendable : ∀ message, .publish message ∈ asked → Sendable s message
  placed : (∀ turn ∈ turns, turn.1.ProposesInPlace) →
    ∀ p, .publish (.proposal p) ∈ asked → p.body.block.height = s.scope.height

/-- What an act signs is sendable. -/
theorem Act.sendable {turns : List (World × Input)} {asked : List Effect}
    (act : Act s w input m es m') (proposing : Proposing s turns m asked)
    {message : Message} (asks : .publish message ∈ es) : Sendable s message := by
  cases act with
  | claim claim => exact Machine.mem_answering asks
  | passOn =>
    obtain ⟨vote, -, told⟩ := List.mem_map.1 asks
    cases told
  | beginRound round log cause moved =>
    rcases List.mem_cons.1 asks with told | asks
    · cases told
    rcases List.mem_cons.1 asks with told | asks
    · cases told
    exact Machine.sendable_opening
      (m := { m with log := log, round := round, step := .propose }) asks
      (proposing.remembered cause moved)
  | prevote => exact Machine.mem_prevoting asks
  | prevoteNothing => exact Machine.mem_prevoting asks
  | precommit => exact Machine.mem_precommitting asks
  | precommitNothing => exact Machine.mem_precommitting asks
  | lock =>
    rcases List.mem_append.1 asks with asks | told
    · exact absurd asks Machine.not_mem_scheduling
    · cases List.mem_singleton.1 told
  | wait => exact absurd asks Machine.not_mem_scheduling
  | decideBlock =>
    rcases List.mem_cons.1 asks with told | asks
    · cases told
    · exact absurd asks Machine.not_mem_scheduling
  | _ => simp at asks

/-- A proposal that an act signs is of the round that the act begins. -/
theorem Act.mem_opening_of_proposal {p : Proposal} (act : Act s w input m es m')
    (asks : .publish (.proposal p) ∈ es) :
    ∃ round log, .publish (.proposal p)
      ∈ (Machine.opening s w { m with log := log, round := round, step := .propose }
        round).2 := by
  have offered : p.body ∈ offersOf es := List.mem_filterMap.2 ⟨_, asks, rfl⟩
  cases act.moves with
  | silent _ offers =>
    rw [offers] at offered
    cases offered
  | votes _ _ offers =>
    rw [offers] at offered
    cases offered
  | begins _ _ _ _ later step =>
    rcases act.of_propose step with ⟨before, same⟩ | ⟨round, log, -, -, -, asked⟩
    · rw [before, same] at later
      exfalso
      grind
    · subst asked
      refine ⟨round, log, ?_⟩
      simpa using asks

/-- What an act sends is sendable, and what it remembers as valid was proposed
here. -/
theorem Sending.keeps {turns : List (World × Input)} {asked : List Effect}
    (h : Sending s (turns ++ [(w, input)]) m asked) (act : Act s w input m es m') :
    Sending s (turns ++ [(w, input)]) m' (asked ++ es) := by
  refine ⟨h.proposing.keeps act, fun pin member => ?_, fun message asks => ?_,
    fun worlds p asks => ?_⟩
  · rcases act.judges.pins pin member with old | ⟨proposal, held, -, block, -⟩
    · exact h.pinned pin old
    · obtain ⟨-, m₀, faultless⟩ := offered_of_proposal? h.proposing.vetted.sound held
      rw [block]
      exact (block_of_proposalFault? faultless).2
  · rcases List.mem_append.1 asks with before | now
    · exact h.sendable message before
    · exact act.sendable h.proposing now
  · rcases List.mem_append.1 asks with before | now
    · exact h.placed worlds p before
    · obtain ⟨round, log, opens⟩ := act.mem_opening_of_proposal now
      obtain ⟨-, block, validRound, made, same⟩ := Machine.mem_opening
        (m := { m with log := log, round := round, step := .propose }) opens
      cases same
      refine Work.placed_of_blockToPropose made (fun pin held => ?_)
        (worlds (w, input) (List.mem_append_right _ (List.mem_singleton_self _)))
      exact h.pinned pin (Machine.mem_pins.2 (Or.inr (Or.inl held)))

/-- By induction on the turns, act by act. -/
theorem sending_after (s : Setup) (turns : List (World × Input)) :
    Sending s turns (Life.after s turns).machine (Life.after s turns).asked := by
  refine Life.after_keeps (P := fun turns m asked => Sending s turns m asked) ?_ ?_ ?_ turns
  · intro turns w input m m' es asked act held
    exact held.keeps act
  · intro turns m asked turn held
    refine ⟨{ held.proposing with vetted := held.proposing.vetted.more turn }, held.pinned,
      held.sendable, fun worlds => held.placed fun earlier taken => worlds earlier ?_⟩
    exact List.mem_append_left _ taken
  · exact ⟨proposing_after s [], nofun, nofun, fun _ => nofun⟩

/-- Whatever a machine is given, all that it signs for others is sendable. -/
theorem Sent.sendable {turns : List (World × Input)} {message : Message}
    (sent : Sent s turns message) : Sendable s message := by
  cases sent with
  | published asks => exact (sending_after s turns).sendable message asks
  | answered w claim made => exact sendable_of_addClaim made
  | listed w round hash kind made =>
    unfold Machine.holdings at made
    split at made
    case isTrue => cases made
    case isFalse real =>
      cases made
      refine Machine.sendable_signHoldings real ?_
      split
      · exact List.length_map _
      · exact List.length_map _

/-- Where its world proposes blocks in place, it does so, too. -/
theorem Sent.placed {turns : List (World × Input)} {p : Proposal}
    (sent : Sent s turns (.proposal p))
    (worlds : ∀ turn ∈ turns, turn.1.ProposesInPlace) :
    p.body.block.height = s.scope.height := by
  cases sent with
  | published asks => exact (sending_after s turns).placed worlds p asks

-- ============================================================== admission

/-- What a faithful signer signs passes. -/
theorem Signer.Faithful.verify {α : Type} [Statement α] {signer : Signer}
    (faithful : signer.Faithful) {body : α} (ours : Statement.author body = signer.address) :
    (Signed.make signer body).verify = true := by
  obtain ⟨some, passes⟩ := faithful (Statement.signBytes body)
  unfold Signed.verify
  rw [Bool.and_eq_true, Bool.not_eq_true', List.isEmpty_eq_false_iff]
  refine ⟨some, ?_⟩
  show Crypto.verify (Statement.author body) _ _ = true
  rw [ours]
  exact passes

/-- Where an input was applied, and the rules settle, it was handled. -/
theorem Machine.handled_of_applied (enough : 2 ≤ s.settings.maxPasses.toNat)
    (applied : ((Work.ofMachine m).apply s w input).2 = .ok ()) :
    (m.handle s w input).result = .ok () := by
  show ((Work.ofMachine m).run s w input).2 = .ok ()
  unfold Work.run Attempt.andThen
  rw [applied]
  exact Work.settle_ok enough _

/-- A vote that is counted is handled. -/
theorem Machine.handled_of_counted {vote : Vote} (onward : m.Onward)
    (enough : 2 ≤ s.settings.maxPasses.toNat) (sound : voteRefusal? s vote = none)
    (counted : (m.log.addVote s.scope vote).2 = .ok ()) :
    (m.handle s w (.message (.vote vote))).result = .ok () := by
  have after := (Act.count (w := w) m vote rfl sound).onward onward
  show ((Work.ofMachine m).run s w (.message (.vote vote))).2 = .ok ()
  rw [run_of_counted sound counted]
  unfold Attempt.andThen Work.done
  dsimp only
  rw [Work.advance_ok vote.body.round ⟨after.placed, after.ahead⟩]
  exact Work.settle_ok enough _

/-- A vote that is the first of its validator is recorded, once its round is open. -/
theorem Machine.counts_vote {heard : Vote → Prop} {offered : Proposal → Prop}
    (onward : m.Onward) (logged : m.log.Sound s.scope heard offered) {vote : Vote}
    (countable : Vote.Countable s.scope vote) (verified : vote.verify = true)
    (new : m.log.standing? vote = none)
    (opens : (m.log.openFor? vote.body.round vote.body.validator).isSome = true)
    (w : World) :
    let after := m.handle s w (.message (.vote vote))
    after.machine.log.standing? vote = some vote
      ∧ (2 ≤ s.settings.maxPasses.toNat → after.result = .ok ()) := by
  have sound : voteRefusal? s vote = none :=
    voteRefusal?_eq_none countable.height countable.counts verified
  obtain ⟨counted, stands⟩ := HeightLog.addVote_of_open logged countable new opens
  refine ⟨?_, fun enough => handled_of_counted onward enough sound counted⟩
  obtain ⟨es, acts⟩ := acts_of_counted (w := w) sound counted
  exact acts.keeps_machine (P := fun m' => m'.log.standing? vote = some vote)
    (fun act held => act.log_keeps.grows.voteOf? held) stands

/-- A vote of another validator is recorded, as far as the machine has none of it
and it may open the round. -/
theorem Machine.takes_vote {heard : Vote → Prop} {offered : Proposal → Prop}
    (onward : m.Onward) (logged : m.log.Sound s.scope heard offered)
    (enough : 2 ≤ s.settings.maxPasses.toNat) {vote : Vote}
    (countable : Vote.Countable s.scope vote) (verified : vote.verify = true) :
    m.Takes s w (.vote vote) := by
  cases stands : m.log.standing? vote with
  | some first => exact Or.inr (Or.inl ⟨first, stands⟩)
  | none =>
    cases opens : m.log.openFor? vote.body.round vote.body.validator with
    | none => exact Or.inr (Or.inr (HeightLog.openFor?_eq_none opens))
    | some opened =>
      obtain ⟨recorded, handled⟩ :=
        counts_vote onward logged countable verified stands (opens ▸ rfl) w
      exact Or.inl ⟨handled enough, recorded⟩

/-- A message of no later round keeps the machine in its round. -/
theorem Act.round_eq {message : Message} (act : Act s w (.message message) m es m')
    (behind : message.round ≤ m.round) : m'.round = m.round := by
  cases act.moves with
  | silent _ _ round => exact round
  | votes _ _ _ round => exact round
  | begins _ _ _ _ _ step =>
    rcases act.of_propose step with ⟨-, round⟩ | ⟨round, log, cause, -⟩
    · exact round
    · cases cause with
      | start told => cases told
      | next kind fired => cases fired
      | follow message given of_round started undecided later =>
        cases given
        exact absurd (of_round ▸ later) (UInt32.not_lt.2 behind)

/-- A proposal that is held stays so while it is handled, unless there is a
majority for something else. -/
theorem Act.holds_proposal {p : Proposal}
    (act : Act s w (.message (.proposal p)) m es m') (here : p.body.round = m.round)
    (held : m.proposal? = some p)
    (unopposed : ∀ majority, m.prevoteMajority? m.round = some majority →
      majority = p.body.hash) :
    m'.round = m.round ∧ m'.proposal? = some p
      ∧ ∀ majority, m'.prevoteMajority? m'.round = some majority →
        majority = p.body.hash := by
  have round := act.round_eq (show (Message.proposal p).round ≤ m.round from
    UInt32.le_of_eq here)
  refine ⟨round, ?_⟩
  rw [Machine.proposal?_eq] at held ⊢
  simp only [Machine.prevoteMajority?_eq_record, round] at unopposed ⊢
  cases act.rewrites with
  | counts vote given => cases given
  | takesUp q given sound _ log =>
    cases given
    rw [log, HeightLog.getOrFresh_put, HeightLog.round_getOrFresh, if_pos here.symm, here]
    exact ⟨rfl, unopposed⟩
  | drops q majority step held' other real differs =>
    rw [Machine.proposal?_eq, held] at held'
    cases held'
    rw [Machine.prevoteMajority?_eq_record] at other
    exact absurd (unopposed majority other).symm differs
  | marks marked =>
    rw [(marked m.round).proposal, (marked m.round).prevotes.majority]
    exact ⟨held, unopposed⟩

/-- A proposal that has no fault is taken up, where there is room for it. -/
theorem Machine.takes_proposal (onward : m.Onward)
    (enough : 2 ≤ s.settings.maxPasses.toNat) {p : Proposal}
    (faultless : m.round = p.body.round → Faultless s m p) :
    m.Takes s w (.proposal p) := by
  intro here free unopposed
  have faultless := faultless here
  have sound : m.proposalRefusal? s p = none := by
    -- with room for it, and nothing against it, nothing keeps a faultless proposal out
    cases refusal : m.proposalRefusal? s p with
    | none => rfl
    | some fault =>
      rcases taken_or_outvoted (faultless_iff.2 faultless) refusal
        with ⟨q, held⟩ | ⟨majority, differs, reached⟩
      · cases free.symm.trans held
      · exact absurd (unopposed majority reached) differs
  constructor
  · have after := (Act.takeUp (w := w) m p rfl sound).onward onward
    refine handled_of_applied enough ?_
    show ((Work.ofMachine m).takeMessage s w (.proposal p)).2 = .ok ()
    have ours : ¬(Message.proposal p).height ≠ s.scope.height := not_not.2 faultless.height
    unfold Work.takeMessage Work.addProposal
    rw [if_neg ours]
    dsimp only [Work.ofMachine]
    rw [sound]
    exact Work.advance_ok p.body.round after
  -- the rules that follow may not drop it, for want of a majority against it
  · obtain ⟨es, acts⟩ := acts_of_takenUp (w := w) sound
    have kept := acts.keeps_machine
      (P := fun m' => m'.round = m.round ∧ m'.proposal? = some p
        ∧ ∀ majority, m'.prevoteMajority? m'.round = some majority →
          majority = p.body.hash)
      (fun act kept => by
        obtain ⟨round, held, unopposed⟩ := kept
        obtain ⟨round', rest⟩ := act.holds_proposal (here.symm.trans round.symm) held unopposed
        exact ⟨round'.trans round, rest⟩)
      ?_
    · exact kept.2.1
    · refine ⟨rfl, ?_, fun majority reached => unopposed majority (Or.inl ?_)⟩
      · rw [proposal?_eq, HeightLog.getOrFresh_put, HeightLog.round_getOrFresh, if_pos here]
      · rw [prevoteMajority?_eq_record, HeightLog.getOrFresh_put, HeightLog.round_getOrFresh,
          if_pos here] at reached
        rw [prevoteMajority?_eq_record, here]
        exact reached

/-- Nothing else speaks against a list of held votes. -/
theorem holdingsRefusal?_eq_none {holdings : Holdings}
    (height : holdings.body.height = s.scope.height) (counts : holdings.body.kind ≠ .null)
    (flags : holdings.body.held.length = s.scope.validators.size)
    (signed : holdings.verify = true) : Machine.holdingsRefusal? s holdings = none := by
  unfold Machine.holdingsRefusal?
  dsimp only
  rw [if_neg (not_not.2 height), if_neg counts, if_neg (not_not.2 flags), signed]
  rfl

/-- A list of held votes is answered, as far as it is well made. -/
theorem Machine.takes_holdings (enough : 2 ≤ s.settings.maxPasses.toNat)
    {holdings : Holdings} (sound : holdingsRefusal? s holdings = none)
    (height : holdings.body.height = s.scope.height) :
    m.Takes s w (.holdings holdings) := by
  have answers : ∃ votes, m.answer s holdings = .ok votes := by
    unfold answer
    rw [sound]
    dsimp only
    split
    · exact ⟨_, rfl⟩
    · exact ⟨_, rfl⟩
  refine ⟨answers, handled_of_applied enough ?_⟩
  obtain ⟨votes, answers⟩ := answers
  show ((Work.ofMachine m).takeMessage s w (.holdings holdings)).2 = .ok ()
  have ours : ¬(Message.holdings holdings).height ≠ s.scope.height := not_not.2 height
  unfold Work.takeMessage Work.takeHoldings
  rw [if_neg ours]
  dsimp only [Work.ofMachine]
  rw [answers]
  rfl

end

-- ========================================================= between machines

/-- What one machine of a height and a set of validators signs, every other one
takes in, whatever either of them went through: a vote, unless the other has one
of its validator already or may not open the round for it; a proposal, also one
made again, where the other is in its round and has room for it; a list of held
votes always. -/
theorem sent_is_taken [Crypto] {s r : Setup} (same : r.scope = s.scope)
    (faithful : s.signer.Faithful) (enough : 2 ≤ r.settings.maxPasses.toNat)
    {turns : List (World × Input)} (worlds : ∀ turn ∈ turns, turn.1.ProposesInPlace)
    {message : Message} (sent : Sent s turns message) (turns' : List (World × Input))
    (w : World) : (Life.after r turns').machine.Takes r w message := by
  have reachable := reachable_after r turns'
  have onward := reachable.onward
  cases sent.sendable with
  | vote ballot ours =>
    refine Machine.takes_vote onward reachable.log_sound enough ?_
      (faithful.verify ours.validator)
    rw [same]
    refine ⟨ours.height, ?_, ours.counts⟩
    show s.scope.validators.powerOf? ballot.validator = some ballot.power
    rw [ours.validator]
    exact ours.power
  | proposal offer ours =>
    refine Machine.takes_proposal onward enough fun here => ?_
    refine ⟨?_, faithful.verify ours.proposer, ours.named, ?_, ?_, here.symm, ours.carries⟩
    · rw [same]
      exact ours.height
    · rw [same]
      exact sent.placed worlds
    · rw [same]
      exact ours.proposer.trans ours.turn.symm
  -- a list costs no allowance, so nothing is asked of the receiver
  | holdings holding ours =>
    have height : (Signed.make s.signer holding).body.height = r.scope.height := by
      rw [same]
      exact ours.height
    refine Machine.takes_holdings enough ?_ height
    refine holdingsRefusal?_eq_none height ours.counts ?_ (faithful.verify ours.validator)
    rw [same]
    exact ours.flags

open scoped Plain

namespace Plain

/-- Plain signatures pass, and are never empty. -/
theorem faithful (address : Address) : (Signer.plain address).Faithful := by
  intro message
  refine ⟨fun none_ => ?_, beq_self_eq_true _⟩
  have width := address.octets.length_eq
  have empty : address.bytes = [] := (List.append_eq_nil_iff.1 none_).1
  have length := congrArg List.length empty
  exact absurd (width.symm.trans length) (by decide)

/-- All but the third of four validators precommit nothing in the first round, and
its time is over. -/
def nothingCommitted : List (World × Input) :=
  [1, 2, 4].map (fun byte => vote byte 0 .nil .precommit) ++ [timer 0 .precommit]

/-- The third has seen a majority for the empty block in it. -/
def lockedTurns : List (World × Input) :=
  ([(world, .start), offer 2 0 none (block 0)] ++ votes [1, 2, 4] 0 .prevote
    ++ nothingCommitted).map fun turn => (ledger.world 0, turn.2)

/-- The first has not. -/
def missedTurns : List (World × Input) := (world, .start) :: nothingCommitted

/-- The empty block, proposed again in the next round. -/
def proposedAgain : Proposal :=
  Signed.make (Signer.plain (address 3))
    (Offer.ofBlock 1 0 (address 3) (some 0) 1 (block 0))

end Plain

open Plain in
/-- A block that one validator has seen a majority for and proposes again is taken
up by another that has not. -/
theorem sent_is_taken_of_proposed_again :
    (setup (address 1)).scope = (setup (address 3)).scope
      ∧ (setup (address 3)).signer.Faithful
      ∧ 2 ≤ (setup (address 1)).settings.maxPasses.toNat
      ∧ (∀ turn ∈ lockedTurns, turn.1.ProposesInPlace)
      ∧ Sent (setup (address 3)) lockedTurns (.proposal proposedAgain)
      ∧ let after := (Life.after (setup (address 1)) missedTurns).machine.handle
          (setup (address 1)) world (.message (.proposal proposedAgain))
        after.result = .ok () ∧ after.machine.proposal? = some proposedAgain := by
  have same : (setup (address 1)).scope = (setup (address 3)).scope := rfl
  have enough : 2 ≤ (setup (address 1)).settings.maxPasses.toNat := by decide
  have worlds : ∀ turn ∈ lockedTurns, turn.1.ProposesInPlace := by
    intro turn taken
    obtain ⟨_, _, rfl⟩ := List.mem_map.1 taken
    exact ledger.proposesInPlace 0
  have sent : Sent (setup (address 3)) lockedTurns (.proposal proposedAgain) :=
    .published (by decide +kernel)
  have taken := sent_is_taken same (faithful (address 3)) enough worlds sent missedTurns world
  have here : (Life.after (setup (address 1)) missedTurns).machine.round = 1 := by
    decide +kernel
  have free : (Life.after (setup (address 1)) missedTurns).machine.proposal? = none := by
    decide +kernel
  have prevotes : (Life.after (setup (address 1)) missedTurns).machine.prevoteMajority? 1
      = none := by
    decide +kernel
  have precommits : (Life.after (setup (address 1)) missedTurns).machine.precommitMajority? 1
      = none := by
    decide +kernel
  refine ⟨same, faithful (address 3), enough, worlds, sent, taken here free ?_⟩
  intro majority reached
  rw [here, prevotes, precommits] at reached
  rcases reached with reached | reached
  · cases reached
  · cases reached

end Quorum
