/-
What inputs leave behind, whatever their order was.

Given are a start, one good proposal of the first round and votes of that round,
in which nobody votes twice for different things (`Orderly`). They may come in any
order: a vote before the proposal it is for, the proposal before the start.

What they leave behind can be told from which of them have come, and not from
their order (`Arrived`): the machine is started if the start has come, it holds
the proposal if that has come, and each validator whose vote has come has a vote
in the record. One turn adds what came with it (`Arrived.next`), and nothing of
it is lost again: the machine stays in the first round, and no majority but one
for this block can form there (`Orderly.majority_eq`), so the proposal is neither
refused nor dropped.
-/
import Quorum.Proofs.Machine.Returning
import Quorum.Proofs.Validators.Lookup

namespace Quorum

-- ================================================ statement vocabulary

/-- Whether somebody votes for a hash among these inputs, and states the power
it has in the set. -/
def castFor (s : Setup) (given : List Input) (kind : VoteKind) (hash : BlockHash)
    (address : Address) : Bool :=
  given.any fun input =>
    match input with
    | .message (.vote vote) => vote.body.validator == address
      && vote.body.kind == kind && vote.body.hash == hash
      && s.scope.validators.members.contains ⟨address, vote.body.power⟩
    | _ => false

/-- A new block, proposed for the first round by the one whose turn it is. -/
structure Opening [Crypto] (s : Setup) (p : Proposal) : Prop where
  height : p.body.height = s.scope.height
  round : p.body.round = 0
  carries : p.body.validRound = none
  turn : p.body.proposer
    = s.scope.validators.proposerAddress s.scope.height 0
  named : p.body.block.hash = p.body.hash
  signed : p.verify = true

/-- A vote of the first round. -/
structure Early [Crypto] (s : Setup) (vote : Vote) : Prop where
  height : vote.body.height = s.scope.height
  round : vote.body.round = 0
  signed : vote.verify = true

/-- Inputs that are the start, the proposal and votes, in which nobody votes for
two things at once, and that make up a majority of precommits for the block
proposed and no majority of prevotes for anything else. -/
structure Orderly [Crypto] (s : Setup) (p : Proposal) (given : List Input) :
    Prop where
  kinds : ∀ input ∈ given, input = .start ∨ input = .message (.proposal p)
    ∨ ∃ vote, input = .message (.vote vote) ∧ Early s vote
  single : ∀ vote vote' : Vote, .message (.vote vote) ∈ given →
    .message (.vote vote') ∈ given → vote.body.validator = vote'.body.validator →
    vote.body.kind = vote'.body.kind → vote.body.hash = vote'.body.hash
  majority : 2 * s.scope.validators.total.toNat
    < 3 * s.scope.validators.weight (castFor s given .precommit p.body.hash)
  unrivalled : ∀ hash, hash ≠ p.body.hash →
    ¬2 * s.scope.validators.total.toNat
      < 3 * s.scope.validators.weight (castFor s given .prevote hash)

/-- Somebody votes for a hash if such a vote is among the inputs. -/
theorem castFor_iff {s : Setup} {given : List Input} {kind : VoteKind}
    {hash : BlockHash} {address : Address} :
    castFor s given kind hash address = true
      ↔ ∃ vote : Vote, .message (.vote vote) ∈ given
        ∧ vote.body.validator = address ∧ vote.body.kind = kind
        ∧ vote.body.hash = hash
        ∧ ⟨address, vote.body.power⟩ ∈ s.scope.validators.members := by
  unfold castFor
  rw [List.any_eq_true]
  constructor
  · rintro ⟨input, given, cast⟩
    split at cast
    case h_1 vote =>
      simp only [Bool.and_eq_true, beq_iff_eq, List.contains_iff_mem] at cast
      obtain ⟨⟨⟨author, kind⟩, hash⟩, member⟩ := cast
      exact ⟨vote, given, author, kind, hash, member⟩
    case h_2 => cases cast
  · rintro ⟨vote, given, author, kind, hash, member⟩
    refine ⟨_, given, ?_⟩
    simp only [Bool.and_eq_true, beq_iff_eq, List.contains_iff_mem]
    exact ⟨⟨⟨author, kind⟩, hash⟩, member⟩

/-- Who votes for what is not a matter of order. -/
theorem castFor_perm {s : Setup} {given given' : List Input}
    (order : given'.Perm given) (kind : VoteKind) (hash : BlockHash) :
    castFor s given' kind hash = castFor s given kind hash := by
  funext address
  rw [Bool.eq_iff_iff, castFor_iff, castFor_iff]
  simp only [order.mem_iff]

/-- A vote of this validator is in the record of the first round. -/
def Recorded (m : Machine) (vote : Vote) : Prop :=
  ∃ t, (m.log.getOrFresh 0).tally? vote.body.kind = some t
    ∧ ∃ other ∈ t.votes, other.body.validator = vote.body.validator

/-- What is left behind by these inputs, whatever their order was. -/
structure Arrived (s : Setup) (p : Proposal) (past : List Input) (m : Machine) :
    Prop where
  started : .start ∈ past → m.step ≠ .idle
  held : .message (.proposal p) ∈ past → m.proposal? = some p
  recorded : ∀ vote : Vote, .message (.vote vote) ∈ past → vote.body.kind ≠ .null →
    ⟨vote.body.validator, vote.body.power⟩ ∈ s.scope.validators.members →
    Recorded m vote

/-- Nothing that is recorded is lost. -/
theorem Recorded.mono {m m' : Machine} {vote : Vote} (h : Recorded m vote)
    (grows : m.log.Grows m'.log) : Recorded m' vote := by
  obtain ⟨t, found, other, cast, author⟩ := h
  obtain ⟨t', found', grown⟩ := grows.getOrFresh found
  exact ⟨t', found', other, grown.votes.subset cast, author⟩

section

variable [Crypto] {s : Setup} {w : World} {input : Input} {m m' : Machine}
  {es : List Effect} {p : Proposal} {given : List Input}

/-- It is said of inputs, not of their order. -/
theorem Orderly.perm {given' : List Input} (orderly : Orderly s p given)
    (order : given'.Perm given) : Orderly s p given' where
  kinds input came := orderly.kinds input (order.mem_iff.1 came)
  single vote vote' came came' :=
    orderly.single vote vote' (order.mem_iff.1 came) (order.mem_iff.1 came')
  majority := by
    rw [castFor_perm order]
    exact orderly.majority
  unrivalled hash differs := by
    rw [castFor_perm order]
    exact orderly.unrivalled hash differs

/-- There is one proposal among the inputs. -/
theorem Orderly.eq_of_proposal {q : Proposal} (orderly : Orderly s p given)
    (told : .message (.proposal q) ∈ given) : q = p := by
  rcases orderly.kinds _ told with start | same | ⟨vote, cast, -⟩
  · cases start
  · cases same
    rfl
  · cases cast

/-- All votes among them are of the first round. -/
theorem Orderly.early {vote : Vote} (orderly : Orderly s p given)
    (told : .message (.vote vote) ∈ given) : Early s vote := by
  rcases orderly.kinds _ told with start | same | ⟨vote, cast, early⟩
  · cases start
  · cases same
  · cases cast
    exact early

-- =========================================== the start and the votes

/-- A machine in its first round, which knows of nothing but these inputs. -/
structure Calm (s : Setup) (given : List Input) (m : Machine) : Prop where
  sound : m.log.Sound s.scope (Heard given) (Offered s given)
  round : m.round = 0

/-- Once it was told to start, a machine is started. -/
theorem started_of_start (onward : m.Onward) (calm : Calm s given m) :
    (m.handle s w .start).machine.step ≠ .idle := by
  show ((Work.ofMachine m).run s w .start).1.machine.step ≠ .idle
  unfold Work.run Work.apply Work.start
  dsimp only
  split
  case isTrue started => exact started
  case isFalse =>
    have forward : m.round ≤ 0 := calm.round ▸ UInt32.le_refl _
    obtain ⟨-, log, there⟩ := Work.startRound_onward (k := Work.ofMachine m) onward
      forward (s := s) (w := w)
    have begun : ((Work.ofMachine m).startRound s w 0).1.machine.step ≠ .idle := by
      rw [there]
      exact nofun
    have advances : ∀ k : Work, Work.Reaches s w .start k (k.advance s w 0).1 :=
      fun _ => Work.advance_zero_reaches
    obtain ⟨es, acts⟩ :=
      Work.acts_after ((Work.ofMachine m).startRound s w 0) advances
    exact acts.keeps_machine (fun act started => act.moves.started started) begun

theorem Work.log_addVote {k : Work} {vote : Vote}
    (sound : Machine.voteRefusal? s vote = none) :
    (k.addVote s w vote).1.machine.log
      = (k.machine.log.addVote s.scope vote).1 := by
  unfold addVote
  rw [sound]
  dsimp only
  split
  case h_1 fault _ =>
    obtain ⟨evidence, convicted⟩ := machine_convict w
      (k.update fun m => { m with log := (m.log.addVote s.scope vote).1 }) fault
    exact congrArg (·.log) convicted
  case h_2 => rfl

/-- Once a vote was handed in, its validator has a vote in the record. -/
theorem recorded_of_vote {vote : Vote} (early : Early s vote)
    (calm : Calm s given m) (kind : vote.body.kind ≠ .null)
    (power : s.scope.validators.powerOf? vote.body.validator
      = some vote.body.power) :
    Recorded (m.handle s w (.message (.vote vote))).machine vote := by
  have sound : Machine.voteRefusal? s vote = none :=
    Machine.voteRefusal?_eq_none early.height kind early.signed
  have ours : ¬(Message.vote vote).height ≠ s.scope.height :=
    not_not.2 early.height
  have near : m.log.isAhead vote.body.round = false := by
    rw [early.round]
    exact decide_eq_false (Nat.not_lt_zero _)
  obtain ⟨t, found⟩ : ∃ t, (m.log.getOrFresh vote.body.round).tally?
      vote.body.kind = some t := by
    cases named : vote.body.kind with
    | null => exact absurd named kind
    | prevote => exact ⟨_, rfl⟩
    | precommit => exact ⟨_, rfl⟩
  have tally := (calm.sound.getOrFresh vote.body.round).tally _ t found
  have round := tally.round_eq
  rw [HeightLog.round_getOrFresh] at round
  obtain ⟨t', found', other, cast, author⟩ := HeightLog.recorded_addVote
    early.height power near found round tally.kind_eq
  have counted : Recorded ((Work.ofMachine m).addVote s w vote).1.machine vote := by
    rw [early.round] at found'
    refine ⟨t', ?_, other, cast, author⟩
    rw [Work.log_addVote sound]
    exact found'
  have given : Input.message (.vote vote) = .message (.vote vote) := rfl
  obtain ⟨es, acts⟩ := Work.acts_after ((Work.ofMachine m).addVote s w vote)
    fun _ => Work.advance_reaches given
  show Recorded ((Work.ofMachine m).run s w (.message (.vote vote))).1.machine vote
  unfold Work.run Work.apply Work.takeMessage
  dsimp only
  rw [if_neg ours]
  exact acts.keeps_machine (P := fun m => Recorded m vote)
    (fun act h => h.mono act.log_keeps.grows) counted

variable {vs : List Validator} (orderly : Orderly s p given)
  (built : ValidatorSet.ofList? vs = .ok s.scope.validators)
  (opening : Opening s p)

include orderly built

-- ========================================================== no rivals

/-- Nothing else has more than two thirds of the precommits. -/
theorem Orderly.hash_eq_of_precommits {hash : BlockHash}
    (many : 2 * s.scope.validators.total.toNat
      < 3 * s.scope.validators.weight (castFor s given .precommit hash)) :
    hash = p.body.hash := by
  obtain ⟨v, -, one, other⟩ := s.scope.validators.exists_both
    (ValidatorSet.ofList?_spec built).2 many orderly.majority
  obtain ⟨vote, came, author, kind, voted, -⟩ := castFor_iff.1 one
  obtain ⟨vote', came', author', kind', voted', -⟩ := castFor_iff.1 other
  rw [← voted, ← voted']
  exact orderly.single vote vote' came came' (author.trans author'.symm)
    (kind.trans kind'.symm)

/-- The majorities recorded in the first round are for the block proposed. -/
theorem Orderly.majority_eq
    (sound : m.log.Sound s.scope (Heard given) (Offered s given))
    {hash : BlockHash}
    (reached : m.prevoteMajority? 0 = some hash
      ∨ m.precommitMajority? 0 = some hash) : hash = p.body.hash := by
  have many : ∀ kind t, (m.log.getOrFresh 0).tally? kind = some t →
      t.majority = some hash → 2 * s.scope.validators.total.toNat
        < 3 * s.scope.validators.weight (castFor s given kind hash) := by
    intro kind t found majority
    have counted := (sound.getOrFresh 0).tally kind t found
    refine counted.two_thirds_of_majority majority fun vote cast voted => ?_
    exact castFor_iff.2 ⟨vote, (counted.heard_of_mem vote cast).1, rfl,
      counted.kind_of_mem vote cast, voted, counted.member_of_mem vote cast⟩
  rw [Machine.prevoteMajority?_eq_record,
    Machine.precommitMajority?_eq_record] at reached
  rcases reached with prevotes | precommits
  · by_contra differs
    exact orderly.unrivalled hash differs (many .prevote _ rfl prevotes)
  · exact orderly.hash_eq_of_precommits built (many .precommit _ rfl precommits)

-- ======================================================= the proposal

section

variable (calm : Calm s given m)

include calm opening

omit built in
/-- No vote and no proposal of the first round takes the machine out of it. -/
theorem Calm.keeps (came : input ∈ given) (act : Act s w input m es m') :
    Calm s given m' := by
  constructor
  case sound =>
    refine act.log_keeps.sound _ _ ?_ ?_ calm.sound
    · rintro vote ⟨rfl, sound⟩
      exact ⟨came, verify_of_voteRefusal? sound⟩
    · rintro q ⟨rfl, faultless⟩
      exact ⟨came, faultless⟩
  case round =>
    cases act.moves with
    | silent _ _ round => exact round.trans calm.round
    | votes _ _ _ round => exact round.trans calm.round
    | begins _ _ _ _ _ step =>
      rcases act.of_propose step with ⟨-, same⟩ | ⟨round, log, cause, -, after, -⟩
      · exact same.trans calm.round
      · obtain ⟨relogged, same, -⟩ := Machine.opening_relogs s w
          { m with log := log, round := round, step := .propose } round
        have here : m'.round = round := by rw [after, same]
        rw [here]
        -- the start begins the first round, and only messages of a later one are
        -- followed
        rcases orderly.kinds input came with rfl | rfl | ⟨vote, rfl, early⟩
        · cases cause with
          | start _ _ first => exact first
          | follow _ told => cases told
          | next _ fired => cases fired
        · cases cause with
          | start told => cases told
          | follow _ told of_round =>
            cases told
            exact of_round.symm.trans opening.round
          | next _ fired => cases fired
        · cases cause with
          | start told => cases told
          | follow _ told of_round =>
            cases told
            exact of_round.symm.trans early.round
          | next _ fired => cases fired

/-- A proposal that is held is not dropped, nor replaced. -/
theorem Calm.held (came : input ∈ given) (act : Act s w input m es m')
    (held : m.proposal? = some p) : m'.proposal? = some p := by
  have round := (calm.keeps orderly opening came act).round
  rw [Machine.proposal?_eq, calm.round] at held
  rw [Machine.proposal?_eq, round]
  cases act.places 0 with
  | same reads => rw [reads, held]
  | taken q told _ _ taken =>
    have only := orderly.eq_of_proposal (told ▸ came)
    rw [taken, only]
  | gone q majority _ held' other differs =>
    rw [calm.round] at other
    rw [Machine.proposal?_eq, calm.round, held] at held'
    cases held'
    exact absurd (orderly.majority_eq built calm.sound (Or.inl other)).symm differs

/-- No act loses anything of what has arrived. -/
theorem Arrived.keeps {past : List Input} (came : input ∈ given)
    (act : Act s w input m es m') (h : Arrived s p past m) :
    Arrived s p past m' where
  started told := act.moves.started (h.started told)
  held told := calm.held orderly built opening came act (h.held told)
  recorded vote told kind member :=
    (h.recorded vote told kind member).mono act.log_keeps.grows

/-- Once the proposal was handed in, it is held. -/
theorem held_of_offered (placed : p.body.block.height = s.scope.height)
    (came : .message (.proposal p) ∈ given) :
    (m.handle s w (.message (.proposal p))).machine.proposal? = some p := by
  have faultless : m.proposalFault? s p = none := by
    refine faultless_iff.2 ⟨opening.height, opening.signed, opening.named, placed,
      ?_, opening.round.trans calm.round.symm, ?_⟩
    · rw [opening.round]
      exact opening.turn
    -- a new block carries no round forward
    · refine Machine.validRoundFault?_eq_none_iff.2 fun valid carried => ?_
      cases opening.carries.symm.trans carried
  cases refusal : m.proposalRefusal? s p with
  | none =>
    -- the rules that run next are acts, and each of them leaves the proposal
    obtain ⟨es, acts⟩ := acts_of_takenUp (w := w) refusal
    have kept := acts.keeps_machine
      (P := fun m => Calm s given m ∧ m.proposal? = some p)
      (fun act h => ⟨h.1.keeps orderly opening came act,
        h.1.held orderly built opening came act h.2⟩)
      ⟨calm.keeps orderly opening came (.takeUp (w := w) m p rfl refusal), ?_⟩
    · exact kept.2
    · rw [Machine.proposal?_eq, HeightLog.getOrFresh_put, if_pos]
      rw [HeightLog.round_getOrFresh, opening.round, calm.round]
  | some fault =>
    rw [handle_of_refused refusal]
    rcases taken_or_outvoted faultless refusal
      with ⟨q, held⟩ | ⟨hash, differs, reached⟩
    · -- the place is taken, and by nothing but this proposal
      have taken := held
      rw [Machine.proposal?_eq] at taken
      obtain ⟨-, told, -⟩ := (calm.sound.getOrFresh m.round).proposal q taken
      exact orderly.eq_of_proposal told ▸ held
    -- nor can there be a majority that the proposal is against
    · rw [calm.round] at reached
      exact absurd (orderly.majority_eq built calm.sound reached) differs

/-- A turn adds what came with it. -/
theorem Arrived.next {past : List Input}
    (placed : p.body.block.height = s.scope.height) (onward : m.Onward)
    (arrived : Arrived s p past m) (w : World) (came : input ∈ given) :
    Calm s given (m.handle s w input).machine
      ∧ Arrived s p (past ++ [input]) (m.handle s w input).machine := by
  obtain ⟨calm', old⟩ := (m.handle_acts s w input).keeps_machine
    (P := fun m => Calm s given m ∧ Arrived s p past m)
    (fun act h => ⟨h.1.keeps orderly opening came act,
      h.2.keeps orderly built opening h.1 came act⟩)
    ⟨calm, arrived⟩
  refine ⟨calm', fun told => ?_, fun told => ?_, fun vote told kind member => ?_⟩
  · rcases List.mem_append.1 told with before | now
    · exact old.started before
    · cases List.mem_singleton.1 now
      exact started_of_start onward calm
  · rcases List.mem_append.1 told with before | now
    · exact old.held before
    · cases List.mem_singleton.1 now
      exact held_of_offered orderly built opening calm placed came
  · rcases List.mem_append.1 told with before | now
    · exact old.recorded vote before kind member
    · cases List.mem_singleton.1 now
      exact recorded_of_vote (orderly.early came) calm kind
        (ValidatorSet.powerOf?_of_mem built member)

end

include opening in
/-- Whatever the order was, what has come is there. -/
theorem arrived_after (placed : p.body.block.height = s.scope.height)
    (turns : List (World × Input)) (within : turns.map (·.2) ⊆ given) :
    Calm s given (Life.after s turns).machine
      ∧ Arrived s p (turns.map (·.2)) (Life.after s turns).machine := by
  induction turns using List.reverseRecOn with
  | nil =>
    exact ⟨⟨HeightLog.sound_start s.scope _ _, rfl⟩, nofun, nofun, nofun⟩
  | append_singleton turns turn ih =>
    rw [List.map_append] at within ⊢
    have came : turn.2 ∈ given :=
      within (List.mem_append_right _ (List.mem_singleton_self _))
    obtain ⟨calm, arrived⟩ :=
      ih fun input member => within (List.mem_append_left _ member)
    rw [Life.after_snoc]
    exact arrived.next orderly built opening calm placed
      (reachable_after s turns).onward turn.1 came

end

end Quorum
