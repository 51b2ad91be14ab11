/-
What a machine has recorded, over its whole life.

Every act leaves the votes and majorities that were recorded, and what it
adds is a vote that was just given and passed every check. So at any
moment of any life each tally holds votes of its own round and kind,
properly signed, each from another validator of the set
(`Leads.log_sound`), and what was a majority once is one ever after
(`Leads.log_grows`).
-/
import Quorum.Proofs.Machine.Life
import Quorum.Proofs.Record.Height

namespace Quorum

-- ============================================================ majorities

/-- A majority is read off the tally of its round and kind. -/
theorem Machine.prevoteMajority?_eq (m : Machine) (round : Round) :
    m.prevoteMajority? round
      = (m.log.tallyOf? round .prevote).bind (·.majority) := by
  unfold Machine.prevoteMajority? HeightLog.tallyOf?
  cases m.log.get? round <;> rfl

/-- A majority of precommits, likewise. -/
theorem Machine.precommitMajority?_eq (m : Machine) (round : Round) :
    m.precommitMajority? round
      = (m.log.tallyOf? round .precommit).bind (·.majority) := by
  unfold Machine.precommitMajority? HeightLog.tallyOf?
  cases m.log.get? round <;> rfl

/-- A majority stays as the log grows. -/
theorem HeightLog.Grows.majority {h h' : HeightLog} (grows : h.Grows h')
    {round : Round} {kind : VoteKind} {hash : BlockHash}
    (reached : (h.tallyOf? round kind).bind (·.majority) = some hash) :
    (h'.tallyOf? round kind).bind (·.majority) = some hash := by
  obtain ⟨t, found, majority⟩ := Option.bind_eq_some_iff.1 reached
  obtain ⟨t', found', grown⟩ := grows round kind t found
  rw [found']
  exact grown.majority hash majority

/-- A majority of precommits stays. -/
theorem HeightLog.Grows.precommitMajority {m m' : Machine}
    (grows : m.log.Grows m'.log) {round : Round} {hash : BlockHash}
    (reached : m.precommitMajority? round = some hash) :
    m'.precommitMajority? round = some hash := by
  rw [Machine.precommitMajority?_eq] at reached ⊢
  exact grows.majority reached

/-- A majority of prevotes stays. -/
theorem HeightLog.Grows.prevoteMajority {m m' : Machine}
    (grows : m.log.Grows m'.log) {round : Round} {hash : BlockHash}
    (reached : m.prevoteMajority? round = some hash) :
    m'.prevoteMajority? round = some hash := by
  rw [Machine.prevoteMajority?_eq] at reached ⊢
  exact grows.majority reached

/-- Two thirds have prevoted where the tally counts that much. -/
theorem Machine.prevotesSomeTwoThirds_iff {s : Setup} {m : Machine}
    {round : Round} :
    m.prevotesSomeTwoThirds s round = true
      ↔ ∃ t, m.log.tallyOf? round .prevote = some t
        ∧ 2 * s.scope.validators.total.toNat < 3 * t.power.toNat := by
  unfold Machine.prevotesSomeTwoThirds HeightLog.tallyOf?
  cases m.log.get? round with
  | none => simp
  | some l => simp [RoundLog.tally?, Tally.someTwoThirds,
      ValidatorSet.exceedsTwoThirds_iff]

/-- Two thirds have precommitted, likewise. -/
theorem Machine.precommitsSomeTwoThirds_iff {s : Setup} {m : Machine}
    {round : Round} :
    m.precommitsSomeTwoThirds s round = true
      ↔ ∃ t, m.log.tallyOf? round .precommit = some t
        ∧ 2 * s.scope.validators.total.toNat < 3 * t.power.toNat := by
  unfold Machine.precommitsSomeTwoThirds HeightLog.tallyOf?
  cases m.log.get? round with
  | none => simp
  | some l => simp [RoundLog.tally?, Tally.someTwoThirds,
      ValidatorSet.exceedsTwoThirds_iff]

/-- Two thirds that have voted stay two thirds as the log grows. -/
theorem HeightLog.Grows.twoThirds {h h' : HeightLog} (grows : h.Grows h')
    {round : Round} {kind : VoteKind} {total : Nat}
    (many : ∃ t, h.tallyOf? round kind = some t ∧ total < 3 * t.power.toNat) :
    ∃ t, h'.tallyOf? round kind = some t ∧ total < 3 * t.power.toNat := by
  obtain ⟨t, found, enough⟩ := many
  obtain ⟨t', found', grown⟩ := grows round kind t found
  have more := grown.power
  exact ⟨t', found', by omega⟩

/-- At the start there is one fresh round. -/
theorem HeightLog.sound_start (s : Scope) (heard : Vote → Prop)
    (offered : Proposal → Prop) :
    HeightLog.start.Sound s heard offered := by
  refine HeightLog.Sound.put (h := ⟨[], 0, []⟩) ?_
    (RoundLog.sound_fresh s heard offered 0)
  intro round l found
  cases found

/-- The proposal of the current round is one that was offered. -/
theorem offered_of_proposal? {s : Scope} {m : Machine} {heard : Vote → Prop}
    {offered : Proposal → Prop} {proposal : Proposal}
    (sound : m.log.Sound s heard offered)
    (held : m.proposal? = some proposal) : offered proposal := by
  obtain ⟨record, found, taken⟩ := Option.bind_eq_some_iff.1 held
  exact ((sound _ record found).proposal proposal taken).2

-- ==================================== what changes nothing but the log

/-- A machine that differs in its log only, and there in the same round
and in nothing that is news. -/
def Machine.Relogs (m m' : Machine) : Prop :=
  ∃ log, m' = { m with log := log } ∧ log.round = m.log.round
    ∧ ∀ s news fresh, m.log.Keeps s news fresh log

namespace Machine

/-- A machine differs from itself in nothing. -/
theorem Relogs.refl (m : Machine) : m.Relogs m :=
  ⟨m.log, rfl, rfl, fun _ _ _ => .refl _⟩

/-- A difference of this kind keeps what is recorded, whatever counts as news. -/
theorem Relogs.keeps {m m' : Machine} (h : m.Relogs m') (s : Scope)
    (news : Vote → Prop) (fresh : Proposal → Prop) :
    m.log.Keeps s news fresh m'.log := by
  obtain ⟨log, rfl, -, keeps⟩ := h
  exact keeps s news fresh

/-- A slot that is armed is a mark in the log. -/
theorem armed_relogs (m : Machine) (round : Round) (slot : TimerSlot) :
    m.Relogs (m.armed round slot) := by
  unfold armed
  split
  case isTrue => exact .refl m
  case isFalse =>
    -- a mark touches neither the number of the round nor a tally nor the proposal
    refine ⟨_, rfl, rfl, fun _ _ _ => HeightLog.keeps_put_marks
      (HeightLog.remarks_of_marks (f := (·.arm slot)) ?_ ?_ ?_ ?_)⟩
    · intro l
      unfold RoundLog.arm
      split <;> rfl
    · intro l
      unfold RoundLog.arm
      split <;> rfl
    · intro l
      unfold RoundLog.arm
      split <;> rfl
    · intro l p found
      unfold RoundLog.arm at found
      split at found <;> exact found

/-- So is a majority that was acted on. -/
theorem sawQuorum_relogs (m : Machine) (round : Round) :
    m.Relogs (m.sawQuorum round) :=
  ⟨_, rfl, rfl, fun _ _ _ => HeightLog.keeps_put_marks
    (HeightLog.remarks_of_marks (f := fun l => { l with quorumSeen := true })
      (fun _ => rfl) (fun _ => rfl) (fun _ => rfl) (fun _ _ found => found))⟩

/-- What locking a block changes. -/
theorem locked_eq {s : Setup} {w : World} {m marked : Machine} {pinned : Pinned}
    (seen : marked = { (m.judged s w pinned.hash pinned.block).sawQuorum m.round
      with locked := some pinned }) :
    ∃ log,
      { marked.armed m.round .precommitWait with valid := some pinned }
        = { m.judged s w pinned.hash pinned.block with
          log := log, locked := some pinned, valid := some pinned }
      ∧ log.round = m.log.round := by
  obtain ⟨log, same, round, -⟩ := armed_relogs marked m.round .precommitWait
  refine ⟨log, ?_, ?_⟩
  · rw [same, seen]
    rfl
  · exact round.trans (congrArg (·.log.round) seen)

/-- What deciding a block changes. -/
theorem decided_eq {s : Setup} {w : World} {m pinning : Machine}
    {pinned : Pinned}
    (decided : pinning = { m.judged s w pinned.hash pinned.block with
      decision := some pinned }) :
    ∃ log, pinning.armed m.round .endCommitWait
        = { m.judged s w pinned.hash pinned.block with
          log := log, decision := some pinned }
      ∧ log.round = m.log.round := by
  obtain ⟨log, same, round, -⟩ := armed_relogs pinning m.round .endCommitWait
  refine ⟨log, ?_, ?_⟩
  · rw [same, decided]
  · exact round.trans (congrArg (·.log.round) decided)

/-- A round that is opened has at most a slot armed. -/
theorem opening_relogs [Crypto] (s : Setup) (w : World) (m : Machine)
    (round : Round) :
    m.Relogs (opening s w m round).1 := by
  unfold opening
  split
  · split
    · exact .refl m
    · exact armed_relogs m round .propose
  · exact armed_relogs m round .propose

/-- A claim changes no vote, though it may open its round. -/
theorem addClaim_relogs [Crypto] (s : Setup) (w : World) (m : Machine)
    (claim : Claim) :
    m.Relogs (m.addClaim s w claim).1 := by
  cases claiming_addClaim s w m claim with
  | barred _ same =>
    rw [same]
    exact .refl m
  | changed opened _ _ _ opens _ _ same =>
    exact ⟨opened, same, HeightLog.round_openFor? opens,
      fun _ _ _ => HeightLog.keeps_openFor? opens⟩
  | recorded opened t t' opens found added same =>
    obtain ⟨round, kind, alike⟩ := HeightLog.addClaim_eq added
    have kept : opened.round = m.log.round := HeightLog.round_openFor? opens
    refine ⟨_, same, kept,
      fun _ _ _ => .trans (HeightLog.keeps_openFor? opens) ?_⟩
    exact HeightLog.keeps_put_setTally found alike.grows
      fun _ _ sound => sound.congr round kind alike

end Machine

-- ================================================================ acts

variable [Crypto] {s : Setup} {w : World} {input : Input}

/-- A vote is news if it is the input, and was found well signed. -/
def IsNews (s : Setup) (input : Input) (vote : Vote) : Prop :=
  input = .message (.vote vote) ∧ Machine.voteRefusal? s vote = none

/-- A proposal is fresh if it is the input, and has no fault of its own. -/
def IsFresh (s : Setup) (input : Input) (proposal : Proposal) : Prop :=
  input = .message (.proposal proposal)
    ∧ ∃ m : Machine, m.proposalFault? s proposal = none

/-- A proposal that is taken up has no fault of its own. -/
theorem proposalFault?_of_refusal? {m : Machine} {proposal : Proposal}
    (sound : m.proposalRefusal? s proposal = none) :
    m.proposalFault? s proposal = none := by
  unfold Machine.proposalRefusal? at sound
  split at sound
  case h_1 => cases sound
  case h_2 unharmed => exact unharmed

/-- The proposal taken up is the one that is fresh, and no tally is touched. -/
theorem keeps_takeUp {m : Machine} {proposal : Proposal}
    (given : input = .message (.proposal proposal))
    (sound : m.proposalRefusal? s proposal = none) :
    m.log.Keeps s.scope (IsNews s input) (IsFresh s input) (m.log.put
      { m.log.getOrFresh proposal.body.round with
        proposal := some proposal }) := by
  have round : (m.log.getOrFresh proposal.body.round).round
      = proposal.body.round :=
    HeightLog.round_getOrFresh _ _
  constructor
  case grows =>
    refine HeightLog.grows_put fun kind t found => ⟨t, ?_, .refl t⟩
    rw [round] at found
    cases kind <;> exact found
  case sound =>
    intro heard offered _ hf logged
    have before := logged.getOrFresh proposal.body.round
    refine logged.put
      ⟨fun kind t found => before.tally kind t ?_, fun p found => ?_⟩
    · cases kind <;> exact found
    · cases found
      exact ⟨round.symm,
        hf proposal ⟨given, m, proposalFault?_of_refusal? sound⟩⟩

/-- An act keeps what is recorded. -/
theorem Act.log_keeps {m m' : Machine} {es : List Effect}
    (act : Act s w input m es m') :
    m.log.Keeps s.scope (IsNews s input) (IsFresh s input) m'.log := by
  cases act with
  | judge => exact .refl _
  | count vote given sound => exact HeightLog.keeps_addVote m.log ⟨given, sound⟩
  | claim claim => exact (Machine.addClaim_relogs s w m claim).keeps _ _ _
  | passOn => exact .refl _
  | takeUp proposal given sound => exact keeps_takeUp given sound
  | beginRound round log cause moved =>
    have opens := Machine.opening_relogs s w
      { m with log := log, round := round, step := .propose } round
    exact .trans (HeightLog.keeps_setRound moved) (opens.keeps _ _ _)
  | prevote => exact .refl _
  | prevoteNothing => exact .refl _
  | precommit => exact .refl _
  | precommitNothing => exact .refl _
  | lock proposal pinned step held pins unseen majority valid marked seen =>
    refine .trans ?_
      ((Machine.armed_relogs marked m.round .precommitWait).keeps _ _ _)
    rw [seen]
    exact (Machine.sawQuorum_relogs m m.round).keeps _ _ _
  | remember => exact (Machine.sawQuorum_relogs m m.round).keeps _ _ _
  | discard =>
    exact HeightLog.keeps_put_marks
      (HeightLog.remarks_of_marks (f := RoundLog.discard)
        (fun _ => rfl) (fun _ => rfl) (fun _ => rfl)
        (fun _ _ none_ => nomatch none_))
  | wait kind waits =>
    exact (Machine.armed_relogs m m.round kind.slot).keeps _ _ _
  | decideBlock proposal pinned started undecided held pins majority valid
      pinning decided =>
    refine .trans ?_
      ((Machine.armed_relogs pinning m.round .endCommitWait).keeps _ _ _)
    rw [decided]
    exact .refl _
  | finish => exact .refl _
  | complete => exact .refl _
  | report => exact .refl _

-- =============================================================== lives

/-- A vote that a machine was given and that its validator signed. -/
def Heard (given : List Input) (vote : Vote) : Prop :=
  .message (.vote vote) ∈ given ∧ vote.verify = true

/-- A proposal that a machine was given, with no fault of its own. -/
def Offered (s : Setup) (given : List Input) (proposal : Proposal) : Prop :=
  .message (.proposal proposal) ∈ given
    ∧ ∃ m : Machine, m.proposalFault? s proposal = none

/-- A vote that is looked at has been verified. -/
theorem verify_of_voteRefusal? {vote : Vote}
    (h : Machine.voteRefusal? s vote = none) :
    vote.verify = true := by
  unfold Machine.voteRefusal? at h
  dsimp only at h
  cases signed : vote.verify with
  | true => rfl
  | false =>
    rw [signed] at h
    split at h
    · cases h
    · split at h
      · cases h
      · cases h

omit [Crypto] in
/-- A round that is carried forward is an earlier one. -/
theorem Machine.validRoundFault?_eq_none_iff {offer : Offer} :
    Machine.validRoundFault? offer = none
      ↔ ∀ valid, offer.validRound = some valid → valid < offer.round := by
  unfold Machine.validRoundFault?
  cases offer.validRound with
  | none => exact ⟨fun _ => nofun, fun _ => rfl⟩
  | some carried =>
    dsimp only
    simp only [ite_eq_right_iff, reduceCtorEq, imp_false, Option.some.injEq, forall_eq',
      UInt32.not_le]

/-- A proposal that has no fault of its own, seen from a machine in its round. -/
structure Faultless (s : Setup) (m : Machine) (p : Proposal) : Prop where
  height : p.body.height = s.scope.height
  signed : p.verify = true
  named : p.body.block.hash = p.body.hash
  placed : p.body.block.height = s.scope.height
  turn : p.body.proposer
    = s.scope.validators.proposerAddress s.scope.height p.body.round
  round : p.body.round = m.round
  carries : Machine.validRoundFault? p.body = none

/-- The checks of a proposal, one by one, are what is said to be faultless. -/
theorem faultless_iff {m : Machine} {p : Proposal} :
    m.proposalFault? s p = none ↔ Faultless s m p := by
  unfold Machine.proposalFault?
  simp only [ite_eq_iff, reduceCtorEq, and_false, false_or, Decidable.not_not,
    Bool.not_eq_true', Bool.not_eq_false]
  constructor
  · rintro ⟨height, signed, named, placed, turn, round, carries⟩
    exact ⟨height, signed, named, placed, turn, round, carries⟩
  · rintro ⟨height, signed, named, placed, turn, round, carries⟩
    exact ⟨height, signed, named, placed, turn, round, carries⟩

/-- A proposal without a fault names its block by the block's own hash, and
the block is of this height. -/
theorem block_of_proposalFault? {m : Machine} {proposal : Proposal}
    (sound : m.proposalFault? s proposal = none) :
    proposal.body.block.hash = proposal.body.hash
      ∧ proposal.body.block.height = s.scope.height :=
  ⟨(faultless_iff.1 sound).named, (faultless_iff.1 sound).placed⟩

variable {admits : Life → Input → Prop} {l l' : Life}

/-- What an act records is its input. -/
theorem Act.log_sound {m m' : Machine} {es : List Effect} {given : List Input}
    (act : Act s w input m es m')
    (sound : m.log.Sound s.scope (Heard (given ++ [input]))
      (Offered s (given ++ [input]))) :
    m'.log.Sound s.scope (Heard (given ++ [input]))
      (Offered s (given ++ [input])) := by
  refine act.log_keeps.sound _ _ ?_ ?_ sound
  · intro vote news
    rw [news.1]
    exact ⟨List.mem_append_right _ (List.mem_singleton_self _),
      verify_of_voteRefusal? news.2⟩
  · intro proposal fresh
    rw [fresh.1]
    exact ⟨List.mem_append_right _ (List.mem_singleton_self _), fresh.2⟩

/-- What was given before was given. -/
theorem log_sound_append {h : HeightLog} {given : List Input}
    (sound : h.Sound s.scope (Heard given) (Offered s given))
    (more : List Input) :
    h.Sound s.scope (Heard (given ++ more)) (Offered s (given ++ more)) :=
  sound.mono (fun _ heard => ⟨List.mem_append_left _ heard.1, heard.2⟩)
    (fun _ offered => ⟨List.mem_append_left _ offered.1, offered.2⟩)

/-- All that is recorded was given, well signed and without a fault. -/
theorem Reachable.log_sound (h : Reachable s admits l) :
    l.machine.log.Sound s.scope (Heard l.given) (Offered s l.given) := by
  refine Leads.keeps
    (P := fun given m _ => m.log.Sound s.scope (Heard given) (Offered s given))
    ?_ ?_ h (HeightLog.sound_start s.scope _ _)
  · intro l w input m m' es asked _ _ act sound
    exact act.log_sound sound
  · intro given m asked input sound
    exact log_sound_append sound [input]

/-- All that was recorded stays recorded. -/
theorem Leads.log_grows (leads : Leads s admits l l') :
    l.machine.log.Grows l'.machine.log := by
  refine Leads.keeps (P := fun _ m _ => l.machine.log.Grows m.log) ?_ ?_ leads
    (.refl _)
  · intro l w input m m' es asked _ _ act grown
    exact grown.trans act.log_keeps.grows
  · intro given m asked input grown
    exact grown

end Quorum
