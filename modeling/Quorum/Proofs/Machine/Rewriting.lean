/-
What acts write into the record.

An act that changes the record of a round counts a vote in it, takes up its
proposal, drops its proposal, or changes no more than marks and claims
(`Act.rewrites`). So votes and proposals move only where a message is handled,
and a fact about them that holds between two rules need be looked at in four
cases.
-/
import Quorum.Proofs.Machine.Recorded
import Quorum.Proofs.Record.Round

namespace Quorum

-- ================================================ the record of a round

namespace Machine

/-- The proposal is read off the record, be it stored or not. -/
theorem proposal?_eq (m : Machine) :
    m.proposal? = (m.log.getOrFresh m.round).proposal := by
  unfold proposal? HeightLog.getOrFresh
  cases m.log.get? m.round <;> rfl

/-- So is a majority of prevotes. -/
theorem prevoteMajority?_eq_record (m : Machine) (round : Round) :
    m.prevoteMajority? round = (m.log.getOrFresh round).prevotes.majority := by
  unfold prevoteMajority? HeightLog.getOrFresh
  cases m.log.get? round <;> rfl

/-- And one of precommits. -/
theorem precommitMajority?_eq_record (m : Machine) (round : Round) :
    m.precommitMajority? round
      = (m.log.getOrFresh round).precommits.majority := by
  unfold precommitMajority? HeightLog.getOrFresh
  cases m.log.get? round <;> rfl

/-- No power is not more than two thirds. -/
theorem someTwoThirds_of_empty (s : Scope) {t : Tally} (none_ : t.power = 0) :
    t.someTwoThirds s = false := by
  unfold Tally.someTwoThirds
  rw [none_]
  by_contra exceeds
  rw [Bool.not_eq_false, ValidatorSet.exceedsTwoThirds_iff] at exceeds
  simp at exceeds

/-- No power is not more than a third. -/
theorem someThird_of_empty (s : Scope) {t : Tally} (none_ : t.power = 0) :
    t.someThird s = false := by
  unfold Tally.someThird
  rw [none_]
  by_contra exceeds
  rw [Bool.not_eq_false, ValidatorSet.exceedsOneThird_iff] at exceeds
  simp at exceeds

/-- A round that is not there has no power, so it can be read as an empty one. -/
theorem prevotesSomeThird_eq_record (s : Setup) (m : Machine) (round : Round) :
    m.prevotesSomeThird s round
      = (m.log.getOrFresh round).prevotes.someThird s.scope := by
  unfold prevotesSomeThird HeightLog.getOrFresh
  cases m.log.get? round with
  | none => exact (someThird_of_empty s.scope rfl).symm
  | some l => rfl

/-- Two thirds of the prevotes, likewise. -/
theorem prevotesSomeTwoThirds_eq_record (s : Setup) (m : Machine)
    (round : Round) :
    m.prevotesSomeTwoThirds s round
      = (m.log.getOrFresh round).prevotes.someTwoThirds s.scope := by
  unfold prevotesSomeTwoThirds HeightLog.getOrFresh
  cases m.log.get? round with
  | none => exact (someTwoThirds_of_empty s.scope rfl).symm
  | some l => rfl

/-- Two thirds of the precommits, likewise. -/
theorem precommitsSomeTwoThirds_eq_record (s : Setup) (m : Machine)
    (round : Round) :
    m.precommitsSomeTwoThirds s round
      = (m.log.getOrFresh round).precommits.someTwoThirds s.scope := by
  unfold precommitsSomeTwoThirds HeightLog.getOrFresh
  cases m.log.get? round with
  | none => exact (someTwoThirds_of_empty s.scope rfl).symm
  | some l => rfl

/-- At rest nothing is recorded. -/
theorem getOrFresh_initial (s : Setup) (round : Round) :
    (initial s).log.getOrFresh round = RoundLog.fresh round :=
  HeightLog.getOrFresh_openRound ⟨[], 0, []⟩ 0 round

end Machine

-- ================================================================= marks

namespace Machine

/-- A slot that is armed changes no more than marks. -/
theorem marked_armed (m : Machine) (armed : Round) (slot : TimerSlot)
    (round : Round) :
    (m.log.getOrFresh round).Marked
      ((m.armed armed slot).log.getOrFresh round) := by
  unfold Machine.armed
  split
  case isTrue => exact .refl _
  case isFalse =>
    refine HeightLog.marked_put ?_ round
    rw [RoundLog.round_arm, HeightLog.round_getOrFresh]
    exact RoundLog.marked_arm _ slot

/-- To arm a slot leaves all others as they are. -/
theorem isArmed_armed_eq (m : Machine) (armed : Round) (slot : TimerSlot)
    (round : Round) (other : TimerSlot) :
    ((m.armed armed slot).log.getOrFresh round).isArmed other
      = (decide (round = armed ∧ other = slot)
        || (m.log.getOrFresh round).isArmed other) := by
  unfold Machine.armed
  split
  case isTrue before =>
    by_cases here : round = armed ∧ other = slot
    · rw [here.1, here.2, before, Bool.or_true]
    · rw [decide_eq_false here, Bool.false_or]
  case isFalse =>
    dsimp only
    rw [HeightLog.getOrFresh_put, RoundLog.round_arm, HeightLog.round_getOrFresh]
    split
    case isTrue here =>
      subst here
      rw [RoundLog.isArmed_arm]
      simp only [true_and]
      rfl
    case isFalse away =>
      rw [decide_eq_false fun here => away here.1, Bool.false_or]

/-- And it is armed then. -/
theorem isArmed_armed (m : Machine) (round : Round) (slot : TimerSlot) :
    ((m.armed round slot).log.getOrFresh round).isArmed slot = true := by
  rw [isArmed_armed_eq, decide_eq_true ⟨rfl, rfl⟩, Bool.true_or]

/-- To act on a majority changes no more than a mark. -/
theorem marked_sawQuorum (m : Machine) (seen round : Round) :
    (m.log.getOrFresh round).Marked
      ((m.sawQuorum seen).log.getOrFresh round) := by
  refine HeightLog.marked_put ?_ round
  show (m.log.getOrFresh (m.log.getOrFresh seen).round).Marked _
  rw [HeightLog.round_getOrFresh]
  exact ⟨.refl _, .refl _, rfl⟩

/-- To open a round changes no more than marks. -/
theorem marked_opening [Crypto] (s : Setup) (w : World) (m : Machine)
    (opened round : Round) :
    (m.log.getOrFresh round).Marked
      ((opening s w m opened).1.log.getOrFresh round) := by
  unfold opening
  split
  · split
    · exact .refl _
    · exact marked_armed m opened .propose round
  · exact marked_armed m opened .propose round

/-- A claim changes no more than claims. -/
theorem marked_addClaim [Crypto] (s : Setup) (w : World) (m : Machine)
    (claim : Claim) (round : Round) :
    (m.log.getOrFresh round).Marked
        ((m.addClaim s w claim).1.log.getOrFresh round)
      ∧ ((m.addClaim s w claim).1.log.getOrFresh round).armed
        = (m.log.getOrFresh round).armed := by
  cases claiming_addClaim s w m claim with
  | barred _ same =>
    rw [same]
    exact ⟨.refl _, rfl⟩
  | changed opened _ _ _ opens _ _ same =>
    have reads := HeightLog.getOrFresh_openFor? opens round
    rw [same]
    exact ⟨.of_eq reads, congrArg _ reads⟩
  | recorded opened t t' opens found added same =>
    have reads := HeightLog.getOrFresh_openFor? opens
    obtain ⟨-, -, alike⟩ := HeightLog.addClaim_eq added
    rw [same]
    dsimp only
    rw [HeightLog.getOrFresh_put, HeightLog.round_setTally,
      HeightLog.round_getOrFresh]
    split
    case isTrue here =>
      subst here
      rw [← reads]
      exact ⟨RoundLog.marked_setTally found alike, RoundLog.armed_setTally _ _ _⟩
    case isFalse => exact ⟨.of_eq (reads round), congrArg _ (reads round)⟩

end Machine

-- ============================================================== rewriting

/-- How an act rewrites the record. -/
inductive Rewrites [Crypto] (s : Setup) (input : Input) (m m' : Machine) : Prop
  | counts (vote : Vote) (given : input = .message (.vote vote))
      (sound : Machine.voteRefusal? s vote = none) (round : m'.round = m.round)
      (log : m'.log = (m.log.addVote s.scope vote).1)
  | takesUp (proposal : Proposal) (given : input = .message (.proposal proposal))
      (sound : m.proposalRefusal? s proposal = none) (round : m'.round = m.round)
      (log : m'.log = m.log.put { m.log.getOrFresh proposal.body.round with
        proposal := some proposal })
  | drops (proposal : Proposal) (majority : BlockHash)
      (step : m.step = .prevote) (held : m.proposal? = some proposal)
      (other : m.prevoteMajority? m.round = some majority)
      (real : majority.isNil = false)
      (differs : proposal.body.hash ≠ majority) (round : m'.round = m.round)
      (log : m'.log = m.log.put (m.log.getOrFresh m.round).discard)
  /-- It changes no more than marks and claims. -/
  | marks (marked : ∀ round,
      (m.log.getOrFresh round).Marked (m'.log.getOrFresh round))

section

variable [Crypto] {s : Setup} {w : World} {input : Input} {m m' : Machine}
  {es asked : List Effect}

/-- A proposal that is taken up is of the current round. -/
theorem round_of_proposalRefusal? {proposal : Proposal}
    (sound : m.proposalRefusal? s proposal = none) :
    proposal.body.round = m.round :=
  (faultless_iff.1 (proposalFault?_of_refusal? sound)).round

/-- What leaves the log rewrites nothing. -/
theorem rewrites_of_same_log (same : m'.log = m.log) : Rewrites s input m m' :=
  .marks fun _ => .of_eq (by rw [same])

/-- An act rewrites the record in one of the four ways. -/
theorem Act.rewrites (act : Act s w input m es m') : Rewrites s input m m' := by
  cases act with
  | count vote given sound => exact .counts vote given sound rfl rfl
  | claim claim =>
    exact .marks fun round => (Machine.marked_addClaim s w m claim round).1
  | takeUp proposal given sound => exact .takesUp proposal given sound rfl rfl
  | beginRound round log cause moved =>
    refine .marks fun r => ?_
    have reads := HeightLog.getOrFresh_setRound moved r
    have opens := Machine.marked_opening s w
      { m with log := log, round := round, step := .propose } round r
    exact (RoundLog.Marked.of_eq reads).trans opens
  -- the mark that the majority was acted on, and the timer
  | lock proposal pinned step held pins unseen majority valid marked seen =>
    refine .marks fun round => ?_
    have before := Machine.marked_sawQuorum
      (m.judged s w pinned.hash pinned.block) m.round round
    have after := Machine.marked_armed marked m.round .precommitWait round
    rw [seen] at after ⊢
    exact before.trans after
  | remember => exact .marks fun round => Machine.marked_sawQuorum _ _ round
  | discard proposal majority step held other real differs =>
    exact .drops proposal majority step held other real differs rfl rfl
  | wait kind waits => exact .marks fun round => Machine.marked_armed _ _ _ round
  | decideBlock proposal pinned started undecided held pins majority valid
      pinning decided =>
    refine .marks fun round => ?_
    have after := Machine.marked_armed pinning m.round .endCommitWait round
    rw [decided] at after ⊢
    exact after
  | _ => exact rewrites_of_same_log rfl

/-- What an act does to the proposal of a round. -/
inductive Places (s : Setup) (input : Input) (m m' : Machine) (round : Round) : Prop
  | same (reads : (m'.log.getOrFresh round).proposal = (m.log.getOrFresh round).proposal)
  /-- It takes up the one given, which is of the current round. -/
  | taken (proposal : Proposal) (given : input = .message (.proposal proposal))
      (sound : m.proposalRefusal? s proposal = none) (here : round = m.round)
      (held : (m'.log.getOrFresh round).proposal = some proposal)
  /-- It drops that of the current round. -/
  | gone (proposal : Proposal) (majority : BlockHash) (step : m.step = .prevote)
      (held : m.proposal? = some proposal)
      (other : m.prevoteMajority? m.round = some majority)
      (differs : proposal.body.hash ≠ majority) (here : round = m.round)
      (none_ : (m'.log.getOrFresh round).proposal = none)

/-- A proposal is kept, taken up or dropped; the last two only in the current
round. -/
theorem Act.places (act : Act s w input m es m') (round : Round) :
    Places s input m m' round := by
  cases act.rewrites with
  | counts vote given sound same log =>
    exact .same (log ▸ HeightLog.proposal_addVote s.scope m.log vote round)
  | takesUp proposal given sound same log =>
    have number := round_of_proposalRefusal? sound
    have reads := HeightLog.getOrFresh_put m.log
      { m.log.getOrFresh proposal.body.round with proposal := some proposal } round
    rw [← log, HeightLog.round_getOrFresh, number] at reads
    by_cases here : round = m.round
    · rw [if_pos here] at reads
      exact .taken proposal given sound here (by rw [reads])
    · rw [if_neg here] at reads
      exact .same (by rw [reads])
  | drops proposal majority step held other real differs same log =>
    have reads := HeightLog.getOrFresh_put m.log (m.log.getOrFresh m.round).discard round
    have number : (m.log.getOrFresh m.round).discard.round = m.round :=
      HeightLog.round_getOrFresh m.log m.round
    rw [← log, number] at reads
    by_cases here : round = m.round
    · rw [if_pos here] at reads
      exact .gone proposal majority step held other differs here (by rw [reads]; rfl)
    · rw [if_neg here] at reads
      exact .same (by rw [reads])
  | marks marked => exact .same (marked round).proposal

/-- What a recorded vote keeps of a round, and what does not look beyond its
tallies, nor there at claims, every act keeps. -/
theorem Act.keeps_tallies {P : RoundLog → Prop} {round : Round}
    (act : Act s w input m es m')
    (alike : ∀ l l' : RoundLog, l.prevotes.Alike l'.prevotes →
      l.precommits.Alike l'.precommits → P l → P l')
    (records : ∀ {kind t} (vote : Vote),
      (m.log.getOrFresh round).tally? kind = some t →
      t.refusal? s.scope vote = none → P (m.log.getOrFresh round) →
      P ((m.log.getOrFresh round).setTally kind (t.record s.scope vote)))
    (start : P (m.log.getOrFresh round)) : P (m'.log.getOrFresh round) := by
  cases act.rewrites with
  | counts vote given sound same log =>
    rw [log]
    rcases HeightLog.addVote_cases s.scope m.log vote
      with ⟨fault, -, reads⟩ | ⟨t, found, admitted, -, reads⟩
    · rw [reads]
      exact start
    · rw [reads]
      split
      case isTrue here =>
        rw [← here] at found
        exact records vote found admitted start
      case isFalse => exact start
  -- a proposal is none of the tallies' business
  | takesUp proposal given sound same log =>
    rw [log, HeightLog.getOrFresh_put, HeightLog.round_getOrFresh]
    split
    case isTrue here =>
      rw [here] at start
      exact alike _ _ (.refl (m.log.getOrFresh proposal.body.round).prevotes) (.refl _) start
    case isFalse => exact start
  | drops proposal majority step held other real differs same log =>
    rw [log, HeightLog.getOrFresh_put]
    split
    case isTrue here =>
      have here : round = m.round := here.trans (HeightLog.round_getOrFresh _ _)
      rw [here] at start
      exact alike _ _ (.refl (m.log.getOrFresh m.round).prevotes) (.refl _) start
    case isFalse => exact start
  | marks marked => exact alike _ _ (marked round).prevotes (marked round).precommits start

/-- No act brings more than two thirds together without a majority. -/
theorem Act.complete_keeps (act : Act s w input m es m') {round : Round}
    (complete : (m.log.getOrFresh round).Complete s.scope) :
    (m'.log.getOrFresh round).Complete s.scope :=
  act.keeps_tallies
    (fun _ _ prevotes precommits held => held.congr prevotes precommits)
    (fun vote found _ held => held.setTally found vote) complete

/-- Whatever a machine is given, wherever a hash has more than two thirds there
is a majority. -/
theorem Reachable.complete {admits : Life → Input → Prop} {l : Life}
    (h : Reachable s admits l) (round : Round) :
    (l.machine.log.getOrFresh round).Complete s.scope := by
  refine Leads.keeps
    (P := fun _ m _ => (m.log.getOrFresh round).Complete s.scope)
    (fun _ _ act held => act.complete_keeps held) (fun _ held => held) h ?_
  dsimp only [Life.initial]
  rw [Machine.getOrFresh_initial]
  exact RoundLog.complete_fresh s.scope round

/-- What each act keeps of the machine alone, acts one after the other keep. -/
theorem Acts.keeps_machine {P : Machine → Prop}
    (step : ∀ {m m' es}, Act s w input m es m' → P m → P m')
    (acts : Acts s w input m es m') (start : P m) : P m' := by
  induction acts with
  | rest => exact start
  | act first _ ih => exact ih (step first start)

end

end Quorum
