/-
A round is looked at in the same way before there is a record of it.

A record that is missing stands for an empty one (`getOrFresh`), so what the
rules read off a round can be said of every round, and opening one changes
nothing that can be read. What is left are the four ways in which a record
is written: a vote is counted, a proposal is taken up, a proposal is dropped,
or only marks and claims are changed (`Marked`).
-/
import Quorum.Proofs.Record.Height

namespace Quorum

-- =============================================================== looking

namespace HeightLog

variable {h : HeightLog}

/-- A record that is there is what is read. -/
theorem getOrFresh_of_get? {round : Round} {l : RoundLog}
    (found : h.get? round = some l) : h.getOrFresh round = l := by
  unfold getOrFresh
  rw [found]
  rfl

/-- Where there is none, an empty one is read. -/
theorem getOrFresh_of_absent {round : Round} (absent : h.get? round = none) :
    h.getOrFresh round = RoundLog.fresh round := by
  unfold getOrFresh
  rw [absent]
  rfl

/-- What is stored is what is found there afterwards, and the other rounds
are as they were. -/
theorem getOrFresh_put (h : HeightLog) (l : RoundLog) (round : Round) :
    (h.put l).getOrFresh round
      = if round = l.round then l else h.getOrFresh round := by
  split
  case isTrue here =>
    rw [here]
    exact getOrFresh_of_get? (get?_put_self h l)
  case isFalse away =>
    unfold getOrFresh
    rw [get?_put_of_ne h away]

/-- Opening a round changes nothing that can be read of any. -/
theorem getOrFresh_openRound (h : HeightLog) (opened round : Round) :
    (h.openRound opened).getOrFresh round = h.getOrFresh round := by
  unfold openRound
  split
  case isTrue => rfl
  case isFalse absent =>
    have absent : h.get? opened = none := by simpa using absent
    rw [getOrFresh_put]
    split
    case isTrue here =>
      have same : round = opened := here
      rw [same, getOrFresh_of_absent absent]
    case isFalse => rfl

/-- Nor does opening several. -/
theorem getOrFresh_openRounds (h : HeightLog) (first count : Nat)
    (round : Round) :
    (h.openRounds first count).getOrFresh round = h.getOrFresh round := by
  induction count generalizing h first with
  | zero => rfl
  | succ count ih => exact (ih _ _).trans (getOrFresh_openRound h _ round)

/-- A move opens rounds, so it changes nothing that can be read. -/
theorem getOrFresh_setRound {moved : Round} {h' : HeightLog}
    (moves : h.setRound moved = .ok h') (round : Round) :
    h'.getOrFresh round = h.getOrFresh round := by
  obtain ⟨-, rfl⟩ := setRound_eq_ok_iff.1 moves
  exact getOrFresh_openRounds h _ _ round

/-- What is charged for a round is not part of any. -/
theorem getOrFresh_openFor? {opened : Round} {author : Address} {h' : HeightLog}
    (opens : h.openFor? opened author = some h') (round : Round) :
    h'.getOrFresh round = h.getOrFresh round := by
  rcases openFor?_cases opens with ⟨-, -, rfl⟩ | ⟨-, rfl⟩
  · exact getOrFresh_openRound h _ round
  · exact getOrFresh_openRound h _ round

/-- A move goes through where it does not go back. -/
theorem exists_setRound {round : Round} (forward : h.round ≤ round) :
    ∃ h', h.setRound round = .ok h' :=
  ⟨_, setRound_eq_ok_iff.2 ⟨forward, rfl⟩⟩

end HeightLog

-- ================================================================= marks

/-- A record that differs in its marks and in what peers claim. -/
structure RoundLog.Marked (l l' : RoundLog) : Prop where
  prevotes : l.prevotes.Alike l'.prevotes
  precommits : l.precommits.Alike l'.precommits
  proposal : l'.proposal = l.proposal

namespace RoundLog.Marked

theorem refl (l : RoundLog) : l.Marked l := ⟨.refl _, .refl _, rfl⟩

theorem of_eq {l l' : RoundLog} (same : l' = l) : l.Marked l' := same ▸ refl l

/-- Marks may be changed again and again. -/
theorem trans {l l' l'' : RoundLog} (h : l.Marked l') (h' : l'.Marked l'') :
    l.Marked l'' :=
  ⟨h.prevotes.trans h'.prevotes, h.precommits.trans h'.precommits,
    h'.proposal.trans h.proposal⟩

end RoundLog.Marked

/-- An armed slot is a mark. -/
theorem RoundLog.marked_arm (l : RoundLog) (slot : TimerSlot) :
    l.Marked (l.arm slot) := by
  unfold arm
  split
  · exact .refl l
  · exact ⟨.refl _, .refl _, rfl⟩

/-- The round keeps its number. -/
theorem RoundLog.round_arm (l : RoundLog) (slot : TimerSlot) :
    (l.arm slot).round = l.round := by
  unfold arm
  split <;> rfl

/-- Where a round is stored again with other marks, all rounds are. -/
theorem HeightLog.marked_put {h : HeightLog} {l : RoundLog}
    (marked : (h.getOrFresh l.round).Marked l) (round : Round) :
    (h.getOrFresh round).Marked ((h.put l).getOrFresh round) := by
  rw [getOrFresh_put]
  split
  case isTrue here => exact here ▸ marked
  case isFalse => exact .refl _

-- ============================================================== counting

namespace Tally

/-- Wherever a hash has more than two thirds there is a majority. -/
def Complete (s : Scope) (t : Tally) : Prop :=
  ∀ hash, s.validators.exceedsTwoThirds (t.powerFor hash) = true →
    t.majority.isSome = true

/-- Without votes no hash has any power. -/
theorem complete_empty (s : Scope) (round : Round) (kind : VoteKind) :
    Complete s { round := round, kind := kind } := by
  intro hash exceeds
  have none_ : ({ round := round, kind := kind } : Tally).powerFor hash = 0 := rfl
  rw [ValidatorSet.exceedsTwoThirds_iff, none_] at exceeds
  exact absurd exceeds (by simp)

/-- Claims have no power. -/
theorem Complete.congr {s : Scope} {t t' : Tally} (h : t.Complete s)
    (alike : t.Alike t') : t'.Complete s := by
  intro hash exceeds
  rw [alike.powerFor] at exceeds
  rw [alike.majority]
  exact h hash exceeds

/-- A vote that brings a hash above two thirds brings about the majority, if there
was none. -/
theorem Complete.record {s : Scope} {t : Tally} (h : t.Complete s)
    (vote : Vote) : (t.record s vote).Complete s := by
  intro hash exceeds
  by_cases here : vote.body.hash = hash
  · -- had this vote made the difference, it would have made the majority
    subst here
    rw [record_majority_of_exceeds s t vote exceeds]
    cases t.majority <;> rfl
  · rw [powerFor_record, if_neg here] at exceeds
    obtain ⟨first, reached⟩ := Option.isSome_iff_exists.1 (h hash exceeds)
    rw [(grows_record s t vote).majority first reached]
    rfl

end Tally

/-- Tallies have nothing to do with timers. -/
theorem RoundLog.armed_setTally (l : RoundLog) (kind : VoteKind) (t : Tally) :
    (l.setTally kind t).armed = l.armed := by
  cases kind <;> rfl

/-- A tally of a record may be replaced by one that is like it. -/
theorem RoundLog.marked_setTally {l : RoundLog} {kind : VoteKind} {t t' : Tally}
    (found : l.tally? kind = some t) (alike : t.Alike t') :
    l.Marked (l.setTally kind t') := by
  cases kind with
  | null => cases found
  | prevote =>
    cases found
    exact ⟨alike, .refl _, rfl⟩
  | precommit =>
    cases found
    exact ⟨.refl _, alike, rfl⟩

namespace RoundLog

/-- Wherever a hash has more than two thirds of a kind there is a majority. -/
structure Complete (s : Scope) (l : RoundLog) : Prop where
  prevotes : l.prevotes.Complete s
  precommits : l.precommits.Complete s

/-- A fresh round has nothing to miss. -/
theorem complete_fresh (s : Scope) (round : Round) :
    (RoundLog.fresh round).Complete s :=
  ⟨Tally.complete_empty s round .prevote, Tally.complete_empty s round .precommit⟩

variable {s : Scope} {l l' : RoundLog}

theorem Complete.congr (h : l.Complete s) (prevotes : l.prevotes.Alike l'.prevotes)
    (precommits : l.precommits.Alike l'.precommits) : l'.Complete s :=
  ⟨h.prevotes.congr prevotes, h.precommits.congr precommits⟩

/-- A vote that is recorded in a round leaves no majority unseen. -/
theorem Complete.setTally (h : l.Complete s) {kind : VoteKind} {t : Tally}
    (found : l.tally? kind = some t) (vote : Vote) :
    (l.setTally kind (t.record s vote)).Complete s := by
  cases kind with
  | null => cases found
  | prevote =>
    cases found
    exact ⟨h.prevotes.record vote, h.precommits⟩
  | precommit =>
    cases found
    exact ⟨h.prevotes, h.precommits.record vote⟩

end RoundLog

namespace HeightLog

/-- A vote is refused, and no round reads differently, or it is recorded in
the tally of its round and kind, and nothing else is changed. -/
theorem addVote_cases (s : Scope) (h : HeightLog) (vote : Vote) :
    (∃ fault, (h.addVote s vote).2 = .error fault
        ∧ ∀ round, (h.addVote s vote).1.getOrFresh round = h.getOrFresh round)
      ∨ ∃ t, (h.getOrFresh vote.body.round).tally? vote.body.kind = some t
        ∧ t.refusal? s vote = none ∧ (h.addVote s vote).2 = .ok ()
        ∧ ∀ round, (h.addVote s vote).1.getOrFresh round
          = if round = vote.body.round
            then (h.getOrFresh round).setTally vote.body.kind (t.record s vote)
            else h.getOrFresh round := by
  cases counting_addVote s h vote with
  | barred _ _ same fails => exact Or.inl ⟨_, fails, fun round => by rw [same]⟩
  | uncounted _ opens fails => exact Or.inl ⟨_, fails, getOrFresh_openFor? opens⟩
  | kept _ _ _ _ opens _ _ fails =>
    exact Or.inl ⟨_, fails, getOrFresh_openFor? opens⟩
  | recorded opened t opens found admitted same counts =>
    have reads := getOrFresh_openFor? opens
    rw [reads] at found same
    refine Or.inr ⟨t, found, admitted, counts, fun round => ?_⟩
    rw [same, getOrFresh_put, round_setTally, round_getOrFresh, reads]
    split
    case isTrue here => rw [here]
    case isFalse => rfl

/-- A vote leaves the proposals as they are. -/
theorem proposal_addVote (s : Scope) (h : HeightLog) (vote : Vote) (round : Round) :
    ((h.addVote s vote).1.getOrFresh round).proposal
      = (h.getOrFresh round).proposal := by
  rcases addVote_cases s h vote with ⟨fault, -, reads⟩ | ⟨t, -, -, -, reads⟩
  · rw [reads]
  · rw [reads]
    split
    · exact proposal_setTally _ _ _
    · rfl

end HeightLog

/-- All that keeps out the vote of a validator, with the power it has, is another
vote of it. -/
theorem Tally.recorded_of_refusal? {s : Scope} {t : Tally} {vote : Vote}
    {fault : Fault} (fits : t.Fits s vote)
    (refused : t.refusal? s vote = some fault) :
    ∃ other ∈ t.votes, other.body.validator = vote.body.validator := by
  rw [refusal?_of_fits fits] at refused
  obtain ⟨other, known, -⟩ := Option.map_eq_some_iff.1 refused
  exact ⟨other, voteOf?_spec known⟩

namespace HeightLog

/-- A round that is not far ahead is open to everybody. -/
theorem exists_openFor? {h : HeightLog} {round : Round} (author : Address)
    (near : h.isAhead round = false) :
    ∃ opened, h.openFor? round author = some opened := by
  unfold openFor?
  rw [near]
  exact ⟨_, rfl⟩

/-- Growth is seen in rounds that do not exist yet, too. -/
theorem Grows.getOrFresh {h h' : HeightLog} (grows : h.Grows h') {round : Round}
    {kind : VoteKind} {t : Tally}
    (found : (h.getOrFresh round).tally? kind = some t) :
    ∃ t', (h'.getOrFresh round).tally? kind = some t' ∧ t.Grows t' := by
  cases here : h.get? round with
  | some l =>
    rw [getOrFresh_of_get? here] at found
    have stored : h.tallyOf? round kind = some t := by
      unfold tallyOf?
      rw [here]
      exact found
    obtain ⟨t', found', grown⟩ := grows round kind t stored
    exact ⟨t', tally?_getOrFresh found', grown⟩
  | none =>
    rw [getOrFresh_of_absent here] at found
    cases kind with
    | null => cases found
    | prevote =>
      cases found
      exact ⟨_, rfl, Tally.grows_empty _ _ _⟩
    | precommit =>
      cases found
      exact ⟨_, rfl, Tally.grows_empty _ _ _⟩

/-- Once a vote was handled that a validator signed, with the power it has, for
a round that is open to it, there is a vote of this validator. -/
theorem recorded_addVote {s : Scope} {h : HeightLog} {vote : Vote} {t : Tally}
    (height : vote.body.height = s.height)
    (power : s.validators.powerOf? vote.body.validator = some vote.body.power)
    (near : h.isAhead vote.body.round = false)
    (found : (h.getOrFresh vote.body.round).tally? vote.body.kind = some t)
    (round : t.round = vote.body.round) (kind : t.kind = vote.body.kind) :
    ∃ t', ((h.addVote s vote).1.getOrFresh vote.body.round).tally? vote.body.kind
        = some t'
      ∧ ∃ other ∈ t'.votes, other.body.validator = vote.body.validator := by
  obtain ⟨opened, opens⟩ := exists_openFor? vote.body.validator near
  cases counting_addVote s h vote with
  | barred _ bar =>
    rcases bar with other | outside | spent
    · exact absurd height other
    · cases outside.symm.trans (ValidatorSet.contains_of_powerOf? power)
    · cases spent.symm.trans opens
  | uncounted null =>
    rw [null] at found
    cases found
  | kept t' _ _ _ opens found' kept =>
    -- the tally refuses the vote for another one of its validator, and keeps that
    have reads := getOrFresh_openFor? opens
    rw [reads, found] at found'
    cases found'
    rw [reads]
    exact ⟨t, found,
      Tally.recorded_of_refusal? ⟨height, round.symm, kind.symm, power⟩ kept⟩
  | recorded opened t' _ found' _ same =>
    refine ⟨t'.record s vote, ?_, vote, ?_, rfl⟩
    · rw [same, getOrFresh_put, if_pos]
      · rw [tally?_setTally t' found', if_pos rfl]
      · rw [round_setTally, round_getOrFresh]
    · rw [Tally.record_votes]
      exact List.mem_append_right _ (List.mem_singleton_self _)

end HeightLog

end Quorum
