/-
The first vote of a validator stands.

Of every validator a round has one vote of a kind at most, and it is the one
that came first: votes are only added, and a validator that has voted is kept
out (`addVote_of_standing`). So what becomes of a vote that is a validator's, and
states its power, is decided by the vote that stands. If there is none, this one
stands from now on, as far as its round is open. Otherwise it says the same and
is known already, or it says something else and is the second half of a
conflict.
-/
import Quorum.Proofs.Record.Allowance
import Quorum.Proofs.Record.Certificate

namespace Quorum

/-- A vote of this height that its validator may cast: it states the power that
the validator has. -/
structure Vote.Countable (s : Scope) (vote : Vote) : Prop where
  height : vote.body.height = s.height
  power : s.validators.powerOf? vote.body.validator = some vote.body.power
  counts : vote.body.kind ≠ .null

namespace HeightLog

variable {s : Scope} {h h' : HeightLog} {heard : Vote → Prop}
  {offered : Proposal → Prop} {vote first : Vote} {round : Round}
  {kind : VoteKind} {address : Address}

/-- The vote that a validator is recorded with in a round. -/
def voteOf? (h : HeightLog) (round : Round) (kind : VoteKind)
    (address : Address) : Option Vote :=
  ((h.getOrFresh round).tally? kind).bind (·.voteOf? address)

/-- The vote that stands where this one would. -/
def standing? (h : HeightLog) (vote : Vote) : Option Vote :=
  h.voteOf? vote.body.round vote.body.kind vote.body.validator

/-- What the vote recorded for a validator shares with its place. -/
theorem voteOf?_spec (sound : h.Sound s heard offered)
    (known : h.voteOf? round kind address = some vote) :
    heard vote ∧ vote.body.validator = address ∧ vote.body.height = s.height
      ∧ vote.body.round = round ∧ vote.body.kind = kind := by
  obtain ⟨t, found, votes⟩ := Option.bind_eq_some_iff.1 known
  obtain ⟨recorded, author⟩ := Tally.voteOf?_spec votes
  have tally := (sound.getOrFresh round).tally _ t found
  rw [round_getOrFresh] at tally
  exact ⟨tally.heard_of_mem vote recorded, author, tally.height_of_mem vote recorded,
    tally.round_of_mem vote recorded, tally.kind_of_mem vote recorded⟩

/-- A recorded vote has the power of its validator. -/
theorem Thrifty.power_of_voteOf? (thrifty : h.Thrifty s)
    (known : h.voteOf? round kind address = some vote) :
    s.validators.powerOf? vote.body.validator = some vote.body.power := by
  obtain ⟨t, found, votes⟩ := Option.bind_eq_some_iff.1 known
  exact (thrifty.getOrFresh round _ t found).power vote (Tally.voteOf?_spec votes).1

/-- A vote that is recorded stands where it is. -/
theorem standing?_of_voteOf? (sound : h.Sound s heard offered)
    (known : h.voteOf? round kind address = some vote) :
    h.standing? vote = some vote := by
  obtain ⟨-, rfl, -, rfl, rfl⟩ := voteOf?_spec sound known
  exact known

/-- It may be counted wherever it comes. -/
theorem countable_of_voteOf? (sound : h.Sound s heard offered) (thrifty : h.Thrifty s)
    (known : h.voteOf? round kind address = some vote) : Vote.Countable s vote := by
  obtain ⟨-, -, height, -, rfl⟩ := voteOf?_spec sound known
  refine ⟨height, thrifty.power_of_voteOf? known, fun null => ?_⟩
  rw [null] at known
  cases known

theorem Grows.voteOf? (grows : h.Grows h')
    (known : h.voteOf? round kind address = some vote) :
    h'.voteOf? round kind address = some vote := by
  obtain ⟨t, found, votes⟩ := Option.bind_eq_some_iff.1 known
  obtain ⟨t', found', grown⟩ := grows.getOrFresh found
  obtain ⟨more, same⟩ := grown.votes
  refine Option.bind_eq_some_iff.2 ⟨t', found', ?_⟩
  unfold Tally.voteOf? at votes ⊢
  rw [← same, List.find?_append, votes]
  rfl

/-- A vote that stands is in a round that is there. -/
theorem exists_get?_of_standing? (known : h.standing? vote = some first) :
    ∃ l, h.get? vote.body.round = some l := by
  cases here : h.get? vote.body.round with
  | some l => exact ⟨l, rfl⟩
  | none =>
    obtain ⟨t, found, votes⟩ := Option.bind_eq_some_iff.1 known
    rw [getOrFresh_of_absent here] at found
    rw [tally?_fresh found] at votes
    cases votes

/-- A countable vote fits the tally of its round and kind. -/
theorem fits_of_countable (sound : h.Sound s heard offered)
    (countable : Vote.Countable s vote) {t : Tally}
    (found : (h.getOrFresh vote.body.round).tally? vote.body.kind = some t) :
    t.Fits s vote := by
  have tally := (sound.getOrFresh vote.body.round).tally _ t found
  rw [round_getOrFresh] at tally
  exact ⟨countable.height, tally.round_eq.symm, tally.kind_eq.symm, countable.power⟩

-- ============================================================== counting

/-- Where a vote stands, another is refused, and nothing changes. -/
theorem addVote_of_standing (sound : h.Sound s heard offered)
    (countable : Vote.Countable s vote) (known : h.standing? vote = some first) :
    h.addVote s vote = (h, .error (if first.body.hash = vote.body.hash then
      .vote (.recorded vote.body.kind vote.body.validator)
      else .conflict first vote)) := by
  obtain ⟨t, found, votes⟩ := Option.bind_eq_some_iff.1 known
  obtain ⟨l, here⟩ := exists_get?_of_standing? known
  have fits := fits_of_countable sound countable found
  have refused : t.refusal? s vote = some (if first.body.hash = vote.body.hash then
      .vote (.recorded vote.body.kind vote.body.validator)
      else .conflict first vote) := by
    rw [Tally.refusal?_of_fits fits, votes, fits.kind]
    rfl
  have member := ValidatorSet.contains_of_powerOf? countable.power
  unfold addVote
  dsimp only
  rw [if_neg (not_not.2 countable.height), member, openFor?_of_exists here,
    Bool.not_true, if_neg Bool.false_ne_true]
  dsimp only
  rw [found]
  dsimp only
  unfold Tally.add
  rw [refused]

/-- Where no vote stands, this one does, once its round is open. -/
theorem addVote_of_open (sound : h.Sound s heard offered)
    (countable : Vote.Countable s vote) (new : h.standing? vote = none)
    (opens : (h.openFor? vote.body.round vote.body.validator).isSome = true) :
    (h.addVote s vote).2 = .ok ()
      ∧ (h.addVote s vote).1.standing? vote = some vote := by
  have unvoted : ∀ {opened t}, h.openFor? vote.body.round vote.body.validator
      = some opened →
      (opened.getOrFresh vote.body.round).tally? vote.body.kind = some t →
      t.Fits s vote ∧ t.voteOf? vote.body.validator = none := by
    intro opened t opens found
    rw [getOrFresh_openFor? opens] at found
    unfold standing? voteOf? at new
    rw [found] at new
    exact ⟨fits_of_countable sound countable found, new⟩
  cases counting_addVote s h vote with
  | barred _ bar =>
    rcases bar with away | outside | closed
    · exact absurd countable.height away
    · cases outside.symm.trans (ValidatorSet.contains_of_powerOf? countable.power)
    · rw [closed] at opens
      cases opens
  | uncounted null => exact absurd null countable.counts
  | kept t fault _ _ opens found kept =>
    obtain ⟨fits, unheard⟩ := unvoted opens found
    rw [Tally.refusal?_of_fits fits, unheard] at kept
    cases kept
  | recorded opened t opens found _ same counted =>
    obtain ⟨-, unheard⟩ := unvoted opens found
    refine ⟨counted, ?_⟩
    have stored : (h.addVote s vote).1.getOrFresh vote.body.round
        = (opened.getOrFresh vote.body.round).setTally vote.body.kind
          (t.record s vote) := by
      rw [same, getOrFresh_put, round_setTally, round_getOrFresh, if_pos rfl]
    unfold standing? voteOf?
    rw [stored, tally?_setTally t found, if_pos rfl]
    -- of the votes recorded then, this one is the first of its validator
    show (t.record s vote).voteOf? vote.body.validator = some vote
    unfold Tally.voteOf? at unheard ⊢
    rw [Tally.record_votes, List.find?_append, unheard]
    simp

/-- A round that is closed to a validator is the fault of a vote for it. -/
theorem addVote_of_closed (countable : Vote.Countable s vote)
    (closed : h.openFor? vote.body.round vote.body.validator = none) :
    h.addVote s vote = (h, .error
      (.vote (.allowanceSpent vote.body.validator vote.body.round))) := by
  have member := ValidatorSet.contains_of_powerOf? countable.power
  unfold addVote
  dsimp only
  rw [if_neg (not_not.2 countable.height), member, closed]
  rfl

/-- Only a countable vote is counted. -/
theorem countable_of_addVote (counted : (h.addVote s vote).2 = .ok ()) :
    Vote.Countable s vote := by
  cases counting_addVote s h vote with
  | barred _ _ _ fails => cases counted.symm.trans fails
  | uncounted _ _ fails => cases counted.symm.trans fails
  | kept _ _ _ _ _ _ _ fails => cases counted.symm.trans fails
  | recorded opened t opens found admitted =>
    have fits := Tally.fits_of_refusal? admitted
    refine ⟨fits.height, fits.power, fun null => ?_⟩
    rw [null] at found
    cases found

/-- Only a countable vote is in conflict, and with the one that stands. -/
theorem addVote_conflict {second : Vote}
    (failed : (h.addVote s vote).2 = .error (.conflict first second)) :
    second = vote ∧ Vote.Countable s vote ∧ h.standing? vote = some first
      ∧ first.body.hash ≠ vote.body.hash := by
  cases counting_addVote s h vote with
  | barred _ _ _ fails => cases failed.symm.trans fails
  | uncounted _ _ fails => cases failed.symm.trans fails
  | recorded _ _ _ _ _ _ counts => cases failed.symm.trans counts
  | kept t fault height member opens found kept fails =>
    cases failed.symm.trans fails
    by_cases fits : t.Fits s vote
    · rw [Tally.refusal?_of_fits fits] at kept
      obtain ⟨recorded, votes, fault⟩ := Option.map_eq_some_iff.1 kept
      split at fault
      case isTrue => cases fault
      case isFalse differs =>
        cases fault
        rw [getOrFresh_openFor? opens] at found
        have counts : vote.body.kind ≠ .null := by
          intro null
          rw [null] at found
          cases found
        refine ⟨rfl, ⟨height, fits.power, counts⟩, ?_, differs⟩
        unfold standing? voteOf?
        rw [found]
        exact votes
    · obtain ⟨cause, refused⟩ := Tally.refusal?_of_not_fits fits
      cases kept.symm.trans refused

end HeightLog

end Quorum
