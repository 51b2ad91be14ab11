/-
The order of votes does not matter where nobody changes its mind.

Two votes that come one after the other may not be swapped freely: of two votes
of one validator the first is recorded and the other one is not, and the majority
is the first hash past two thirds. But what a tally counts can be told from the
bag of votes alone. A validator backs a hash if some vote of it that fits names
that hash (`backs_ofVotes`), as all of its votes name the same one; everything
else in the books is the weight of those who back a hash. The vote recorded for a
validator does depend on the order, unless there is just one.
-/
import Quorum.Proofs.Record.Accounting

namespace Quorum

namespace Tally

-- ================================================ statement vocabulary

/-- A new tally with these votes added one after the other, as far as they are not
refused. -/
def ofVotes (s : Scope) (round : Round) (kind : VoteKind) (votes : List Vote) : Tally :=
  after s { round := round, kind := kind } (votes.map .vote)

/-- No validator votes for two blocks among these votes, whether they count or
not. -/
def Unequivocal (votes : List Vote) : Prop :=
  ∀ a ∈ votes, ∀ b ∈ votes, a.body.validator = b.body.validator →
    a.body.hash = b.body.hash

/-- Two tallies count the same, and know the same validators by their hash. -/
structure SameCount (s : Scope) (t t' : Tally) : Prop where
  power : t'.power = t.power
  powerFor : ∀ hash, t'.powerFor hash = t.powerFor hash
  heldFor : ∀ hash, t'.heldFor s hash = t.heldFor s hash
  someThird : t'.someThird s = t.someThird s
  someTwoThirds : t'.someTwoThirds s = t.someTwoThirds s
  majority : t'.majority = t.majority

/-- They also give out the same votes. -/
structure SameVotes (s : Scope) (t t' : Tally) : Prop where
  votesFor : ∀ hash, t'.votesFor s hash = t.votesFor s hash
  certificate : t'.certificate? s = t.certificate? s

-- ========================================================== what is recorded

variable {s : Scope} {round : Round} {kind : VoteKind} {t : Tally}
  {votes votes' : List Vote} {vote : Vote} {address : Address} {hash : BlockHash}

/-- A vote that fits is recorded, unless one of its validator is; others are not. -/
theorem call_vote_cases (s : Scope) (t : Tally) (vote : Vote) :
    (t.call s (.vote vote) = t.record s vote ∧ t.Fits s vote)
      ∨ t.call s (.vote vote) = t
        ∧ (t.Fits s vote → ∃ first, t.voteOf? vote.body.validator = some first) := by
  unfold call answer add
  dsimp only
  cases kept : t.refusal? s vote with
  | none => exact Or.inl ⟨rfl, fits_of_refusal? kept⟩
  | some fault =>
    refine Or.inr ⟨rfl, fun fits => ?_⟩
    rw [refusal?_of_fits fits] at kept
    obtain ⟨first, known, -⟩ := Option.map_eq_some_iff.1 kept
    exact ⟨first, known⟩

/-- What fits before a vote fits after it. -/
theorem fits_call (s : Scope) (t : Tally) (other : Vote) :
    (t.call s (.vote other)).Fits s vote ↔ t.Fits s vote := by
  have same : (t.call s (.vote other)).round = t.round
      ∧ (t.call s (.vote other)).kind = t.kind := by
    rcases call_vote_cases s t other with ⟨recorded, -⟩ | ⟨kept, -⟩
    · rw [recorded]
      exact ⟨record_round s t other, record_kind s t other⟩
    · rw [kept]
      exact ⟨rfl, rfl⟩
  constructor
  · intro fits
    exact ⟨fits.height, fits.round.trans same.1, fits.kind.trans same.2, fits.power⟩
  · intro fits
    exact ⟨fits.height, fits.round.trans same.1.symm, fits.kind.trans same.2.symm,
      fits.power⟩

/-- What is recorded was recorded before, or is one of the votes that fit. -/
theorem mem_after (recorded : vote ∈ (t.after s (votes.map .vote)).votes) :
    vote ∈ t.votes ∨ vote ∈ votes ∧ t.Fits s vote := by
  induction votes generalizing t with
  | nil => exact Or.inl recorded
  | cons first votes ih =>
    rcases ih recorded with before | ⟨later, fits⟩
    · rcases call_vote_cases s t first with ⟨added, fits⟩ | ⟨kept, -⟩
      · rw [added, record_votes] at before
        rcases List.mem_append.1 before with before | here
        · exact Or.inl before
        · cases List.mem_singleton.1 here
          exact Or.inr ⟨List.mem_cons_self, fits⟩
      · rw [kept] at before
        exact Or.inl before
    · exact Or.inr ⟨List.mem_cons_of_mem _ later, (fits_call s t first).1 fits⟩

/-- Once a vote is recorded, its validator has one. -/
theorem exists_voteOf?_record (s : Scope) (t : Tally) (vote : Vote) :
    ∃ first, (t.record s vote).voteOf? vote.body.validator = some first := by
  refine Option.isSome_iff_exists.1 (List.find?_isSome.2 ⟨vote, ?_, beq_self_eq_true _⟩)
  rw [record_votes]
  exact List.mem_append_right _ (List.mem_singleton_self _)

/-- Of the validator of a vote that fits some vote is recorded. -/
theorem exists_voteOf?_after (given : vote ∈ votes) (fits : t.Fits s vote) :
    ∃ first, (t.after s (votes.map .vote)).voteOf? vote.body.validator = some first := by
  induction votes generalizing t with
  | nil => cases given
  | cons other votes ih =>
    rcases List.mem_cons.1 given with rfl | later
    · have known : ∃ first,
          (t.call s (.vote vote)).voteOf? vote.body.validator = some first := by
        -- it is recorded now, or its validator has one already
        rcases call_vote_cases s t vote with ⟨added, -⟩ | ⟨kept, known⟩
        · rw [added]
          exact exists_voteOf?_record s t vote
        · rw [kept]
          exact known fits
      obtain ⟨first, known⟩ := known
      exact ⟨first, (stays_after s (t.call s (.vote vote)) _).vote _ first known⟩
    · exact ih later ((fits_call s t other).2 fits)

theorem sound_complete_ofVotes (s : Scope) (round : Round) (kind : VoteKind)
    (votes : List Vote) :
    (ofVotes s round kind votes).Sound s (fun _ => True) round kind
      ∧ (ofVotes s round kind votes).Complete s :=
  sound_complete_after (sound_empty s (fun _ => True) round kind)
    (complete_empty s round kind) (votes.map .vote)

/-- What a tally has of a validator is one of the votes that were added, and
fits. -/
theorem voteOf?_ofVotes (known : (ofVotes s round kind votes).voteOf? address = some vote) :
    vote ∈ votes ∧ Fits s { round := round, kind := kind } vote
      ∧ vote.body.validator = address := by
  obtain ⟨recorded, author⟩ := voteOf?_spec known
  rcases mem_after recorded with before | ⟨given, fits⟩
  · cases before
  · exact ⟨given, fits, author⟩

-- =========================================================== what is counted

/-- A validator has a vote recorded if some vote of it fits. -/
theorem isSome_voteOf?_ofVotes :
    ((ofVotes s round kind votes).voteOf? address).isSome = true
      ↔ ∃ vote ∈ votes, Fits s { round := round, kind := kind } vote
        ∧ vote.body.validator = address := by
  constructor
  · intro known
    obtain ⟨vote, known⟩ := Option.isSome_iff_exists.1 known
    exact ⟨vote, voteOf?_ofVotes known⟩
  · rintro ⟨vote, given, fits, rfl⟩
    exact Option.isSome_iff_exists.2 (exists_voteOf?_after given fits)

/-- Where nobody votes for two blocks, a validator backs a hash if some vote of it
fits that is for the hash. -/
theorem backs_ofVotes (unequivocal : Unequivocal votes) :
    (ofVotes s round kind votes).backs hash address = true
      ↔ ∃ vote ∈ votes, Fits s { round := round, kind := kind } vote
        ∧ vote.body.validator = address ∧ vote.body.hash = hash := by
  unfold backs
  constructor
  · intro backs
    cases known : (ofVotes s round kind votes).voteOf? address with
    | none =>
      rw [known] at backs
      cases backs
    | some vote =>
      rw [known] at backs
      obtain ⟨given, fits, author⟩ := voteOf?_ofVotes known
      exact ⟨vote, given, fits, author, beq_iff_eq.1 backs⟩
  · rintro ⟨vote, given, fits, rfl, rfl⟩
    -- the vote recorded may be another one, which is then for the same hash
    obtain ⟨first, known⟩ := exists_voteOf?_after given fits
    obtain ⟨given', -, author⟩ := voteOf?_ofVotes known
    have known : (ofVotes s round kind votes).voteOf? vote.body.validator = some first :=
      known
    rw [known]
    exact beq_iff_eq.2 (unequivocal first given' vote given author)

theorem Unequivocal.perm (unequivocal : Unequivocal votes) (perm : votes'.Perm votes) :
    Unequivocal votes' :=
  fun a given b given' => unequivocal a (perm.mem_iff.1 given) b (perm.mem_iff.1 given')

/-- So who backs which hash does not depend on the order. -/
theorem backs_perm (s : Scope) (round : Round) (kind : VoteKind)
    (unequivocal : Unequivocal votes) (perm : votes'.Perm votes) (hash : BlockHash) :
    (ofVotes s round kind votes').backs hash = (ofVotes s round kind votes).backs hash := by
  funext address
  rw [Bool.eq_iff_iff, backs_ofVotes unequivocal, backs_ofVotes (unequivocal.perm perm)]
  simp only [perm.mem_iff]

theorem isSome_voteOf?_perm (s : Scope) (round : Round) (kind : VoteKind)
    (perm : votes'.Perm votes) (address : Address) :
    ((ofVotes s round kind votes').voteOf? address).isSome
      = ((ofVotes s round kind votes).voteOf? address).isSome := by
  rw [Bool.eq_iff_iff, isSome_voteOf?_ofVotes, isSome_voteOf?_ofVotes]
  simp only [perm.mem_iff]

/-- Where nobody votes twice, the vote that a tally has of a validator is the one
of it that was added. -/
theorem voteOf?_perm (s : Scope) (round : Round) (kind : VoteKind)
    (once : (votes.map (·.body.validator)).Nodup) (perm : votes'.Perm votes)
    (address : Address) :
    (ofVotes s round kind votes').voteOf? address
      = (ofVotes s round kind votes).voteOf? address := by
  have some_ := isSome_voteOf?_perm s round kind perm address
  cases known : (ofVotes s round kind votes).voteOf? address with
  | none =>
    rw [known] at some_
    exact Option.isNone_iff_eq_none.1 (Option.isSome_eq_false_iff.1 some_)
  | some vote =>
    rw [known] at some_
    obtain ⟨vote', known'⟩ := Option.isSome_iff_exists.1 some_
    obtain ⟨given, -, author⟩ := voteOf?_ofVotes known
    obtain ⟨given', -, author'⟩ := voteOf?_ofVotes known'
    rw [known']
    exact congrArg some (List.inj_on_of_nodup_map once (perm.mem_iff.1 given') given
      (author'.trans author.symm))

-- ================================================================= any order

variable {vs : List Validator}

theorem sameCount_perm (built : ValidatorSet.ofList? vs = .ok s.validators)
    (round : Round) (kind : VoteKind) (unequivocal : Unequivocal votes)
    (perm : votes'.Perm votes) :
    SameCount s (ofVotes s round kind votes) (ofVotes s round kind votes') := by
  -- balanced books are sums over the set, so it is enough that the same validators back
  -- the same hash
  have books : ∀ votes, (ofVotes s round kind votes).Balanced s := by
    intro votes
    obtain ⟨sound, complete⟩ := sound_complete_ofVotes s round kind votes
    exact sound.balanced built complete
  have backs := fun hash => backs_perm s round kind unequivocal perm hash
  have power : (ofVotes s round kind votes').power = (ofVotes s round kind votes).power := by
    rw [← UInt64.toNat_inj, (books votes').power, (books votes).power]
    exact congrArg _ (funext fun address => isSome_voteOf?_perm s round kind perm address)
  have powerFor : ∀ hash, (ofVotes s round kind votes').powerFor hash
      = (ofVotes s round kind votes).powerFor hash := by
    intro hash
    rw [← UInt64.toNat_inj, (books votes').powerFor, (books votes).powerFor, backs hash]
  refine ⟨power, powerFor, fun hash => ?_, ?_, ?_, ?_⟩
  · exact congrArg s.validators.members.map
      (funext fun v => congrFun (backs hash) v.address)
  · rw [someThird, someThird, power]
  · rw [someTwoThirds, someTwoThirds, power]
  · refine Option.ext fun hash => ?_
    rw [(books votes').majority, (books votes).majority, powerFor hash]

/-- Where no validator votes for two blocks, a tally comes to the same count in
whatever order the votes are added, those that are refused among them. Where no
validator votes twice, it also gives out the same votes and the same
certificate. -/
theorem votes_in_any_order (built : ValidatorSet.ofList? vs = .ok s.validators)
    (round : Round) (kind : VoteKind) {votes votes' : List Vote}
    (unequivocal : Unequivocal votes) (perm : votes'.Perm votes) :
    SameCount s (ofVotes s round kind votes) (ofVotes s round kind votes')
      ∧ ((votes.map (·.body.validator)).Nodup →
        SameVotes s (ofVotes s round kind votes) (ofVotes s round kind votes')) := by
  have count := sameCount_perm built round kind unequivocal perm
  refine ⟨count, fun once => ?_⟩
  have voted := voteOf?_perm s round kind once perm
  have sound := (sound_complete_ofVotes s round kind votes).1
  have sound' := (sound_complete_ofVotes s round kind votes').1
  have places : ∀ hash, (ofVotes s round kind votes').place s hash
      = (ofVotes s round kind votes).place s hash := by
    intro hash
    funext v
    rw [place, place, voted, sound.round_eq, sound'.round_eq]
  constructor
  case votesFor =>
    intro hash
    unfold votesFor
    simp only [voted]
  case certificate =>
    unfold certificate?
    rw [sound.kind_eq, sound'.kind_eq, count.majority, sound.round_eq, sound'.round_eq]
    simp only [places]

end Tally

open scoped Plain

namespace Plain

/-- Three of four commit a block; one vote is of another round. -/
def commits : List Vote :=
  [cast 1 0 (block 0).hash .precommit, cast 4 1 (block 0).hash .precommit,
    cast 2 0 (block 0).hash .precommit, cast 3 0 (block 0).hash .precommit]

end Plain

open Plain in
/-- They make the same certificate when they come the other way round. -/
theorem Tally.votes_in_any_order_of_commits :
    ValidatorSet.ofList? members = .ok committee
      ∧ Unequivocal commits
      ∧ commits.reverse.Perm commits
      ∧ (commits.map (·.body.validator)).Nodup
      ∧ ((ofVotes ⟨1, committee⟩ 0 .precommit commits).certificate? ⟨1, committee⟩).isSome
        = true
      ∧ SameCount ⟨1, committee⟩ (ofVotes ⟨1, committee⟩ 0 .precommit commits)
        (ofVotes ⟨1, committee⟩ 0 .precommit commits.reverse)
      ∧ SameVotes ⟨1, committee⟩ (ofVotes ⟨1, committee⟩ 0 .precommit commits)
        (ofVotes ⟨1, committee⟩ 0 .precommit commits.reverse) := by
  have unequivocal : Unequivocal commits := by
    unfold Unequivocal
    decide +kernel
  have once : (commits.map (·.body.validator)).Nodup := by decide +kernel
  obtain ⟨count, votes⟩ := votes_in_any_order (s := ⟨1, committee⟩) ofList?_members 0
    .precommit unequivocal commits.reverse_perm
  exact ⟨ofList?_members, unequivocal, commits.reverse_perm, once, by decide +kernel, count,
    votes once⟩

end Quorum
