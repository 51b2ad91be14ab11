/-
What is true of a tally however votes came in.

`Tally.Sound` collects it: every recorded vote is one that may be counted
here, with the power the set gives its validator; no validator is there
twice; the counters are what the votes add up to; and a majority has more
than two thirds of the power behind it. A vote that is recorded keeps all
of this, because what `refusal?` lets through is exactly what `Sound` asks
for.

`Tally.Grows` is what happens to a tally as time goes by: votes are only
added, no counter goes down, and a majority stays the one it is.
-/
import Quorum.Proofs.Validators.Weight
import Quorum.Record.Tally

namespace Quorum.Tally

-- ============================================================= growth

/-- Votes are only added, no counter goes down, and a majority stays. -/
structure Grows (t t' : Tally) : Prop where
  votes : t.votes <+: t'.votes
  power : t.power.toNat ≤ t'.power.toNat
  powerFor : ∀ hash, (t.powerFor hash).toNat ≤ (t'.powerFor hash).toNat
  majority : ∀ hash, t.majority = some hash → t'.majority = some hash

theorem Grows.refl (t : Tally) : t.Grows t :=
  ⟨List.prefix_refl _, Nat.le_refl _, fun _ => Nat.le_refl _, fun _ h => h⟩

/-- Growth adds up over any stretch. -/
theorem Grows.trans {t t' t'' : Tally} (h : t.Grows t') (h' : t'.Grows t'') :
    t.Grows t'' :=
  ⟨h.votes.trans h'.votes, Nat.le_trans h.power h'.power,
    fun hash => Nat.le_trans (h.powerFor hash) (h'.powerFor hash),
    fun hash first => h'.majority hash (h.majority hash first)⟩

/-- Every tally grew from an empty one. -/
theorem grows_empty (round : Round) (kind : VoteKind) (t : Tally) :
    Grows { round := round, kind := kind } t :=
  ⟨List.nil_prefix, Nat.zero_le _, fun _ => Nat.zero_le _, nofun⟩

/-- Two tallies that differ in what peers claim, if at all. -/
structure Alike (t t' : Tally) : Prop where
  votes : t'.votes = t.votes
  power : t'.power = t.power
  shares : t'.shares = t.shares
  majority : t'.majority = t.majority

theorem Alike.refl (t : Tally) : t.Alike t := ⟨rfl, rfl, rfl, rfl⟩

theorem Alike.trans {t t' t'' : Tally} (h : t.Alike t') (h' : t'.Alike t'') :
    t.Alike t'' :=
  ⟨h'.votes.trans h.votes, h'.power.trans h.power, h'.shares.trans h.shares,
    h'.majority.trans h.majority⟩

/-- What is counted for a hash is alike as well. -/
theorem Alike.powerFor {t t' : Tally} (h : t.Alike t') (hash : BlockHash) :
    t'.powerFor hash = t.powerFor hash := by
  unfold Tally.powerFor
  rw [h.shares]

/-- What is alike has grown by nothing. -/
theorem Alike.grows {t t' : Tally} (h : t.Alike t') : t.Grows t' where
  votes := h.votes ▸ List.prefix_refl _
  power := by rw [h.power]
  powerFor hash := by rw [h.powerFor]
  majority _ first := h.majority.trans first

-- ========================================================== recording

/-- A recorded vote goes behind the others. -/
theorem record_votes (s : Scope) (t : Tally) (vote : Vote) :
    (t.record s vote).votes = t.votes ++ [vote] := by
  unfold record
  dsimp only
  split <;> rfl

/-- What holds of the votes so far and of the new one holds of all. -/
theorem forall_mem_record {s : Scope} {t : Tally} {vote : Vote}
    {P : Vote → Prop} (old : ∀ v ∈ t.votes, P v) (new : P vote) :
    ∀ v ∈ (t.record s vote).votes, P v := by
  intro v member
  rw [record_votes, List.mem_append, List.mem_singleton] at member
  rcases member with before | same
  · exact old v before
  · rw [same]
    exact new

/-- The tally is of the same round still. -/
theorem record_round (s : Scope) (t : Tally) (vote : Vote) :
    (t.record s vote).round = t.round := by
  unfold record
  dsimp only
  split <;> rfl

/-- And of the same kind. -/
theorem record_kind (s : Scope) (t : Tally) (vote : Vote) :
    (t.record s vote).kind = t.kind := by
  unfold record
  dsimp only
  split <;> rfl

/-- The power that the vote states is added to that of all votes. -/
theorem record_power (s : Scope) (t : Tally) (vote : Vote) :
    (t.record s vote).power = satAdd t.power vote.body.power := by
  unfold record
  dsimp only
  split <;> rfl

/-- It is added to that of its hash as well. -/
theorem record_shares (s : Scope) (t : Tally) (vote : Vote) :
    (t.record s vote).shares
      = addShare vote.body.hash vote.body.power t.shares := by
  unfold record
  dsimp only
  split <;> rfl

/-- What peers claim is not touched. -/
theorem claims_record (s : Scope) (t : Tally) (vote : Vote) :
    (t.record s vote).claims = t.claims := by
  unfold record
  dsimp only
  split <;> rfl

/-- A sum for a hash is added to, or begins with this vote. -/
theorem find?_addShare_self (hash : BlockHash) (power : Power)
    (shares : List (BlockHash × Power)) :
    (addShare hash power shares).find? (fun share => share.1 == hash)
      = some (hash, match shares.find? (fun share => share.1 == hash) with
        | some share => satAdd share.2 power
        | none => power) := by
  induction shares with
  | nil => simp [addShare]
  | cons share shares ih =>
    unfold addShare
    split
    case isTrue here => simp [here]
    case isFalse other => simp [other, ih]

/-- The sums for other hashes stay as they are. -/
theorem find?_addShare_of_ne {hash other : BlockHash} (apart : hash ≠ other)
    (power : Power) (shares : List (BlockHash × Power)) :
    (addShare hash power shares).find? (fun share => share.1 == other)
      = shares.find? (fun share => share.1 == other) := by
  induction shares with
  | nil => simp [addShare, apart]
  | cons share shares ih =>
    unfold addShare
    split
    case isTrue here => simp [here, apart]
    case isFalse => simp [List.find?_cons, ih]

/-- A vote adds its power to what is counted for its own hash. -/
theorem powerFor_record (s : Scope) (t : Tally) (vote : Vote) (hash : BlockHash) :
    (t.record s vote).powerFor hash
      = if vote.body.hash = hash then satAdd (t.powerFor hash) vote.body.power
        else t.powerFor hash := by
  unfold powerFor
  rw [record_shares]
  split
  case isTrue here =>
    subst here
    rw [find?_addShare_self]
    cases t.shares.find? (fun share => share.1 == vote.body.hash) with
    | some share => rfl
    | none => exact (zero_satAdd _).symm
  case isFalse apart => rw [find?_addShare_of_ne apart]

/-- A vote brings about a majority for its own hash, and only where there
was none. -/
theorem record_majority_cases (s : Scope) (t : Tally) (vote : Vote) :
    (t.record s vote).majority = t.majority
      ∨ t.majority = none ∧ (t.record s vote).majority = some vote.body.hash
        ∧ s.validators.exceedsTwoThirds
          ((t.record s vote).powerFor vote.body.hash) = true := by
  unfold record
  dsimp only
  split
  case isTrue reached =>
    rw [Bool.and_eq_true, Option.isNone_iff_eq_none] at reached
    exact Or.inr ⟨reached.1, rfl, reached.2⟩
  case isFalse => exact Or.inl rfl

/-- A vote that brings more than two thirds together for its hash leaves no
tally without a majority. -/
theorem record_majority_of_exceeds (s : Scope) (t : Tally) (vote : Vote)
    (exceeds : s.validators.exceedsTwoThirds
      ((t.record s vote).powerFor vote.body.hash) = true) :
    (t.record s vote).majority = t.majority.or (some vote.body.hash) := by
  unfold powerFor at exceeds
  rw [record_shares] at exceeds
  unfold record
  dsimp only
  cases first : t.majority with
  | some hash => rfl
  | none => exact congrArg Tally.majority (if_pos exceeds)

/-- A recorded vote is growth: no counter goes down, since addition stops at the
largest word. -/
theorem grows_record (s : Scope) (t : Tally) (vote : Vote) :
    t.Grows (t.record s vote) := by
  constructor
  case votes =>
    rw [record_votes]
    exact List.prefix_append _ _
  case power =>
    rw [record_power]
    exact le_satAdd _ _
  case powerFor =>
    intro hash
    rw [powerFor_record]
    split
    · exact le_satAdd _ _
    · exact Nat.le_refl _
  case majority =>
    intro hash first
    rcases record_majority_cases s t vote with same | ⟨none_, -, -⟩
    · rw [same]
      exact first
    · rw [none_] at first
      cases first

-- ============================================================= counters

/-- The counters are what the recorded votes add up to. -/
structure Counted (t : Tally) : Prop where
  power : t.power = satSum (t.votes.map (·.body.power))
  powerFor : ∀ hash, t.powerFor hash = satSum
    ((t.votes.filter fun vote => vote.body.hash == hash).map (·.body.power))

/-- Nothing is counted where nothing is recorded. -/
theorem counted_empty (round : Round) (kind : VoteKind) :
    Counted { round := round, kind := kind } :=
  ⟨rfl, fun _ => rfl⟩

/-- Nothing of this is about claims. -/
theorem Counted.congr {t t' : Tally} (h : t.Counted) (alike : t.Alike t') :
    t'.Counted where
  power := by rw [alike.power, alike.votes, h.power]
  powerFor hash := by rw [alike.powerFor, alike.votes, h.powerFor]

/-- A vote that is recorded is counted. -/
theorem Counted.record {t : Tally} (h : t.Counted) (s : Scope) (vote : Vote) :
    (t.record s vote).Counted := by
  constructor
  case power =>
    rw [record_power, record_votes, h.power, List.map_append]
    exact (satSum_append_singleton _ _).symm
  case powerFor =>
    intro hash
    rw [powerFor_record, record_votes, List.filter_append]
    split
    case isTrue here =>
      subst here
      rw [h.powerFor, List.filter_singleton, beq_self_eq_true, List.map_append]
      exact (satSum_append_singleton _ _).symm
    case isFalse apart =>
      rw [h.powerFor, List.filter_singleton, beq_eq_false_iff_ne.2 apart]
      exact congrArg _ (congrArg _ (List.append_nil _).symm)

/-- The votes for a hash have no more power than all votes. -/
theorem Counted.powerFor_le_power {t : Tally} (h : t.Counted)
    (hash : BlockHash) : (t.powerFor hash).toNat ≤ t.power.toNat := by
  rw [h.power, h.powerFor]
  exact toNat_satSum_le_of_sublist (List.filter_sublist.map _)

-- ============================================================ admission

/-- The vote that is found for a validator is its own. -/
theorem voteOf?_spec {t : Tally} {address : Address} {vote : Vote}
    (found : t.voteOf? address = some vote) :
    vote ∈ t.votes ∧ vote.body.validator = address := by
  refine ⟨List.mem_of_find?_eq_some found, ?_⟩
  simpa using List.find?_some found

/-- What a vote has to state to be one of this tally's. -/
structure Fits (s : Scope) (t : Tally) (vote : Vote) : Prop where
  height : vote.body.height = s.height
  round : vote.body.round = t.round
  kind : vote.body.kind = t.kind
  power : s.validators.powerOf? vote.body.validator = some vote.body.power

/-- All that keeps out a vote that fits is an earlier one of its validator. -/
theorem refusal?_of_fits {s : Scope} {t : Tally} {vote : Vote}
    (fits : t.Fits s vote) :
    t.refusal? s vote = (t.voteOf? vote.body.validator).map fun recorded =>
      if recorded.body.hash = vote.body.hash then
        .vote (.recorded t.kind vote.body.validator)
      else .conflict recorded vote := by
  unfold refusal?
  dsimp only
  rw [if_neg (not_not_intro fits.height), if_neg (not_not_intro fits.round),
    if_neg (not_not_intro fits.kind), fits.power]
  dsimp only
  rw [if_neg (not_not_intro rfl)]
  cases t.voteOf? vote.body.validator with
  | none => rfl
  | some recorded => exact (apply_ite some _ _ _).symm

/-- A vote that does not fit is refused for what it states. -/
theorem refusal?_of_not_fits {s : Scope} {t : Tally} {vote : Vote}
    (unfit : ¬t.Fits s vote) :
    ∃ cause, t.refusal? s vote = some (.vote cause) := by
  unfold refusal?
  dsimp only
  by_cases height : vote.body.height = s.height
  · rw [if_neg (not_not_intro height)]
    by_cases round : vote.body.round = t.round
    · rw [if_neg (not_not_intro round)]
      by_cases kind : vote.body.kind = t.kind
      · rw [if_neg (not_not_intro kind)]
        split
        case h_1 => exact ⟨_, rfl⟩
        case h_2 power found =>
          have other : vote.body.power ≠ power := fun same =>
            unfit ⟨height, round, kind, same ▸ found⟩
          rw [if_pos other]
          exact ⟨_, rfl⟩
      · exact ⟨_, if_pos kind⟩
    · exact ⟨_, if_pos round⟩
  · exact ⟨_, if_pos height⟩

/-- What is let in has been looked at for all that fitting asks. -/
theorem fits_of_refusal? {s : Scope} {t : Tally} {vote : Vote}
    (admitted : t.refusal? s vote = none) : t.Fits s vote := by
  by_contra unfit
  obtain ⟨cause, refused⟩ := refusal?_of_not_fits unfit
  cases admitted.symm.trans refused

/-- What a vote that is counted has been checked for. -/
structure Admits (s : Scope) (t : Tally) (vote : Vote) : Prop where
  height : vote.body.height = s.height
  round : vote.body.round = t.round
  kind : vote.body.kind = t.kind
  member : ⟨vote.body.validator, vote.body.power⟩ ∈ s.validators.members
  new : ∀ recorded ∈ t.votes, recorded.body.validator ≠ vote.body.validator

/-- A vote that is let in is a member's, with its power, and its first. -/
theorem admits_of_refusal? {s : Scope} {t : Tally} {vote : Vote}
    (h : t.refusal? s vote = none) : t.Admits s vote := by
  have fits := fits_of_refusal? h
  rw [refusal?_of_fits fits, Option.map_eq_none_iff] at h
  refine ⟨fits.height, fits.round, fits.kind,
    ValidatorSet.mem_of_powerOf? fits.power, fun recorded member => ?_⟩
  simpa using List.find?_eq_none.1 h recorded member

/-- All that can keep a member's vote out of an empty tally of its height,
round and kind is that it states another power than the member has. -/
theorem powerMismatch_of_empty {s : Scope} {t : Tally} {vote : Vote}
    {fault : Fault} (empty : t.votes = []) (height : vote.body.height = s.height)
    (round : vote.body.round = t.round) (kind : vote.body.kind = t.kind)
    (member : s.validators.contains vote.body.validator = true)
    (refused : t.refusal? s vote = some fault) :
    ∃ power, fault = .vote
      (.powerMismatch vote.body.validator vote.body.power power) := by
  have power := ValidatorSet.powerOf?_isSome_of_contains member
  have unseen : t.voteOf? vote.body.validator = none := by
    unfold voteOf?
    rw [empty]
    rfl
  unfold refusal? at refused
  dsimp only at refused
  rw [if_neg (not_not_intro height), if_neg (not_not_intro round),
    if_neg (not_not_intro kind)] at refused
  split at refused
  case h_1 outside =>
    rw [outside] at power
    cases power
  case h_2 power _ =>
    split at refused
    case isTrue =>
      cases refused
      exact ⟨power, rfl⟩
    case isFalse =>
      rw [unseen] at refused
      cases refused

-- ============================================================ soundness

/-- What is true of a tally of one round and kind, when the votes that
came in are among those `heard`. -/
structure Sound (s : Scope) (heard : Vote → Prop) (round : Round)
    (kind : VoteKind) (t : Tally) : Prop where
  round_eq : t.round = round
  kind_eq : t.kind = kind
  heard_of_mem : ∀ vote ∈ t.votes, heard vote
  height_of_mem : ∀ vote ∈ t.votes, vote.body.height = s.height
  round_of_mem : ∀ vote ∈ t.votes, vote.body.round = round
  kind_of_mem : ∀ vote ∈ t.votes, vote.body.kind = kind
  member_of_mem : ∀ vote ∈ t.votes,
    ⟨vote.body.validator, vote.body.power⟩ ∈ s.validators.members
  distinct : (t.votes.map (·.body.validator)).Nodup
  counted : t.Counted
  backed : ∀ hash, t.majority = some hash →
    s.validators.exceedsTwoThirds (t.powerFor hash) = true

variable {s : Scope} {heard : Vote → Prop} {round : Round} {kind : VoteKind}
  {t : Tally}

/-- An empty tally is sound, there being no votes to speak of. -/
theorem sound_empty (s : Scope) (heard : Vote → Prop) (round : Round)
    (kind : VoteKind) :
    Sound s heard round kind { round := round, kind := kind } where
  round_eq := rfl
  kind_eq := rfl
  heard_of_mem := by simp
  height_of_mem := by simp
  round_of_mem := by simp
  kind_of_mem := by simp
  member_of_mem := by simp
  distinct := List.nodup_nil
  counted := counted_empty round kind
  backed := by simp

/-- Soundness does not look at claims. -/
theorem Sound.congr {t' : Tally} (h : t.Sound s heard round kind)
    (round_eq : t'.round = t.round) (kind_eq : t'.kind = t.kind)
    (alike : t.Alike t') : t'.Sound s heard round kind where
  round_eq := round_eq.trans h.round_eq
  kind_eq := kind_eq.trans h.kind_eq
  heard_of_mem := alike.votes ▸ h.heard_of_mem
  height_of_mem := alike.votes ▸ h.height_of_mem
  round_of_mem := alike.votes ▸ h.round_of_mem
  kind_of_mem := alike.votes ▸ h.kind_of_mem
  member_of_mem := alike.votes ▸ h.member_of_mem
  distinct := alike.votes ▸ h.distinct
  counted := h.counted.congr alike
  backed hash reached := by
    rw [alike.powerFor]
    exact h.backed hash (alike.majority ▸ reached)

/-- A sound tally stays so as more is heard. -/
theorem Sound.mono {heard' : Vote → Prop} (h : t.Sound s heard round kind)
    (more : ∀ vote, heard vote → heard' vote) : t.Sound s heard' round kind :=
  { h with heard_of_mem := fun vote hv => more vote (h.heard_of_mem vote hv) }

/-- A recorded vote is the one that is found for its validator. -/
theorem Sound.voteOf?_of_mem (h : t.Sound s heard round kind) {vote : Vote}
    (recorded : vote ∈ t.votes) : t.voteOf? vote.body.validator = some vote :=
  (find?_key_eq_some_iff h.distinct).2 ⟨recorded, rfl⟩

/-- A vote that is admitted keeps a tally sound. -/
theorem Sound.record {vote : Vote} (h : t.Sound s heard round kind)
    (admits : t.Admits s vote) (hv : heard vote) :
    (t.record s vote).Sound s heard round kind := by
  refine ⟨(record_round s t vote).trans h.round_eq,
    (record_kind s t vote).trans h.kind_eq,
    forall_mem_record h.heard_of_mem hv,
    forall_mem_record h.height_of_mem admits.height,
    forall_mem_record h.round_of_mem (admits.round.trans h.round_eq),
    forall_mem_record h.kind_of_mem (admits.kind.trans h.kind_eq),
    forall_mem_record h.member_of_mem admits.member, ?_,
    h.counted.record s vote, ?_⟩
  · rw [record_votes, List.map_append, List.nodup_append]
    refine ⟨h.distinct, List.nodup_singleton _, ?_⟩
    intro a ha b hb same
    obtain ⟨recorded, hr, rfl⟩ := List.mem_map.1 ha
    obtain ⟨v, hmem, rfl⟩ := List.mem_map.1 hb
    rw [List.mem_singleton.1 hmem] at same
    exact admits.new recorded hr same
  · intro hash reached
    rcases record_majority_cases s t vote with same | ⟨-, first, exceeds⟩
    · rw [same] at reached
      have before := (ValidatorSet.exceedsTwoThirds_iff _ _).1
        (h.backed hash reached)
      have grown := (grows_record s t vote).powerFor hash
      rw [ValidatorSet.exceedsTwoThirds_iff]
      omega
    · rw [first] at reached
      cases reached
      exact exceeds

/-- Whoever cast the votes that a test picks out weighs no less than they do. -/
theorem Sound.sum_power_le {p : Address → Bool}
    (h : t.Sound s heard round kind) (q : Vote → Bool)
    (picked : ∀ vote ∈ t.votes, q vote = true →
      p vote.body.validator = true) :
    ((t.votes.filter q).map (·.body.power.toNat)).sum ≤ s.validators.weight p := by
  have voters : (t.votes.filter q).Sublist t.votes := List.filter_sublist
  have powers : (((t.votes.filter q).map fun vote =>
        (⟨vote.body.validator, vote.body.power⟩ : Validator)).map
          (·.power.toNat)).sum ≤ s.validators.weight p := by
    refine s.validators.sum_power_le_weight ?_ ?_ ?_
    · rw [List.map_map]
      exact (voters.map _).nodup h.distinct
    · intro v hv
      obtain ⟨vote, hvote, rfl⟩ := List.mem_map.1 hv
      exact h.member_of_mem vote (voters.subset hvote)
    · intro v hv
      obtain ⟨vote, hvote, rfl⟩ := List.mem_map.1 hv
      exact picked vote (voters.subset hvote) (List.mem_filter.1 hvote).2
  rw [List.map_map] at powers
  exact powers

/-- Whoever makes the majority of a sound tally weighs more than two
thirds. -/
theorem Sound.two_thirds_of_majority {hash : BlockHash} {p : Address → Bool}
    (h : t.Sound s heard round kind) (reached : t.majority = some hash)
    (picked : ∀ vote ∈ t.votes, vote.body.hash = hash →
      p vote.body.validator = true) :
    2 * s.validators.total.toNat < 3 * s.validators.weight p := by
  have backed := (ValidatorSet.exceedsTwoThirds_iff _ _).1
    (h.backed hash reached)
  have powers := h.sum_power_le (fun vote => vote.body.hash == hash)
    fun vote cast same => picked vote cast (by simpa using same)
  have small : (t.powerFor hash).toNat ≤ s.validators.weight p := by
    rw [h.counted.powerFor]
    refine Nat.le_trans (toNat_satSum_le _) ?_
    rw [List.map_map]
    exact powers
  omega

/-- Where those who voted are more than a third, somebody is among them that is
not in a given part of at most a third. -/
theorem Sound.exists_outside_third {few : Address → Bool}
    (h : t.Sound s heard round kind)
    (many : s.validators.total.toNat < 3 * t.power.toNat)
    (third : 3 * s.validators.weight few ≤ s.validators.total.toNat) :
    ∃ vote ∈ t.votes, few vote.body.validator = false := by
  let voted : Address → Bool := fun a => (t.voteOf? a).isSome
  have powers := h.sum_power_le (p := voted) (fun _ => true) fun vote cast _ =>
    List.find?_isSome.2 ⟨vote, cast, beq_self_eq_true _⟩
  rw [List.filter_true] at powers
  have counted : t.power.toNat ≤ s.validators.weight voted := by
    rw [h.counted.power]
    refine Nat.le_trans (toNat_satSum_le _) ?_
    rw [List.map_map]
    exact powers
  obtain ⟨v, -, cast, outside⟩ :=
    s.validators.exists_outside (p := voted) (q := few) (by omega)
  obtain ⟨vote, found⟩ := Option.isSome_iff_exists.1 cast
  obtain ⟨recorded, author⟩ := voteOf?_spec found
  exact ⟨vote, recorded, author ▸ outside⟩

/-- Where all of them voted for a hash and they weigh more than two thirds, the
votes for it do. -/
theorem Counted.exceedsTwoThirds {hash : BlockHash} {p : Address → Bool}
    (counted : t.Counted)
    (distinct : (s.validators.members.map (·.address)).Nodup)
    (voted : ∀ v ∈ s.validators.members, p v.address = true →
      ∃ vote ∈ t.votes, vote.body.hash = hash
        ∧ ⟨vote.body.validator, vote.body.power⟩ = v)
    (many : 2 * s.validators.total.toNat < 3 * s.validators.weight p) :
    s.validators.exceedsTwoThirds (t.powerFor hash) = true := by
  have weight : s.validators.weight p
      ≤ (((t.votes.filter fun vote => vote.body.hash == hash).map fun vote =>
        (⟨vote.body.validator, vote.body.power⟩ : Validator)).map
          (·.power.toNat)).sum := by
    refine s.validators.weight_le_sum_power distinct fun v member picked => ?_
    obtain ⟨vote, cast, same, author⟩ := voted v member picked
    exact List.mem_map.2 ⟨vote, List.mem_filter.2 ⟨cast, beq_iff_eq.2 same⟩, author⟩
  -- a sum that saturates is more than two thirds of any total
  have total : s.validators.total.toNat < UInt64.size := s.validators.total.toNat_lt
  have large : 1 < UInt64.size := by decide
  rw [ValidatorSet.exceedsTwoThirds_iff, counted.powerFor, toNat_satSum,
    List.map_map]
  rw [List.map_map] at weight
  show _ < 3 * min (List.map ((·.power.toNat) ∘ fun vote : Vote =>
    (⟨vote.body.validator, vote.body.power⟩ : Validator)) _).sum _
  omega

end Quorum.Tally
