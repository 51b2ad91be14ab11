/-
How much a height can be made to remember.

A tally has one vote, and one claim, of each validator at most, and no more
sums than votes, so its lists are as long as the list of validators (`Tidy`).
Rounds come into being on first touch. Those up to the next one are few because
their numbers are small. Every one beyond that was charged to a validator when
it was opened, and no validator is charged for more than its allowance. A charge
is never taken back, and the current round only goes forward, so there are never
more rounds far ahead than charges (`Thrifty`).
-/
import Quorum.Proofs.Record.Order

namespace Quorum

/-- Validators without repetition are no more than there are. -/
theorem ValidatorSet.length_le_size {s : ValidatorSet} {addresses : List Address}
    (distinct : addresses.Nodup)
    (known : ∀ address ∈ addresses, s.contains address = true) :
    addresses.length ≤ s.size := by
  have listed : addresses ⊆ s.members.map (·.address) := by
    intro address member
    obtain ⟨power, found⟩ := Option.isSome_iff_exists.1
      (powerOf?_isSome_of_contains (known address member))
    exact List.mem_map.2 ⟨_, mem_of_powerOf? found, rfl⟩
  have short := (distinct.subperm listed).length_le
  rwa [List.length_map] at short

-- =============================================================== tallies

namespace Tally

/-- What keeps the lists of a tally short: all that is in them is of validators,
nobody has two entries, and every sum is of a vote. -/
structure Tidy (s : Scope) (t : Tally) : Prop where
  power : ∀ vote ∈ t.votes,
    s.validators.powerOf? vote.body.validator = some vote.body.power
  shares : t.shares.length ≤ t.votes.length
  peers : (t.claims.map (·.1)).Nodup
  known : ∀ claim ∈ t.claims, s.validators.contains claim.1 = true

variable {s : Scope} {t : Tally}

/-- An empty tally is tidy. -/
theorem tidy_empty (s : Scope) (round : Round) (kind : VoteKind) :
    Tidy s { round := round, kind := kind } where
  power := by simp
  shares := Nat.le_refl _
  peers := List.nodup_nil
  known := by simp

/-- One more vote is one more sum, or none. -/
theorem length_addShare_le (hash : BlockHash) (power : Power)
    (shares : List (BlockHash × Power)) :
    (addShare hash power shares).length ≤ shares.length + 1 := by
  induction shares with
  | nil => exact Nat.le_refl _
  | cons share shares ih =>
    unfold addShare
    split
    · exact Nat.le_succ _
    · exact Nat.succ_le_succ ih

/-- A vote that fits adds one of each at most. -/
theorem Tidy.record {vote : Vote} (h : t.Tidy s) (fits : t.Fits s vote) :
    (t.record s vote).Tidy s := by
  constructor
  case power => exact forall_mem_record h.power fits.power
  case shares =>
    rw [record_shares, record_votes, List.length_append]
    exact (length_addShare_le _ _ _).trans (Nat.succ_le_succ h.shares)
  case peers =>
    rw [claims_record]
    exact h.peers
  case known =>
    rw [claims_record]
    exact h.known

/-- A peer that claims something for the first time is new among the peers. -/
theorem Tidy.addClaim {t' : Tally} {peer : Address} {hash : BlockHash}
    (h : t.Tidy s) (known : s.validators.contains peer = true)
    (added : t.addClaim peer hash = .ok t') : t'.Tidy s := by
  unfold Tally.addClaim at added
  split at added
  case h_1 first claimed =>
    split at added
    case isTrue =>
      cases added
      exact h
    case isFalse => cases added
  case h_2 unclaimed =>
    cases added
    refine ⟨h.power, h.shares, ?_, fun claim member => ?_⟩
    · have absent := List.find?_eq_none.1 (Option.map_eq_none_iff.1 unclaimed)
      rw [List.map_append, List.nodup_append]
      refine ⟨h.peers, List.nodup_singleton _, ?_⟩
      rintro a earlier b new rfl
      obtain ⟨claim, member, rfl⟩ := List.mem_map.1 earlier
      have same : claim.1 = peer := by simpa using new
      exact absent claim member (by simpa using same)
    · rcases List.mem_append.1 member with earlier | new
      · exact h.known claim earlier
      · rw [List.mem_singleton.1 new]
        exact known

/-- No list of a tally is longer than that of the validators. -/
structure Short (s : Scope) (t : Tally) : Prop where
  votes : t.votes.length ≤ s.validators.size
  shares : t.shares.length ≤ s.validators.size
  claims : t.claims.length ≤ s.validators.size

/-- So the validators are as many as any list can have entries: none of them votes
twice, claims twice, or has two sums. -/
theorem Tidy.short {heard : Vote → Prop} {round : Round} {kind : VoteKind}
    (h : t.Tidy s) (sound : t.Sound s heard round kind) : t.Short s := by
  have votes : t.votes.length ≤ s.validators.size := by
    have voters := ValidatorSet.length_le_size (s := s.validators) sound.distinct
      fun address member => by
        obtain ⟨vote, recorded, rfl⟩ := List.mem_map.1 member
        exact ValidatorSet.contains_of_powerOf? (h.power vote recorded)
    rwa [List.length_map] at voters
  have claims := ValidatorSet.length_le_size (s := s.validators) h.peers
    fun address member => by
      obtain ⟨claim, made, rfl⟩ := List.mem_map.1 member
      exact h.known claim made
  rw [List.length_map] at claims
  exact ⟨votes, h.shares.trans votes, claims⟩

end Tally

namespace RoundLog

/-- The tallies of a round are tidy. -/
def Tidy (s : Scope) (l : RoundLog) : Prop :=
  ∀ kind t, l.tally? kind = some t → t.Tidy s

variable {s : Scope} {l : RoundLog}

/-- A fresh round is tidy. -/
theorem tidy_fresh (s : Scope) (round : Round) : (RoundLog.fresh round).Tidy s := by
  intro kind t found
  rw [HeightLog.tally?_fresh found]
  exact Tally.tidy_empty s round kind

/-- A round is as tidy as its tallies. -/
theorem Tidy.congr {l' : RoundLog} (h : l.Tidy s)
    (prevotes : l'.prevotes = l.prevotes)
    (precommits : l'.precommits = l.precommits) : l'.Tidy s := by
  intro kind t found
  refine h kind t (Eq.trans ?_ found)
  cases kind with
  | null => rfl
  | prevote => exact congrArg some prevotes.symm
  | precommit => exact congrArg some precommits.symm

/-- Armed slots are of no concern. -/
theorem Tidy.arm (h : l.Tidy s) (slot : TimerSlot) : (l.arm slot).Tidy s := by
  unfold RoundLog.arm
  split
  · exact h
  · exact h.congr rfl rfl

/-- A round stays tidy if the tally that is put in is. -/
theorem Tidy.setTally {kind : VoteKind} {t t' : Tally} (h : l.Tidy s)
    (found : l.tally? kind = some t) (tidy : t'.Tidy s) :
    (l.setTally kind t').Tidy s := by
  intro other u here
  rw [HeightLog.tally?_setTally t found] at here
  split at here
  case isTrue =>
    cases here
    exact tidy
  case isFalse => exact h other u here

end RoundLog

-- =============================================================== charges

namespace HeightLog

/-- The height lives within the allowance of its validators: only they are
charged, none of them too often, and each round far ahead is on a charge. -/
structure Thrifty (s : Scope) (h : HeightLog) : Prop where
  tidy : ∀ round l, h.get? round = some l → l.Tidy s
  charged : ∀ address, h.charged address ≤ catchUpAllowance
  known : ∀ charge ∈ h.charges, s.validators.contains charge.1 = true
  paid : ∀ round l, h.get? round = some l → h.isAhead round = true →
    ∃ address, (address, round) ∈ h.charges
  current : ∃ l, h.get? h.round = some l

variable {s : Scope} {h : HeightLog}

/-- Far ahead is beyond the next round. -/
theorem isAhead_iff {round : Round} :
    h.isAhead round = true ↔ h.round.toNat + 1 < round.toNat :=
  decide_eq_true_iff

/-- The current round is not ahead of itself. -/
theorem not_isAhead_round (h : HeightLog) : ¬h.isAhead h.round = true := by
  rw [isAhead_iff]
  omega

/-- At the start there is one round and no charge. -/
theorem thrifty_start (s : Scope) : start.Thrifty s := by
  have first : ∀ round l, start.get? round = some l →
      l = RoundLog.fresh 0 ∧ round = 0 := by
    intro round l found
    have here : l = RoundLog.fresh 0 :=
      List.mem_singleton.1 (List.mem_of_find?_eq_some found)
    subst here
    exact ⟨rfl, (round_of_get? found).symm⟩
  constructor
  case tidy =>
    intro round l found
    rw [(first round l found).1]
    exact RoundLog.tidy_fresh s 0
  case charged => exact fun _ => Nat.zero_le _
  case known => exact fun _ absent => nomatch absent
  case paid =>
    intro round l found ahead
    rw [(first round l found).2] at ahead
    exact absurd ahead (not_isAhead_round start)
  case current => exact ⟨_, rfl⟩

/-- A round is tidy before it exists, too. -/
theorem Thrifty.getOrFresh (thrifty : h.Thrifty s) (round : Round) :
    (h.getOrFresh round).Tidy s := by
  cases here : h.get? round with
  | none =>
    rw [getOrFresh_of_absent here]
    exact RoundLog.tidy_fresh s round
  | some l =>
    rw [getOrFresh_of_get? here]
    exact thrifty.tidy round l here

/-- To store a round takes none away. -/
theorem exists_get?_put {round : Round} {m : RoundLog}
    (here : h.get? round = some m) (l : RoundLog) :
    ∃ m, (h.put l).get? round = some m := by
  by_cases same : round = l.round
  · exact ⟨l, same ▸ get?_put_self h l⟩
  · exact ⟨m, (get?_put_of_ne h same).trans here⟩

/-- A round may be stored that is not far ahead, or is on a charge. -/
theorem Thrifty.put (thrifty : h.Thrifty s) {l : RoundLog} (tidy : l.Tidy s)
    (paid : h.isAhead l.round = true → ∃ address, (address, l.round) ∈ h.charges) :
    (h.put l).Thrifty s := by
  obtain ⟨current, here⟩ := thrifty.current
  refine ⟨fun round m found => ?_, thrifty.charged, thrifty.known,
    fun round m found ahead => ?_, exists_get?_put here l⟩
  · by_cases here : round = l.round
    · rw [here, get?_put_self] at found
      cases found
      exact tidy
    · rw [get?_put_of_ne h here] at found
      exact thrifty.tidy round m found
  · by_cases here : round = l.round
    · rw [here] at ahead ⊢
      exact paid ahead
    · rw [get?_put_of_ne h here] at found
      exact thrifty.paid round m found ahead

/-- A round may be opened that is near, or that somebody is charged for. -/
theorem Thrifty.openRound (thrifty : h.Thrifty s) {round : Round}
    (paid : (h.get? round).isNone = true → h.isAhead round = true →
      ∃ address, (address, round) ∈ h.charges) :
    (h.openRound round).Thrifty s := by
  unfold HeightLog.openRound
  split
  case isTrue => exact thrifty
  case isFalse absent =>
    exact thrifty.put (RoundLog.tidy_fresh s round) (paid (by simpa using absent))

/-- Opening alone charges nobody. -/
theorem charges_openRound (h : HeightLog) (round : Round) :
    (h.openRound round).charges = h.charges := by
  unfold openRound
  split <;> rfl

/-- A new charge counts against whom it names. -/
theorem charged_snoc (h : HeightLog) (entry : Address × Round) (address : Address) :
    HeightLog.charged { h with charges := h.charges ++ [entry] } address
      = h.charged address + if entry.1 = address then 1 else 0 := by
  unfold charged
  rw [List.filter_append, List.length_append]
  by_cases here : entry.1 = address <;> simp [here]

/-- A charge is made where the allowance is not spent. -/
theorem Thrifty.charge (thrifty : h.Thrifty s) {author : Address} {round : Round}
    (known : s.validators.contains author = true)
    (left : h.charged author < catchUpAllowance) :
    Thrifty s { h with charges := h.charges ++ [(author, round)] } := by
  refine ⟨thrifty.tidy, fun address => ?_, fun charge member => ?_,
    fun other l found ahead => ?_, thrifty.current⟩
  · rw [charged_snoc]
    split
    case isTrue here => exact here ▸ left
    case isFalse => exact thrifty.charged address
  · rcases List.mem_append.1 member with earlier | new
    · exact thrifty.known charge earlier
    · rw [List.mem_singleton.1 new]
      exact known
  · obtain ⟨address, member⟩ := thrifty.paid other l found ahead
    exact ⟨address, List.mem_append_left _ member⟩

/-- A round far ahead is charged for before it is opened. -/
theorem Thrifty.openFor? (thrifty : h.Thrifty s) {round : Round} {author : Address}
    {h' : HeightLog} (known : s.validators.contains author = true)
    (opened : h.openFor? round author = some h') : h'.Thrifty s := by
  rcases openFor?_cases opened with ⟨absent, left, rfl⟩ | ⟨near, rfl⟩
  · unfold HeightLog.openRound
    rw [absent]
    -- the charge may as well be made first, and the round be stored then
    exact (thrifty.charge known left).put (RoundLog.tidy_fresh s round)
      fun _ => ⟨author, List.mem_append_right _ (List.mem_singleton_self _)⟩
  · refine thrifty.openRound fun absent ahead => ?_
    cases (near (Option.isNone_iff_eq_none.1 absent)).symm.trans ahead

/-- All that opening rounds adds are fresh ones. -/
theorem get?_openRounds {first count : Nat} {round : Round} {l : RoundLog}
    (found : (h.openRounds first count).get? round = some l) :
    h.get? round = some l
      ∨ l = RoundLog.fresh round ∧ round.toNat < first + count := by
  induction count generalizing h first with
  | zero => exact Or.inl found
  | succ count ih =>
    rcases ih found with before | ⟨fresh, small⟩
    · unfold openRound at before
      split at before
      case isTrue => exact Or.inl before
      case isFalse =>
        by_cases here : round = UInt32.ofNat first
        · have stored : (h.put (RoundLog.fresh round)).get? round
              = some (RoundLog.fresh round) := get?_put_self h (RoundLog.fresh round)
          rw [← here, stored] at before
          have small : round.toNat ≤ first := by
            rw [here, UInt32.toNat_ofNat']
            exact Nat.mod_le _ _
          exact Or.inr ⟨(Option.some.inj before).symm, by omega⟩
        · rw [get?_put_of_ne h here] at before
          exact Or.inl before
    · exact Or.inr ⟨fresh, by omega⟩

/-- A round is there once it was opened, and stays. -/
theorem exists_get?_openRound {round opened : Round}
    (here : (∃ l, h.get? round = some l) ∨ round = opened) :
    ∃ l, (h.openRound opened).get? round = some l := by
  unfold openRound
  split
  case isTrue before =>
    rcases here with here | rfl
    · exact here
    · exact Option.isSome_iff_exists.1 before
  case isFalse =>
    rcases here with ⟨l, here⟩ | rfl
    · exact exists_get?_put here _
    · exact ⟨_, get?_put_self h (RoundLog.fresh round)⟩

/-- The rounds that are opened are there, and those that were there before. -/
theorem exists_get?_openRounds {first count : Nat} {round : Round}
    (here : (∃ l, h.get? round = some l)
      ∨ first ≤ round.toNat ∧ round.toNat < first + count) :
    ∃ l, (h.openRounds first count).get? round = some l := by
  induction count generalizing h first with
  | zero =>
    rcases here with here | ⟨low, high⟩
    · exact here
    · omega
  | succ count ih =>
    refine ih ?_
    rcases here with here | ⟨low, high⟩
    · exact Or.inl (exists_get?_openRound (Or.inl here))
    · by_cases now : round.toNat = first
      · refine Or.inl (exists_get?_openRound (Or.inr ?_))
        rw [← now, UInt32.ofNat_toNat]
      · exact Or.inr ⟨by omega, by omega⟩

/-- Nor does opening several. -/
theorem charges_openRounds (h : HeightLog) (first count : Nat) :
    (h.openRounds first count).charges = h.charges := by
  induction count generalizing h first with
  | zero => rfl
  | succ count ih => exact (ih _ _).trans (charges_openRound h _)

/-- What was far ahead when it was opened may be near now, and what is far ahead
now was so then. -/
theorem Thrifty.setRound (thrifty : h.Thrifty s) {round : Round} {h' : HeightLog}
    (moved : h.setRound round = .ok h') : h'.Thrifty s := by
  obtain ⟨forward, rfl⟩ := setRound_eq_ok_iff.1 moved
  have charges := charges_openRounds h h.round.toNat
    (round.toNat - h.round.toNat + 1)
  have forward := UInt32.le_iff_toNat_le.1 forward
  have current : ∃ l, (h.openRounds h.round.toNat
      (round.toNat - h.round.toNat + 1)).get? round = some l :=
    exists_get?_openRounds (Or.inr ⟨forward, by omega⟩)
  refine ⟨fun other l found => ?_, fun address => ?_, ?_,
    fun other l found ahead => ?_, current⟩
  · rcases get?_openRounds found with before | ⟨rfl, -⟩
    · exact thrifty.tidy other l before
    · exact RoundLog.tidy_fresh s other
  · show (List.filter _ (h.openRounds _ _).charges).length ≤ _
    rw [charges]
    exact thrifty.charged address
  · show ∀ charge ∈ (h.openRounds _ _).charges, _
    rw [charges]
    exact thrifty.known
  · show ∃ address, (address, other) ∈ (h.openRounds _ _).charges
    have ahead : round.toNat + 1 < other.toNat := isAhead_iff.1 ahead
    rcases get?_openRounds found with before | ⟨-, small⟩
    · rw [charges]
      exact thrifty.paid other l before (isAhead_iff.2 (by omega))
    · omega

/-- A round that was opened is there. -/
theorem exists_get?_of_openFor? {round : Round} {author : Address} {h' : HeightLog}
    (opened : h.openFor? round author = some h') :
    ∃ l, h'.get? round = some l := by
  cases here : h.get? round with
  | none => exact ⟨_, get?_openFor? here opened⟩
  | some l =>
    rw [openFor?_of_exists here] at opened
    cases opened
    exact ⟨l, here⟩

/-- A tally of a round that was opened may be replaced by a tidy one. -/
theorem Thrifty.put_opened (thrifty : h.Thrifty s) {round : Round}
    {author : Address} {h' : HeightLog} {kind : VoteKind} {t t' : Tally}
    (known : s.validators.contains author = true)
    (opened : h.openFor? round author = some h')
    (found : (h'.getOrFresh round).tally? kind = some t)
    (tidy : t.Tidy s → t'.Tidy s) :
    (h'.put ((h'.getOrFresh round).setTally kind t')).Thrifty s := by
  have opens := thrifty.openFor? known opened
  obtain ⟨l, here⟩ := exists_get?_of_openFor? opened
  have stored := opens.getOrFresh round
  refine opens.put (stored.setTally found (tidy (stored kind t found))) ?_
  rw [round_setTally, round_getOrFresh]
  exact opens.paid round l here

/-- A vote that is counted, or refused late, is a validator's. -/
theorem Thrifty.addVote (thrifty : h.Thrifty s) {vote : Vote}
    (counts : vote.body.kind ≠ .null) : (h.addVote s vote).1.Thrifty s := by
  cases counting_addVote s h vote with
  | barred _ _ same =>
    rw [same]
    exact thrifty
  | uncounted null => exact absurd null counts
  | kept _ _ _ member opens => exact thrifty.openFor? member opens
  | recorded opened t opens found admitted same =>
    have fits := Tally.fits_of_refusal? admitted
    rw [same]
    exact thrifty.put_opened (ValidatorSet.contains_of_powerOf? fits.power) opens
      found fun tidy => tidy.record fits

-- ============================================================= rewriting

/-- All that is written to is the current round, and it stays tidy. -/
structure Rewritten (s : Scope) (h h' : HeightLog) : Prop where
  round : h'.round = h.round
  charges : h'.charges = h.charges
  others : ∀ round, round ≠ h.round → h'.get? round = h.get? round
  current : (∃ l, h.get? h.round = some l) → ∃ l, h'.get? h.round = some l
  tidy : (h.getOrFresh h.round).Tidy s → (h'.getOrFresh h.round).Tidy s

theorem Rewritten.refl (h : HeightLog) : h.Rewritten s h :=
  ⟨rfl, rfl, fun _ _ => rfl, id, id⟩

/-- The current round may be written to again and again. -/
theorem Rewritten.trans {h' h'' : HeightLog} (first : h.Rewritten s h')
    (second : h'.Rewritten s h'') : h.Rewritten s h'' := by
  have round := first.round
  refine ⟨second.round.trans round, second.charges.trans first.charges,
    fun r apart => ?_, fun here => ?_, fun tidy => ?_⟩
  · exact (second.others r (round ▸ apart)).trans (first.others r apart)
  · exact round ▸ second.current (round ▸ first.current here)
  · exact round ▸ second.tidy (round ▸ first.tidy tidy)

/-- The current round may be stored again as it was, or with other marks. -/
theorem rewritten_mark {f : RoundLog → RoundLog}
    (keeps : ∀ l, (f l).round = l.round) (tidy : ∀ l, l.Tidy s → (f l).Tidy s)
    {round : Round} (here : round = h.round) :
    h.Rewritten s (h.put (f (h.getOrFresh round))) := by
  subst here
  have number : (f (h.getOrFresh h.round)).round = h.round := by
    rw [keeps, round_getOrFresh]
  refine ⟨rfl, rfl, fun r apart => ?_, fun _ => ⟨f (h.getOrFresh h.round), ?_⟩,
    fun before => ?_⟩
  · exact get?_put_of_ne h (number.symm ▸ apart)
  · have stored := get?_put_self h (f (h.getOrFresh h.round))
    rwa [number] at stored
  · rw [getOrFresh_put, if_pos number.symm]
    exact tidy _ before

/-- To write to the current round costs nothing. -/
theorem Thrifty.rewritten {h' : HeightLog} (thrifty : h.Thrifty s)
    (after : h.Rewritten s h') : h'.Thrifty s := by
  have charges := after.charges
  refine ⟨fun round l found => ?_, fun address => ?_, ?_,
    fun round l found ahead => ?_, ?_⟩
  · by_cases here : round = h.round
    · have tidy := after.tidy (thrifty.getOrFresh h.round)
      rw [← here, getOrFresh_of_get? found] at tidy
      exact tidy
    · rw [after.others round here] at found
      exact thrifty.tidy round l found
  · unfold HeightLog.charged
    rw [charges]
    exact thrifty.charged address
  · rw [charges]
    exact thrifty.known
  · by_cases here : round = h.round
    · rw [here, ← after.round] at ahead
      exact absurd ahead (not_isAhead_round h')
    · rw [after.others round here] at found
      rw [isAhead_iff, after.round] at ahead
      rw [charges]
      exact thrifty.paid round l found (isAhead_iff.2 ahead)
  · rw [after.round]
    exact after.current thrifty.current

/-- No round is there that was not there before. -/
theorem Rewritten.exists_get? {h' : HeightLog} (after : h.Rewritten s h')
    (current : ∃ l, h.get? h.round = some l) {round : Round} {l : RoundLog}
    (found : h'.get? round = some l) : ∃ l, h.get? round = some l := by
  by_cases here : round = h.round
  · exact here ▸ current
  · exact ⟨l, after.others round here ▸ found⟩

-- ================================================================ bounds

/-- There are no more charges than allowances. -/
theorem Thrifty.length_charges (thrifty : h.Thrifty s) :
    h.charges.length ≤ catchUpAllowance * s.validators.size := by
  have each : ∀ address ∈ (h.charges.map (·.1)).toFinset,
      (h.charges.map (·.1)).count address ≤ catchUpAllowance := by
    intro address _
    have counted : (h.charges.map (·.1)).count address = h.charged address := by
      unfold List.count
      rw [List.countP_map, List.countP_eq_length_filter]
      rfl
    exact counted ▸ thrifty.charged address
  have known : (h.charges.map (·.1)).toFinset.card ≤ s.validators.size := by
    rw [List.card_toFinset]
    refine ValidatorSet.length_le_size (List.nodup_dedup _) fun address member => ?_
    obtain ⟨charge, made, rfl⟩ := List.mem_map.1 (List.mem_dedup.1 member)
    exact thrifty.known charge made
  calc h.charges.length
      = ∑ address ∈ (h.charges.map (·.1)).toFinset,
          (h.charges.map (·.1)).count address := by
        rw [List.sum_toFinset_count_eq_length, List.length_map]
    _ ≤ (h.charges.map (·.1)).toFinset.card * catchUpAllowance :=
        Finset.sum_le_card_nsmul _ _ _ each
    _ ≤ catchUpAllowance * s.validators.size := by
        rw [Nat.mul_comm]
        exact Nat.mul_le_mul_left _ known

/-- Rounds are few: those that are near, and those on a charge. -/
theorem Thrifty.length_rounds (thrifty : h.Thrifty s) (ordered : h.Ordered) :
    h.rounds.length
      ≤ h.round.toNat + 2 + catchUpAllowance * s.validators.size := by
  have apart : ∀ q : RoundLog → Bool, ((h.rounds.filter q).map (·.round)).Nodup :=
    fun q => List.pairwise_map.2 ((List.Pairwise.filter q ordered).imp UInt32.ne_of_lt)
  have near : (h.rounds.filter fun l => !h.isAhead l.round).length
      ≤ h.round.toNat + 2 := by
    -- their numbers differ, and none is beyond the next one
    have distinct := (apart fun l => !h.isAhead l.round).map
      (fun a b => (UInt32.toNat_inj (a := a) (b := b)).1)
    have small : ((h.rounds.filter fun l => !h.isAhead l.round).map (·.round)).map
        UInt32.toNat ⊆ List.range (h.round.toNat + 2) := by
      intro number member
      simp only [List.mem_map, List.mem_filter] at member
      obtain ⟨_, ⟨l, ⟨-, free⟩, rfl⟩, rfl⟩ := member
      have free : ¬h.round.toNat + 1 < l.round.toNat := by
        rw [← isAhead_iff]
        simpa using free
      rw [List.mem_range]
      omega
    simpa using (distinct.subperm small).length_le
  have ahead : (h.rounds.filter fun l => h.isAhead l.round).length
      ≤ h.charges.length := by
    -- they differ too, and each is on a charge of its own
    have paid : (h.rounds.filter fun l => h.isAhead l.round).map (·.round)
        ⊆ h.charges.map (·.2) := by
      intro round member
      simp only [List.mem_map, List.mem_filter] at member
      obtain ⟨l, ⟨stored, ahead⟩, rfl⟩ := member
      obtain ⟨address, charged⟩ :=
        thrifty.paid l.round l (ordered.get?_of_mem stored) ahead
      exact List.mem_map.2 ⟨_, charged, rfl⟩
    simpa using ((apart fun l => h.isAhead l.round).subperm paid).length_le
  have whole := List.length_eq_length_filter_add (l := h.rounds)
    fun l => h.isAhead l.round
  have charges := thrifty.length_charges
  omega

/-- All that keeps a validator from a round is that it is far ahead and not
there, and that the allowance is spent. -/
theorem openFor?_eq_none {round : Round} {author : Address}
    (refused : h.openFor? round author = none) :
    h.isAhead round = true ∧ h.get? round = none
      ∧ catchUpAllowance ≤ h.charged author := by
  unfold openFor? at refused
  split at refused
  case isTrue ahead =>
    split at refused
    case isTrue spent =>
      obtain ⟨ahead, absent⟩ := Bool.and_eq_true_iff.1 ahead
      exact ⟨ahead, by simpa using absent, spent⟩
    case isFalse => cases refused
  case isFalse => cases refused

end HeightLog

end Quorum
