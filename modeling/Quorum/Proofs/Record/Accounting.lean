/-
A tally keeps exact books, whatever is asked of it.

The counters of a tally stand beside its votes, are added to with saturation,
and its majority is remembered instead of being worked out. Where the set was
built from a list, none of this can drift apart: a validator is recorded once
and with its power in the set, so what the recorded votes add up to is a weight
of validators (`Sound.sum_power`), no weight is more than the total, and the
total fits its word. No addition ever meets the largest word, then, and two
hashes of more than two thirds would need a validator that voted for both.

`Sound` and `Complete` say what of this holds in any set; a call keeps them, and
what is read off them here holds after any calls.
-/
import Quorum.Proofs.Machine.Plain
import Quorum.Proofs.Record.Certificate
import Quorum.Proofs.Record.Round
import Quorum.Proofs.Validators.Lookup

namespace Quorum

namespace Tally

-- ================================================================= calls

/-- What a tally may be asked: to record a vote, or what a peer claims. -/
inductive Call where
  | vote (vote : Vote)
  | claim (peer : Address) (hash : BlockHash)
deriving DecidableEq

/-- The tally that a call makes, or why it is refused. -/
def answer (s : Scope) (t : Tally) : Call → Except Fault Tally
  | .vote vote => t.add s vote
  | .claim peer hash => t.addClaim peer hash

/-- The tally after a call. -/
def call (s : Scope) (t : Tally) (asked : Call) : Tally :=
  match t.answer s asked with
  | .ok changed => changed
  | .error _ => t

/-- The tally after calls, oldest first. -/
def after (s : Scope) (t : Tally) (calls : List Call) : Tally :=
  calls.foldl (call s) t

variable {s : Scope} {heard : Vote → Prop} {round : Round} {kind : VoteKind}
  {t : Tally}

/-- A call is refused, or records a vote that may be counted, or records what a
peer claims that claimed nothing before, or repeats a claim. -/
theorem call_cases (s : Scope) (t : Tally) (asked : Call) :
    t.call s asked = t
      ∨ (∃ vote, t.Admits s vote ∧ t.call s asked = t.record s vote)
      ∨ ∃ peer hash, t.claimOf? peer = none
        ∧ t.call s asked = { t with claims := t.claims ++ [(peer, hash)] } := by
  unfold call answer
  cases asked with
  | vote vote =>
    dsimp only
    unfold add
    cases kept : t.refusal? s vote with
    | some fault => exact Or.inl rfl
    | none => exact Or.inr (Or.inl ⟨vote, admits_of_refusal? kept, rfl⟩)
  | claim peer hash =>
    dsimp only
    unfold addClaim
    cases claimed : t.claimOf? peer with
    | none => exact Or.inr (Or.inr ⟨peer, hash, claimed, rfl⟩)
    | some first =>
      dsimp only
      by_cases same : first = hash
      · rw [if_pos same]
        exact Or.inl rfl
      · rw [if_neg same]
        exact Or.inl rfl

-- ================================================================== books

/-- The powers of those votes that a test picks out add up to the weight of the
validators that cast them. -/
theorem Sound.sum_power (h : t.Sound s heard round kind)
    (distinct : (s.validators.members.map (·.address)).Nodup)
    (q : Vote → Bool) :
    ((t.votes.filter q).map (·.body.power.toNat)).sum
      = s.validators.weight fun a => (t.voteOf? a).any q := by
  refine Nat.le_antisymm (h.sum_power_le q fun vote recorded passes => ?_) ?_
  · rw [h.voteOf?_of_mem recorded]
    exact passes
  · have voters : ((t.votes.filter q).map fun vote =>
        (⟨vote.body.validator, vote.body.power⟩ : Validator)).map (·.power.toNat)
          = (t.votes.filter q).map (·.body.power.toNat) := List.map_map
    rw [← voters]
    refine s.validators.weight_le_sum_power distinct fun v member picked => ?_
    cases found : t.voteOf? v.address with
    | none =>
      rw [found] at picked
      cases picked
    | some vote =>
      rw [found] at picked
      obtain ⟨recorded, author⟩ := voteOf?_spec found
      have own : (⟨vote.body.validator, vote.body.power⟩ : Validator) = v :=
        List.inj_on_of_nodup_map distinct (h.member_of_mem vote recorded) member
          author
      exact List.mem_map.2 ⟨vote, List.mem_filter.2 ⟨recorded, picked⟩, own⟩

/-- The books of a tally are in order: what is counted is what the recorded
votes weigh, and the majority is what more than two thirds voted for. -/
structure Balanced (s : Scope) (t : Tally) : Prop where
  /-- Nobody is recorded twice. -/
  distinct : (t.votes.map (·.body.validator)).Nodup
  /-- A recorded vote is a validator's, and has its power in the set. -/
  power_of_vote : ∀ address vote, t.voteOf? address = some vote →
    s.validators.powerOf? address = some vote.body.power
  power : t.power.toNat
    = s.validators.weight fun address => (t.voteOf? address).isSome
  power_le : t.power.toNat ≤ s.validators.total.toNat
  /-- A vote that is not kept out has room in every sum it is added to. -/
  room : ∀ vote, t.refusal? s vote = none →
    t.power.toNat + vote.body.power.toNat ≤ s.validators.total.toNat
      ∧ (t.powerFor vote.body.hash).toNat + vote.body.power.toNat
        ≤ s.validators.total.toNat
  powerFor : ∀ hash,
    (t.powerFor hash).toNat = s.validators.weight (t.backs hash)
  majority : ∀ hash, t.majority = some hash
    ↔ 2 * s.validators.total.toNat < 3 * (t.powerFor hash).toNat
  unique : ∀ hash hash',
    2 * s.validators.total.toNat < 3 * (t.powerFor hash).toNat →
    2 * s.validators.total.toNat < 3 * (t.powerFor hash').toNat → hash = hash'

section Books

variable {vs : List Validator}
  (built : ValidatorSet.ofList? vs = .ok s.validators)
  (h : t.Sound s heard round kind)
include built h

/-- A sum of recorded powers does not meet the largest word. -/
theorem Sound.toNat_satSum (q : Vote → Bool) :
    (satSum ((t.votes.filter q).map (·.body.power))).toNat
      = s.validators.weight fun a => (t.voteOf? a).any q := by
  obtain ⟨distinct, whole⟩ := ValidatorSet.ofList?_spec built
  have sum := h.sum_power distinct q
  have small := s.validators.weight_le_total whole fun a => (t.voteOf? a).any q
  have total : s.validators.total.toNat < UInt64.size :=
    s.validators.total.toNat_lt
  have words : ((t.votes.filter q).map (·.body.power)).map (·.toNat)
      = (t.votes.filter q).map (·.body.power.toNat) := List.map_map
  rw [Quorum.toNat_satSum, words, sum]
  omega

/-- The power of all votes is the weight of those who voted. -/
theorem Sound.toNat_power :
    t.power.toNat = s.validators.weight fun a => (t.voteOf? a).isSome := by
  have all : t.votes.filter (fun _ => true) = t.votes := List.filter_true _
  have sum := h.toNat_satSum built fun _ => true
  rw [all, ← h.counted.power] at sum
  rw [sum]
  refine congrArg _ (funext fun a => ?_)
  cases t.voteOf? a <;> rfl

/-- The power for a hash is the weight of those who voted for it. -/
theorem Sound.toNat_powerFor (hash : BlockHash) :
    (t.powerFor hash).toNat = s.validators.weight (t.backs hash) := by
  rw [h.counted.powerFor, h.toNat_satSum built]
  refine congrArg _ (funext fun a => ?_)
  unfold backs
  cases t.voteOf? a <;> rfl

/-- Two hashes of more than two thirds have a validator that voted for both, and
nobody votes twice. -/
theorem Sound.eq_of_two_thirds {hash hash' : BlockHash}
    (many : 2 * s.validators.total.toNat < 3 * (t.powerFor hash).toNat)
    (many' : 2 * s.validators.total.toNat < 3 * (t.powerFor hash').toNat) :
    hash = hash' := by
  rw [h.toNat_powerFor built] at many many'
  obtain ⟨v, -, one, other⟩ := s.validators.exists_both
    (ValidatorSet.ofList?_spec built).2 many many'
  unfold backs at one other
  cases voted : t.voteOf? v.address with
  | none =>
    rw [voted] at one
    cases one
  | some vote =>
    rw [voted] at one other
    exact (beq_iff_eq.1 one).symm.trans (beq_iff_eq.1 other)

/-- A sound tally that misses no majority has its books in order, if its set was
built from a list. -/
theorem Sound.balanced (complete : t.Complete s) : t.Balanced s := by
  obtain ⟨distinct, whole⟩ := ValidatorSet.ofList?_spec built
  have bound : t.power.toNat ≤ s.validators.total.toNat := by
    rw [h.toNat_power built]
    exact s.validators.weight_le_total whole _
  refine ⟨h.distinct, ?_, h.toNat_power built, bound, ?_, h.toNat_powerFor built,
    ?_, fun _ _ => h.eq_of_two_thirds built⟩
  · intro address vote found
    obtain ⟨recorded, author⟩ := voteOf?_spec found
    rw [← author]
    exact ValidatorSet.powerOf?_of_mem built (h.member_of_mem vote recorded)
  · -- the vote would be counted, and the total bounds what it is counted to
    intro vote kept
    have anyone : t.Sound s (fun _ => True) round kind := h.mono fun _ _ => trivial
    have sound := anyone.record (admits_of_refusal? kept) trivial
    have all : (t.record s vote).votes.filter (fun _ => true)
        = t.votes ++ [vote] := by rw [List.filter_true, record_votes]
    have sum := sound.sum_power distinct fun _ => true
    have small := s.validators.weight_le_total whole fun a =>
      ((t.record s vote).voteOf? a).any fun _ => true
    have before := toNat_satSum_le (t.votes.map (·.body.power))
    have part := h.counted.powerFor_le_power vote.body.hash
    rw [all, List.map_append, List.sum_append, List.map_singleton,
      List.sum_singleton] at sum
    rw [List.map_map, ← h.counted.power] at before
    have before : t.power.toNat ≤ (t.votes.map (·.body.power.toNat)).sum := before
    omega
  · intro hash
    constructor
    · intro reached
      exact (ValidatorSet.exceedsTwoThirds_iff _ _).1 (h.backed hash reached)
    · intro many
      -- some hash has the majority, and no two can have two thirds each
      obtain ⟨first, reached⟩ := Option.isSome_iff_exists.1
        (complete hash ((ValidatorSet.exceedsTwoThirds_iff _ _).2 many))
      have backed := (ValidatorSet.exceedsTwoThirds_iff _ _).1
        (h.backed first reached)
      rw [reached, h.eq_of_two_thirds built backed many]

end Books

-- ================================================================= entries

/-- What is recorded stays as it is. -/
structure Stays (t t' : Tally) : Prop where
  vote : ∀ address vote, t.voteOf? address = some vote →
    t'.voteOf? address = some vote
  claim : ∀ peer hash, t.claimOf? peer = some hash →
    t'.claimOf? peer = some hash
  majority : ∀ hash, t.majority = some hash → t'.majority = some hash

theorem Stays.refl (t : Tally) : t.Stays t :=
  ⟨fun _ _ => id, fun _ _ => id, fun _ => id⟩

/-- What stays over two stretches stays over both. -/
theorem Stays.trans {t' t'' : Tally} (h : t.Stays t') (h' : t'.Stays t'') :
    t.Stays t'' :=
  ⟨fun a v first => h'.vote a v (h.vote a v first),
    fun p k first => h'.claim p k (h.claim p k first),
    fun k first => h'.majority k (h.majority k first)⟩

/-- A vote goes behind those recorded, which are found before it. -/
theorem stays_record (s : Scope) (t : Tally) (vote : Vote) :
    t.Stays (t.record s vote) := by
  constructor
  case vote =>
    intro address first found
    unfold voteOf? at found ⊢
    rw [record_votes, List.find?_append, found]
    rfl
  case claim =>
    intro peer hash claimed
    unfold claimOf? at claimed ⊢
    rw [claims_record, claimed]
  case majority => exact (grows_record s t vote).majority

/-- A claim goes behind those recorded, likewise. -/
theorem stays_claim (t : Tally) (entry : Address × BlockHash) :
    t.Stays { t with claims := t.claims ++ [entry] } := by
  refine ⟨fun _ _ => id, fun peer hash claimed => ?_, fun _ => id⟩
  unfold claimOf? at claimed ⊢
  obtain ⟨first, found, here⟩ := Option.map_eq_some_iff.1 claimed
  dsimp only
  rw [List.find?_append, found]
  exact congrArg some here

/-- A call adds behind what is there, or adds nothing. -/
theorem stays_call (s : Scope) (t : Tally) (asked : Call) :
    t.Stays (t.call s asked) := by
  rcases call_cases s t asked with same | ⟨vote, -, recorded⟩
    | ⟨peer, hash, -, claimed⟩
  · rw [same]
    exact .refl t
  · rw [recorded]
    exact stays_record s t vote
  · rw [claimed]
    exact stays_claim t _

/-- Over any calls what is recorded stays. -/
theorem stays_after (s : Scope) (t : Tally) (calls : List Call) :
    t.Stays (t.after s calls) := by
  induction calls generalizing t with
  | nil => exact .refl t
  | cons asked calls ih => exact (stays_call s t asked).trans (ih _)

/-- A call keeps what holds in any set. -/
theorem Sound.call (h : t.Sound s (fun _ => True) round kind)
    (asked : Call) : (t.call s asked).Sound s (fun _ => True) round kind := by
  rcases call_cases s t asked with same | ⟨vote, admits, recorded⟩
    | ⟨peer, hash, -, claimed⟩
  · rw [same]
    exact h
  · rw [recorded]
    exact h.record admits trivial
  · rw [claimed]
    exact h.congr rfl rfl ⟨rfl, rfl, rfl, rfl⟩

/-- No call leaves a majority unseen. -/
theorem Complete.call (h : t.Complete s) (asked : Call) :
    (t.call s asked).Complete s := by
  rcases call_cases s t asked with same | ⟨vote, -, recorded⟩
    | ⟨peer, hash, -, claimed⟩
  · rw [same]
    exact h
  · rw [recorded]
    exact h.record vote
  · rw [claimed]
    exact h.congr ⟨rfl, rfl, rfl, rfl⟩

/-- By induction on the calls. -/
theorem sound_complete_after (h : t.Sound s (fun _ => True) round kind)
    (complete : t.Complete s) (calls : List Call) :
    (t.after s calls).Sound s (fun _ => True) round kind
      ∧ (t.after s calls).Complete s := by
  induction calls generalizing t with
  | nil => exact ⟨h, complete⟩
  | cons asked calls ih => exact ih (h.call asked) (complete.call asked)

/-- More calls go on from where the first ones led. -/
theorem after_append (s : Scope) (t : Tally) (calls more : List Call) :
    t.after s (calls ++ more) = (t.after s calls).after s more :=
  List.foldl_append

/-- After any calls on a new tally of a set built from a list its books are in
order; nothing that is recorded is replaced by calls to come; and a call that
is refused leaves the tally as it was. -/
theorem books_balance {vs : List Validator}
    (built : ValidatorSet.ofList? vs = .ok s.validators) (round : Round)
    (kind : VoteKind) (calls : List Call) :
    (after s { round := round, kind := kind } calls).Balanced s
      ∧ (∀ more, (after s { round := round, kind := kind } calls).Stays
        (after s { round := round, kind := kind } (calls ++ more)))
      ∧ ∀ asked fault,
        (after s { round := round, kind := kind } calls).answer s asked
          = .error fault →
        after s { round := round, kind := kind } (calls ++ [asked])
          = after s { round := round, kind := kind } calls := by
  obtain ⟨sound, complete⟩ := sound_complete_after
    (sound_empty s (fun _ => True) round kind) (complete_empty s round kind) calls
  refine ⟨sound.balanced built complete, fun more => ?_, ?_⟩
  · rw [after_append]
    exact stays_after s _ more
  · intro asked fault refused
    rw [after_append]
    show Tally.call s _ asked = _
    unfold Tally.call
    rw [refused]

end Tally

open scoped Plain

/-- Three of four vote for a block, after one of them voted for nothing; a peer
claims the one and then the other. -/
def Plain.calls : List Tally.Call :=
  [.vote (cast 1 0 (block 0).hash .prevote), .vote (cast 2 0 .nil .prevote),
    .vote (cast 2 0 (block 0).hash .prevote), .vote (cast 3 0 (block 0).hash .prevote),
    .vote (cast 4 0 (block 0).hash .prevote), .claim (address 1) (block 0).hash,
    .claim (address 1) .nil]

open Plain in
/-- The vote that was changed counts as it was first, and three are enough. -/
theorem Tally.books_balance_of_changed :
    ValidatorSet.ofList? members = .ok committee
      ∧ (Tally.after ⟨1, committee⟩ { round := 0, kind := .prevote }
        calls).Balanced ⟨1, committee⟩
      ∧ (Tally.after ⟨1, committee⟩ { round := 0, kind := .prevote }
        calls).power = 4
      ∧ (Tally.after ⟨1, committee⟩ { round := 0, kind := .prevote }
        calls).majority = some (block 0).hash :=
  ⟨ofList?_members,
    (Tally.books_balance (s := ⟨1, committee⟩) ofList?_members 0 .prevote calls).1,
    by decide +kernel, by decide +kernel⟩

end Quorum
