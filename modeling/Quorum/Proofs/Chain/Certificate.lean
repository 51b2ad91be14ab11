/-
What a certificate that passes its check proves.

Its places are those of the validator set, one by one, and a place adds to
the committed power only what its validator weighs, and only if it holds
that validator's well-signed precommit for the certificate's own block and
round. So more than two thirds of the power has signed such a precommit
(`Certificate.two_thirds_of_check`).
-/
import Quorum.Chain.Certificate
import Quorum.Proofs.Validators.Weight

namespace Quorum.Certificate

variable [Crypto] {c : Certificate}

/-- A vote that commits its validator to the certificate's block. -/
structure Commits (c : Certificate) (vote : Vote) : Prop where
  kind : vote.body.kind = .precommit
  height : vote.body.height = c.height
  round : vote.body.round = c.round
  hash : vote.body.hash = c.hash
  signed : vote.verify = true

/-- A place holds its validator's vote, and counts for nothing or commits
the validator with its power. -/
theorem placePower_ok {vote : Vote} {validator : Validator} {power : Power}
    (counted : c.placePower vote validator = .ok power) :
    vote.body.validator = validator.address
      ∧ (power = 0 ∨ power = validator.power ∧ c.Commits vote) := by
  unfold placePower at counted
  dsimp only at counted
  split at counted
  case isTrue => cases counted
  case isFalse own =>
    split at counted
    case isTrue => cases counted
    case isFalse here =>
      rw [Decidable.not_not] at own
      rw [not_or, Decidable.not_not, Decidable.not_not] at here
      refine ⟨own, ?_⟩
      split at counted
      case h_1 =>
        cases counted
        exact Or.inl rfl
      case h_2 => cases counted
      case h_3 kind =>
        split at counted
        case isTrue => cases counted
        case isFalse good =>
          cases counted
          rw [not_or, Decidable.not_not] at good
          exact Or.inr
            ⟨rfl, kind, here.1, here.2, good.1, by simpa using good.2⟩

/-- The power of places is that of the first and of the others. -/
theorem exists_placePower {vote : Vote} {votes : List Vote} {validator : Validator}
    {validators : List Validator} {sum power : Power}
    (counted : c.placesPower (vote :: votes) (validator :: validators) sum = .ok power) :
    ∃ placed, c.placePower vote validator = .ok placed
      ∧ c.placesPower votes validators (satAdd sum placed) = .ok power := by
  unfold placesPower at counted
  split at counted
  case h_1 => cases counted
  case h_2 placed here => exact ⟨placed, here, counted⟩

/-- What is asked of a certificate that passes. -/
theorem check_eq_ok_iff {validators : ValidatorSet} :
    c.check validators = .ok ()
      ↔ c.hash ≠ .nil ∧ c.votes.length = validators.size
        ∧ ∃ power, c.placesPower c.votes validators.members 0 = .ok power
          ∧ validators.exceedsTwoThirds power = true := by
  have named : c.hash.isNil = true ↔ c.hash = .nil := beq_iff_eq
  unfold check
  split
  case isTrue nothing => exact iff_of_false nofun fun asked => asked.1 (named.1 nothing)
  case isFalse real =>
    split
    case isTrue short => exact iff_of_false nofun fun asked => short asked.2.1
    case isFalse full =>
      rw [Decidable.not_not] at full
      split
      case h_1 fault refused =>
        refine iff_of_false nofun fun ⟨_, _, power, counted, _⟩ => ?_
        cases refused.symm.trans counted
      case h_2 power counted =>
        split
        case isTrue enough =>
          exact iff_of_true rfl ⟨mt named.2 real, full, power, counted, enough⟩
        case isFalse few =>
          refine iff_of_false nofun fun ⟨_, _, power', counted', enough⟩ => ?_
          cases counted.symm.trans counted'
          exact few enough

/-- The committed power is at most that of those who committed. -/
theorem toNat_placesPower_le {p : Address → Bool} {votes : List Vote}
    {validators : List Validator} {sum power : Power}
    (counted : c.placesPower votes validators sum = .ok power)
    (picked : ∀ vote ∈ votes, c.Commits vote →
      vote.body.validator ∈ validators.map (·.address) →
      p vote.body.validator = true) :
    power.toNat ≤ sum.toNat
      + (validators.map fun v =>
        if p v.address then v.power.toNat else 0).sum := by
  induction votes generalizing validators sum with
  | nil =>
    cases counted
    exact Nat.le_add_right _ _
  | cons vote votes ih =>
    cases validators with
    | nil =>
      cases counted
      exact Nat.le_add_right _ _
    | cons validator validators =>
      obtain ⟨placed, here, counted⟩ := exists_placePower counted
      have rest := ih counted fun v hv commits member =>
        picked v (List.mem_cons_of_mem _ hv) commits
          (List.mem_cons_of_mem _ member)
      -- a place is worth its validator's power, or nothing
      have first : placed.toNat
          ≤ if p validator.address then validator.power.toNat else 0 := by
        obtain ⟨own, rfl | ⟨rfl, commits⟩⟩ := placePower_ok here
        · exact Nat.zero_le _
        · have counts :=
            picked vote List.mem_cons_self commits (own ▸ List.mem_cons_self)
          rw [own] at counts
          rw [if_pos counts]
      have added := toNat_satAdd sum placed
      rw [List.map_cons, List.sum_cons]
      omega

/-- Whoever includes all that committed weighs more than two thirds, if the
certificate passes. -/
theorem two_thirds_of_check {validators : ValidatorSet} {p : Address → Bool}
    (passed : c.check validators = .ok ())
    (picked : ∀ vote ∈ c.votes, c.Commits vote →
      vote.body.validator ∈ validators.members.map (·.address) →
      p vote.body.validator = true) :
    2 * validators.total.toNat < 3 * validators.weight p := by
  obtain ⟨-, -, power, counted, enough⟩ := check_eq_ok_iff.1 passed
  have enough := (ValidatorSet.exceedsTwoThirds_iff _ _).1 enough
  have small := toNat_placesPower_le counted picked
  have zero : (0 : Power).toNat = 0 := rfl
  unfold ValidatorSet.weight
  omega

/-- Places that all count, each for some power, count for their sum. -/
theorem placesPower_map {f : Validator → Vote} {g : Validator → Power}
    {validators : List Validator}
    (counts : ∀ v ∈ validators, c.placePower (f v) v = .ok (g v)) (sum : Power) :
    c.placesPower (validators.map f) validators sum
      = .ok ((validators.map g).foldl satAdd sum) := by
  induction validators generalizing sum with
  | nil => rfl
  | cons v validators ih =>
    rw [List.map_cons, List.map_cons, List.foldl_cons]
    unfold placesPower
    rw [counts v List.mem_cons_self]
    exact ih (fun v' member => counts v' (List.mem_cons_of_mem _ member)) _

/-- A certificate that passes is for a block. -/
theorem hash_ne_nil_of_check {validators : ValidatorSet}
    (passed : c.check validators = .ok ()) :
    c.hash ≠ .nil :=
  (check_eq_ok_iff.1 passed).1

end Quorum.Certificate
