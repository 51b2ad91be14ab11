/-
When a certificate proves its block.

The places of a certificate are the places of the validator set. A place
is either empty (a null vote) or holds that validator's signed precommit
for the certificate's block, height and round; the powers in the set, not
those claimed in the votes, have to make more than two thirds. The first
place that is wrong is reported.
-/
import Quorum.Chain.Block
import Quorum.Validators.Lookup
import Quorum.Validators.Threshold

namespace Quorum

/-- Why a certificate does not prove its block, or not this block. -/
inductive CertificateFault where
  | nilHash
  | voteCount (expected got : Nat)
  | outOfPosition (validator : Address)
  | otherRound (validator : Address)
  | holdsPrevote (validator : Address)
  | badPrecommit (validator : Address)
  | noMajority (power total : Power)
  | notParent
  | missing
  | unexpected
  | otherBlock
  | stated (text : String)
deriving DecidableEq

/-- The wording of each cause. -/
def CertificateFault.message : CertificateFault → String
  | .nilHash => "commit for nil"
  | .voteCount expected got =>
    "expected " ++ toString expected ++ " votes, got " ++ toString got
  | .outOfPosition validator => "vote of " ++ validator.text ++ " out of position"
  | .otherRound validator => "vote of " ++ validator.text ++ " is for another height or round"
  | .holdsPrevote validator => "prevote from " ++ validator.text ++ " in commit"
  | .badPrecommit validator => "bad precommit from " ++ validator.text
  | .noMajority power total =>
    "committed power " ++ decimal power ++ " of " ++ decimal total ++ " is not a 2/3 majority"
  | .notParent => "last commit does not match parent"
  | .missing => "missing last commit"
  | .unexpected => "first block cannot carry a commit"
  | .otherBlock => "commit is for another block"
  | .stated text => text

namespace Certificate

/-- What one place adds to the committed power, or what is wrong with
it. -/
def placePower [Crypto] (c : Certificate) (vote : Vote) (validator : Validator) :
    Except CertificateFault Power :=
  let ballot := vote.body
  if ballot.validator ≠ validator.address then .error (.outOfPosition ballot.validator)
  else if ballot.height ≠ c.height ∨ ballot.round ≠ c.round then
    .error (.otherRound ballot.validator)
  else
    match ballot.kind with
    | .null => .ok 0
    | .prevote => .error (.holdsPrevote ballot.validator)
    | .precommit =>
      if ballot.hash ≠ c.hash ∨ !vote.verify then .error (.badPrecommit ballot.validator)
      else .ok validator.power

/-- The committed power of all places, from the left. -/
def placesPower [Crypto] (c : Certificate) :
    List Vote → List Validator → Power → Except CertificateFault Power
  | vote :: votes, validator :: validators, sum =>
    match c.placePower vote validator with
    | .error fault => .error fault
    | .ok power => placesPower c votes validators (satAdd sum power)
  | _, _, sum => .ok sum

/-- Whether the certificate proves its block against this set. -/
def check [Crypto] (c : Certificate) (validators : ValidatorSet) :
    Except CertificateFault Unit :=
  if c.hash.isNil then .error .nilHash
  else if c.votes.length ≠ validators.size then
    .error (.voteCount validators.size c.votes.length)
  else
    match placesPower c c.votes validators.members 0 with
    | .error fault => .error fault
    | .ok power =>
      if validators.exceedsTwoThirds power then .ok ()
      else .error (.noMajority power validators.total)

end Certificate

end Quorum
