/-
Whose turn it is to propose: height and round together walk around the
set, one place for each step of either.
-/
import Quorum.Validators.Set

namespace Quorum.ValidatorSet

/-- The position of the proposer of a round. -/
def proposerIndex (s : ValidatorSet) (height : Height) (round : Round) : Nat :=
  (height.toNat + round.toNat) % s.size

/-- The proposer of a round; an empty set has none. -/
def proposer? (s : ValidatorSet) (height : Height) (round : Round) : Option Validator :=
  s.get? (s.proposerIndex height round)

/-- Whether this is the address of the proposer of a round. -/
def proposerAddress (s : ValidatorSet) (height : Height) (round : Round) : Address :=
  ((s.proposer? height round).map (·.address)).getD default

end Quorum.ValidatorSet
