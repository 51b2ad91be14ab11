/-
The two powers that matter: more than a third, which includes somebody
honest, and more than two thirds, of which any two share somebody honest.

They are worked out on numbers without a width, so doubling the total
cannot overflow.
-/
import Quorum.Validators.Set

namespace Quorum.ValidatorSet

/-- The least power above two thirds of the total. -/
def twoThirds (s : ValidatorSet) : Power := UInt64.ofNat (s.total.toNat * 2 / 3) + 1

/-- The least power above one third of the total. -/
def oneThird (s : ValidatorSet) : Power := UInt64.ofNat (s.total.toNat / 3) + 1

/-- Whether a power is more than two thirds of the total. -/
def exceedsTwoThirds (s : ValidatorSet) (power : Power) : Bool := s.twoThirds ≤ power

/-- Whether a power is more than one third of the total. -/
def exceedsOneThird (s : ValidatorSet) (power : Power) : Bool := s.oneThird ≤ power

end Quorum.ValidatorSet
