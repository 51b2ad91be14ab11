/-
Finding a validator by its address.

The list is halved as if it were sorted by address. In a set that is
sorted this finds every validator; in one that came unsorted from the
wire it finds what it finds, the same for everybody.
-/
import Quorum.Validators.Set

namespace Quorum.ValidatorSet

/-- Halve the window of `size` validators from `base` until one is left:
the half kept is the upper one unless its first validator comes after
the address looked for. `fuel` bounds the halvings. -/
def narrow (vs : List Validator) (address : Address) : Nat → Nat → Nat → Nat
  | 0, base, _ => base
  | fuel + 1, base, size =>
    if size ≤ 1 then base
    else
      let half := size / 2
      let middle := base + half
      let base :=
        match vs[middle]? with
        | some v => if compare v.address address == .gt then base else middle
        | none => base
      narrow vs address fuel base (size - half)

/-- The position of an address, by halving. -/
def indexOf? (s : ValidatorSet) (address : Address) : Option Nat :=
  let index := narrow s.members address s.size 0 s.size
  match s.get? index with
  | some v => if v.address == address then some index else none
  | none => none

/-- Whether an address is that of a validator. -/
def contains (s : ValidatorSet) (address : Address) : Bool := (s.indexOf? address).isSome

/-- The power of an address that is a validator's. -/
def powerOf? (s : ValidatorSet) (address : Address) : Option Power :=
  match s.indexOf? address with
  | some index => (s.get? index).map (·.power)
  | none => none

end Quorum.ValidatorSet
