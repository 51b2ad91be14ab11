/-
The validators of one height and their powers.

A set built by `ValidatorSet.ofList?` has no address twice, has a total
that fits its word and is not zero, and is sorted by address, so that a
position in the set means the same thing to every validator. A set read
from the wire is taken as it comes.
-/
import Quorum.Wire.Layout

namespace Quorum

/-- A validator and the weight of its vote. -/
structure Validator where
  address : Address
  power : Power
deriving DecidableEq

/-- Validators in order, and the sum of their powers. -/
structure ValidatorSet where
  members : List Validator
  total : Power
deriving DecidableEq

/-- Why a list of validators is no set. -/
inductive SetFault where
  | repeated (address : Address)
  | totalTooLarge
  | totalZero
  | stated (text : String)
deriving DecidableEq

/-- The wording of each cause. -/
def SetFault.message : SetFault → String
  | .repeated address => "duplicate validator " ++ address.text
  | .totalTooLarge => "total power overflows"
  | .totalZero => "total power must be positive"
  | .stated text => text

namespace ValidatorSet

/-- Whether `a` comes before `b` or is `b`. -/
def addressLE (a b : Validator) : Bool := compare a.address b.address != .gt

/-- Put a validator before the first one that is not before it. -/
def insertByAddress (v : Validator) : List Validator → List Validator
  | [] => [v]
  | w :: ws => if addressLE v w then v :: w :: ws else w :: insertByAddress v ws

/-- Sorted by address; validators that were given first come first among
equals. -/
def sortByAddress : List Validator → List Validator
  | [] => []
  | v :: vs => insertByAddress v (sortByAddress vs)

/-- The first address, in the order given, that was there before. -/
def repeated? : List Address → List Validator → Option Address
  | _, [] => none
  | seen, v :: vs =>
    if seen.contains v.address then some v.address else repeated? (v.address :: seen) vs

/-- The sum of powers, if it fits its word. -/
def totalPower? (vs : List Validator) : Option Power :=
  let sum := vs.foldl (fun acc v => acc + v.power.toNat) 0
  if sum < UInt64.size then some (UInt64.ofNat sum) else none

/-- The set of these validators. A repeated address is reported before a
sum too large, and that before a sum of zero. -/
def ofList? (vs : List Validator) : Except SetFault ValidatorSet :=
  match repeated? [] vs with
  | some address => .error (.repeated address)
  | none =>
    match totalPower? vs with
    | none => .error .totalTooLarge
    | some total =>
      if total = 0 then .error .totalZero else .ok ⟨sortByAddress vs, total⟩

/-- The validators, then the total. -/
def layout : Wire.Layout ValidatorSet :=
  ((Wire.Layout.list ((Wire.Layout.address.pair .u64).map
      (fun p => Validator.mk p.1 p.2) (fun v => (v.address, v.power)))).pair .u64).map
    (fun p => ⟨p.1, p.2⟩) (fun s => (s.members, s.total))

/-- How many validators there are. -/
def size (s : ValidatorSet) : Nat := s.members.length

/-- The validator at a position. -/
def get? (s : ValidatorSet) (index : Nat) : Option Validator := s.members[index]?

end ValidatorSet

end Quorum
