/-
The two thresholds are exact, whatever the total.

A threshold is a multiple of the total, divided by three, and one more. The
division rounds down, so the next number is the least one above the fraction
itself, and to reach it is to exceed the fraction. What a word might not hold is
worked out with the largest total there is: twice that fits in two words, two
thirds of it fit in one, and leave room for the one that is added
(`ValidatorSet.third_succ_lt`).
-/
import Mathlib
import Quorum.Validators.Threshold

namespace Quorum

-- ================================================= step by step

/-- A number, if it has no more than so many bits. -/
def within (bits n : Nat) : Option Nat := if n < 2 ^ bits then some n else none

theorem within_of_lt {bits n : Nat} (fits : n < 2 ^ bits) : within bits n = some n :=
  if_pos fits

namespace ValidatorSet

/-- A threshold worked out step by step: the multiple of the total has 128 bits
to fit in, and what comes after it has 64. Where one of them does not fit there
is no threshold. -/
def checkedThreshold (times : Nat) (total : Power) : Option Power := do
  let multiple ← within 128 (total.toNat * times)
  let part ← within 64 (multiple / 3)
  let next ← within 64 (part + 1)
  return UInt64.ofNat next

-- ==================================================== thresholds

variable {times : Nat}

/-- Up to two thirds of a word leave room for one more. -/
theorem third_succ_lt (few : times ≤ 2) (total : Power) :
    total.toNat * times / 3 + 1 < 2 ^ 64 := by
  have word := total.toNat_lt
  have most : total.toNat * times ≤ total.toNat * 2 := Nat.mul_le_mul_left _ few
  omega

theorem toNat_third_succ (few : times ≤ 2) (total : Power) :
    (UInt64.ofNat (total.toNat * times / 3) + 1).toNat = total.toNat * times / 3 + 1 := by
  have room := third_succ_lt few total
  rw [UInt64.toNat_add, UInt64.toNat_ofNat', UInt64.toNat_one,
    Nat.mod_eq_of_lt (Nat.lt_of_succ_lt room), Nat.mod_eq_of_lt room]

/-- No step of it overflows. -/
theorem checkedThreshold_eq (few : times ≤ 2) (total : Power) :
    checkedThreshold times total
      = some (UInt64.ofNat (total.toNat * times / 3) + 1) := by
  have room := third_succ_lt few total
  have wide : total.toNat * times < 2 ^ 128 := by omega
  unfold checkedThreshold
  simp only [Option.bind_eq_bind]
  rw [within_of_lt wide, Option.bind_some, within_of_lt (Nat.lt_of_succ_lt room),
    Option.bind_some, within_of_lt room, Option.bind_some]
  refine congrArg some (UInt64.toNat_inj.1 ?_)
  rw [UInt64.toNat_ofNat', Nat.mod_eq_of_lt room, toNat_third_succ few]

/-- To reach the number after a fraction rounded down is to exceed the fraction. -/
theorem third_succ_le_iff (few : times ≤ 2) (total power : Power) :
    UInt64.ofNat (total.toNat * times / 3) + 1 ≤ power
      ↔ total.toNat * times < 3 * power.toNat := by
  rw [UInt64.le_iff_toNat_le, toNat_third_succ few]
  omega

theorem oneThird_eq (s : ValidatorSet) :
    s.oneThird = UInt64.ofNat (s.total.toNat * 1 / 3) + 1 := by
  rw [Nat.mul_one]
  rfl

theorem exceedsTwoThirds_iff (s : ValidatorSet) (power : Power) :
    s.exceedsTwoThirds power = true ↔ 2 * s.total.toNat < 3 * power.toNat := by
  unfold exceedsTwoThirds twoThirds
  rw [decide_eq_true_iff, third_succ_le_iff (Nat.le_refl 2), Nat.mul_comm]

theorem exceedsOneThird_iff (s : ValidatorSet) (power : Power) :
    s.exceedsOneThird power = true ↔ s.total.toNat < 3 * power.toNat := by
  unfold exceedsOneThird
  rw [decide_eq_true_iff, oneThird_eq, third_succ_le_iff (Nat.le_succ 1), Nat.mul_one]

/-- The thresholds are exact for every total that a word can hold: no step on the
way to them overflows, to reach one is to exceed its fraction of the total, and
it is the least power that does. -/
theorem thresholds_exact (s : ValidatorSet) :
    checkedThreshold 2 s.total = some s.twoThirds
      ∧ checkedThreshold 1 s.total = some s.oneThird
      ∧ (∀ power : Power,
          s.exceedsTwoThirds power = true ↔ 2 * s.total.toNat < 3 * power.toNat)
      ∧ (∀ power : Power,
          s.exceedsOneThird power = true ↔ s.total.toNat < 3 * power.toNat)
      ∧ IsLeast {power : Power | 2 * s.total.toNat < 3 * power.toNat} s.twoThirds
      ∧ IsLeast {power : Power | s.total.toNat < 3 * power.toNat} s.oneThird := by
  refine ⟨?two, ?one, s.exceedsTwoThirds_iff, s.exceedsOneThird_iff, ?leastTwo, ?leastOne⟩
  case two => exact checkedThreshold_eq (Nat.le_refl 2) s.total
  case one => rw [checkedThreshold_eq (Nat.le_succ 1), oneThird_eq]
  case leastTwo =>
    constructor
    · exact (s.exceedsTwoThirds_iff s.twoThirds).1 (decide_eq_true (UInt64.le_refl _))
    · intro power exceeds
      exact of_decide_eq_true ((s.exceedsTwoThirds_iff power).2 exceeds)
  case leastOne =>
    constructor
    · exact (s.exceedsOneThird_iff s.oneThird).1 (decide_eq_true (UInt64.le_refl _))
    · intro power exceeds
      exact of_decide_eq_true ((s.exceedsOneThird_iff power).2 exceeds)

end ValidatorSet

end Quorum
