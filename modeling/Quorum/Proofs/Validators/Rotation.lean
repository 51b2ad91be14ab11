/-
Everybody gets a turn.

The proposer of a round stands at the sum of height and round, counted around the
set. Whoever steps on by one round, or by one height, steps on by one place. So as
many steps as there are validators go around the set once, from wherever they
begin: the proposers met on the way are the members, rotated (`proposers_rotate`),
and a rotation leaves nobody out and takes nobody twice.

Rounds and heights are words, and a window of them must not run past the last one.
Their sum is a number and has no last one, which is why the windows at the end of
the words are as good as any other.
-/
import Quorum.Validators.Rotation
import Quorum.Proofs.Validators.Weight

namespace Quorum.ValidatorSet

variable {vs : List Validator} {s : ValidatorSet}

-- ================================================================= places

/-- A set built from a list is not empty: it has some power. -/
theorem size_pos (built : ofList? vs = .ok s) : 0 < s.size := by
  obtain ⟨-, total⟩ := ofList?_spec built
  obtain ⟨-, -, positive, -⟩ := ofList?_eq_ok_iff.1 built
  refine Nat.pos_of_ne_zero fun empty => positive (UInt64.toNat_inj.1 ?_)
  rw [total, List.eq_nil_of_length_eq_zero empty]
  rfl

/-- The place of the proposer is one of the set's. -/
theorem proposerIndex_lt (built : ofList? vs = .ok s) (height : Height)
    (round : Round) : s.proposerIndex height round < s.size :=
  Nat.mod_lt _ (size_pos built)

/-- Somebody proposes, and is one of the members. -/
theorem exists_proposer (built : ofList? vs = .ok s) (height : Height)
    (round : Round) : ∃ v ∈ s.members, s.proposer? height round = some v := by
  have within := proposerIndex_lt built height round
  exact ⟨_, List.getElem_mem within, List.getElem?_eq_getElem within⟩

-- ================================================================ windows

/-- Who walks on place by place, once around the set, meets its members in their
order, rotated to where the walk began. -/
theorem proposers_rotate {turn : Nat → Option Validator} {start : Nat}
    (turns : ∀ i < s.size, turn i = s.get? ((start + i) % s.size)) :
    (List.range s.size).map turn = (s.members.rotate start).map some := by
  refine List.ext_getElem (by simp [size]) fun i inside inside' => ?_
  have bound : i < s.size := by simpa using inside
  rw [List.getElem_map, List.getElem_range, List.getElem_map, List.getElem_rotate,
    turns i bound, Nat.add_comm start i]
  exact List.getElem?_eq_getElem _

/-- Rotated or not, they are the members. -/
theorem proposers_perm {turn : Nat → Option Validator} {start : Nat}
    (turns : ∀ i < s.size, turn i = s.get? ((start + i) % s.size)) :
    ((List.range s.size).map turn).Perm (s.members.map some) := by
  rw [proposers_rotate turns]
  exact (List.rotate_perm _ _).map _

/-- A later round stands as many places on. -/
theorem proposer?_add_round (s : ValidatorSet) (height : Height) {round : Round}
    {i : Nat} (fits : round.toNat + i < UInt32.size) :
    s.proposer? height (round + UInt32.ofNat i)
      = s.get? ((height.toNat + round.toNat + i) % s.size) := by
  have small : i < UInt32.size := Nat.lt_of_le_of_lt (Nat.le_add_left _ _) fits
  unfold proposer? proposerIndex
  rw [UInt32.toNat_add, UInt32.toNat_ofNat', Nat.mod_eq_of_lt small,
    Nat.mod_eq_of_lt fits, Nat.add_assoc]

/-- A later height does so, too. -/
theorem proposer?_add_height (s : ValidatorSet) {height : Height} (round : Round)
    {i : Nat} (fits : height.toNat + i < UInt64.size) :
    s.proposer? (height + UInt64.ofNat i) round
      = s.get? ((height.toNat + round.toNat + i) % s.size) := by
  have small : i < UInt64.size := Nat.lt_of_le_of_lt (Nat.le_add_left _ _) fits
  unfold proposer? proposerIndex
  rw [UInt64.toNat_add, UInt64.toNat_ofNat', Nat.mod_eq_of_lt small,
    Nat.mod_eq_of_lt fits, Nat.add_right_comm]

-- ================================================================== turns

/-- Turns are fair. At every height, in as many consecutive rounds as there are
validators each of them proposes exactly once, and so it is in one round of as many
consecutive heights. The place is in range for every height and round. -/
theorem everybody_proposes_once (built : ofList? vs = .ok s) :
    (s.members.map (·.address)).Nodup
      ∧ (∀ (height : Height) (round : Round),
        round.toNat + s.size - 1 ≤ UInt32.size - 1 →
        ((List.range s.size).map fun i =>
          s.proposer? height (round + UInt32.ofNat i)).Perm (s.members.map some))
      ∧ (∀ (height : Height) (round : Round),
        height.toNat + s.size - 1 ≤ UInt64.size - 1 →
        ((List.range s.size).map fun i =>
          s.proposer? (height + UInt64.ofNat i) round).Perm (s.members.map some))
      ∧ ∀ (height : Height) (round : Round),
        s.proposerIndex height round < s.size
          ∧ ∃ v ∈ s.members, s.proposer? height round = some v := by
  have word : 0 < UInt32.size ∧ 0 < UInt64.size := by decide
  refine ⟨(ofList?_spec built).1, fun height round fits => ?_,
    fun height round fits => ?_, fun height round =>
      ⟨proposerIndex_lt built height round, exists_proposer built height round⟩⟩
  · exact proposers_perm fun i inside =>
      s.proposer?_add_round height (by omega)
  · exact proposers_perm fun i inside =>
      s.proposer?_add_height round (by omega)

/-- Three validators of power one. -/
def trio : ValidatorSet :=
  ⟨[1, 2, 3].map fun byte => ⟨⟨Octets.replicate 32 byte⟩, 1⟩, 3⟩

/-- At the largest height, the three last rounds go to three validators, each exactly
once. So do the largest rounds of the three last heights. -/
theorem everybody_proposes_once_of_trio :
    ofList? trio.members = .ok trio
      ∧ UInt32.toNat 4294967293 + trio.size - 1 ≤ UInt32.size - 1
      ∧ UInt64.toNat 18446744073709551613 + trio.size - 1 ≤ UInt64.size - 1
      ∧ (trio.members.map (·.address)).Nodup
      ∧ ((List.range 3).map fun i => trio.proposer? 18446744073709551615
          (4294967293 + UInt32.ofNat i)).Perm (trio.members.map some)
      ∧ ((List.range 3).map fun i => trio.proposer?
          (18446744073709551613 + UInt64.ofNat i) 4294967295).Perm
            (trio.members.map some) := by
  have built : ofList? trio.members = .ok trio := by decide +kernel
  have fits : UInt32.toNat 4294967293 + trio.size - 1 ≤ UInt32.size - 1 := by decide
  have fits' : UInt64.toNat 18446744073709551613 + trio.size - 1 ≤ UInt64.size - 1 := by
    decide
  obtain ⟨distinct, rounds, heights, -⟩ := everybody_proposes_once built
  exact ⟨built, fits, fits', distinct, rounds _ _ fits, heights _ _ fits'⟩

end Quorum.ValidatorSet
