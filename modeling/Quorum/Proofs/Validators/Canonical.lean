/-
A set built from a list is canonical, and looking up in it is exact.

What is asked of a list, that nobody is named twice and that the powers make a
sum, is asked of its validators and not of their order. Neither does the set
depend on it: two strictly ascending lists of the same validators are one list
(`Ascending.eq_of_perm`). So everybody who was told of the same validators holds
the same set, place by place.

Looking up by halving is compared with a search from the front. In the set both
end at the same place, because an address has one place only
(`indexOf?_eq_findIdx?`). In the list as it was given the places differ, but not
who is found there (`indexOf?_bind_get?`).
-/
import Quorum.Proofs.Validators.Lookup

namespace Quorum.ValidatorSet

variable {vs vs' : List Validator} {s : ValidatorSet} {v : Validator}
  {address : Address}

-- =============================================================== building

/-- There is a set of a list exactly where no address comes again and the powers
make a sum that is not zero and fits its word. -/
theorem exists_ofList?_iff :
    (∃ s, ofList? vs = .ok s)
      ↔ (vs.map (·.address)).Nodup ∧ 1 ≤ (vs.map (·.power.toNat)).sum
        ∧ (vs.map (·.power.toNat)).sum ≤ UInt64.size - 1 := by
  constructor
  · rintro ⟨s, built⟩
    obtain ⟨distinct, total, positive, -⟩ := ofList?_eq_ok_iff.1 built
    have small : s.total.toNat < UInt64.size := s.total.toNat_lt
    have large : s.total.toNat ≠ 0 := fun zero => positive (UInt64.toNat_inj.1 zero)
    exact ⟨distinct, by omega, by omega⟩
  · rintro ⟨distinct, positive, fits⟩
    have total : (UInt64.ofNat (vs.map (·.power.toNat)).sum).toNat
        = (vs.map (·.power.toNat)).sum := by
      rw [UInt64.toNat_ofNat']
      exact Nat.mod_eq_of_lt (Nat.lt_of_le_pred (by decide) fits)
    refine ⟨⟨sortByAddress vs, UInt64.ofNat (vs.map (·.power.toNat)).sum⟩,
      ofList?_eq_ok_iff.2 ⟨distinct, total, fun zero => ?_, rfl⟩⟩
    have nothing := total.symm.trans (congrArg UInt64.toNat zero)
    exact absurd nothing (Nat.ne_of_gt positive)

-- ================================================================== order

/-- The same validators ascend in one order only. -/
theorem Ascending.eq_of_perm (ascending : Ascending vs)
    (ascending' : Ascending vs') (same : vs.Perm vs') : vs = vs' :=
  same.eq_of_pairwise
    (fun u v _ _ before after => by
      cases (Std.OrientedCmp.gt_iff_lt.2 after).symm.trans before)
    ascending ascending'

/-- The order in which validators are given makes no difference. -/
theorem ofList?_of_perm (built : ofList? vs = .ok s) (same : vs'.Perm vs) :
    ofList? vs' = .ok s := by
  obtain ⟨distinct, total, positive, members⟩ := ofList?_eq_ok_iff.1 built
  have built' : ofList? vs' = .ok ⟨sortByAddress vs', s.total⟩ :=
    ofList?_eq_ok_iff.2 ⟨(same.map _).nodup_iff.2 distinct,
      total.trans (same.map _).sum_eq.symm, positive, rfl⟩
  have sorted : sortByAddress vs' = s.members :=
    (ascending_of_ofList? built').eq_of_perm (ascending_of_ofList? built)
      ((sortByAddress_perm vs').trans (same.trans (members_perm built).symm))
  rw [built', sorted]

-- ============================================================= looking up

/-- Whoever halving finds, a search of the given list from the front finds. -/
theorem indexOf?_bind_get? (built : ofList? vs = .ok s) :
    (s.indexOf? address).bind s.get?
      = vs.find? fun v => v.address == address := by
  have distinct := (ofList?_eq_ok_iff.1 built).1
  refine Option.ext fun v => ?_
  rw [find?_key_eq_some_iff distinct, ← (members_perm built).mem_iff,
    Option.bind_eq_some_iff]
  constructor
  · rintro ⟨index, found, here⟩
    obtain ⟨u, here', named⟩ := get?_of_indexOf? found
    cases here.symm.trans here'
    exact ⟨List.mem_of_getElem? here, named⟩
  · rintro ⟨member, rfl⟩
    obtain ⟨index, here⟩ := List.mem_iff_getElem?.1 member
    exact ⟨index, indexOf?_of_get? built here, here⟩

/-- Halving ends at the place where a search of the set from the front ends. -/
theorem indexOf?_eq_findIdx? (built : ofList? vs = .ok s) :
    s.indexOf? address = s.members.findIdx? fun v => v.address == address := by
  cases first : s.members.findIdx? fun v => v.address == address with
  | some index =>
    obtain ⟨bound, named, -⟩ := List.findIdx?_eq_some_iff_getElem.1 first
    rw [← beq_iff_eq.1 named]
    exact indexOf?_of_get? built (List.getElem?_eq_getElem bound)
  | none =>
    have absent := List.findIdx?_eq_none_iff.1 first
    -- what halving finds has the address, which no member has
    refine Option.eq_none_iff_forall_ne_some.2 fun index found => ?_
    obtain ⟨v, here, named⟩ := get?_of_indexOf? found
    exact absurd named (by simpa using absent v (List.mem_of_getElem? here))

/-- An address is in the set exactly if it is somewhere in the given list. -/
theorem contains_eq_any (built : ofList? vs = .ok s) :
    s.contains address = vs.any fun v => v.address == address := by
  rw [Bool.eq_iff_iff, List.any_eq_true, ← List.find?_isSome,
    ← indexOf?_bind_get? built]
  unfold contains
  cases found : s.indexOf? address with
  | none => exact Iff.rfl
  | some index =>
    obtain ⟨v, here, -⟩ := get?_of_indexOf? found
    rw [Option.bind_some, here]
    exact Iff.rfl

/-- How looking up an address in a set compares with a search for it from the
front, of the set and of the list that it was built from. -/
structure Answers (s : ValidatorSet) (vs : List Validator) (address : Address) :
    Prop where
  index : s.indexOf? address = s.members.findIdx? fun v => v.address == address
  /-- The place is that of the validator who was given under this address. -/
  found : (s.indexOf? address).bind s.get? = vs.find? fun v => v.address == address
  contains : s.contains address = vs.any fun v => v.address == address
  power : s.powerOf? address
    = (vs.find? fun v => v.address == address).map (·.power)

theorem answers_of_ofList? (built : ofList? vs = .ok s) (address : Address) :
    s.Answers vs address where
  index := indexOf?_eq_findIdx? built
  found := indexOf?_bind_get? built
  contains := contains_eq_any built
  power := by rw [powerOf?_eq_map, indexOf?_bind_get? built]

-- ========================================================= canonical sets

/-- There is a set of a list exactly if no address comes again and the sum of the
powers is at least one and fits its word. The set ascends strictly by the bytes of
its addresses, consists of the given validators with their powers, has their sum as
its total, and is the same in whatever order they are given. Every address, of a
validator or not, is looked up in it as a search from the front would find it. -/
theorem built_set_canonical (vs : List Validator) :
    ((∃ s, ofList? vs = .ok s)
      ↔ (vs.map (·.address)).Nodup ∧ 1 ≤ (vs.map (·.power.toNat)).sum
        ∧ (vs.map (·.power.toNat)).sum ≤ UInt64.size - 1)
    ∧ ∀ s, ofList? vs = .ok s →
      Ascending s.members ∧ s.members.Perm vs
        ∧ s.total.toNat = (vs.map (·.power.toNat)).sum
        ∧ (∀ vs', vs'.Perm vs → ofList? vs' = .ok s)
        ∧ ∀ address, s.Answers vs address := by
  refine ⟨exists_ofList?_iff, fun s built => ?_⟩
  obtain ⟨-, total, -⟩ := ofList?_eq_ok_iff.1 built
  exact ⟨ascending_of_ofList? built, members_perm built, total,
    fun vs' same => ofList?_of_perm built same, answers_of_ofList? built⟩

/-- Three validators out of order. One has no power, and together they have all
that a word can hold. -/
def scattered : List Validator :=
  [⟨⟨Octets.replicate 32 3⟩, 18446744073709551610⟩,
    ⟨⟨Octets.replicate 32 1⟩, 0⟩, ⟨⟨Octets.replicate 32 2⟩, 5⟩]

/-- The three in order. -/
def gathered : ValidatorSet where
  members := [⟨⟨Octets.replicate 32 1⟩, 0⟩, ⟨⟨Octets.replicate 32 2⟩, 5⟩,
    ⟨⟨Octets.replicate 32 3⟩, 18446744073709551610⟩]
  total := 18446744073709551615

/-- They make one set in either order, and a stranger is looked up in vain. -/
theorem built_set_canonical_of_scattered :
    ofList? scattered = .ok gathered
      ∧ scattered.reverse.Perm scattered
      ∧ ofList? scattered.reverse = .ok gathered
      ∧ Ascending gathered.members
      ∧ gathered.Answers scattered ⟨Octets.replicate 32 9⟩ := by
  have built : ofList? scattered = .ok gathered := by decide +kernel
  obtain ⟨ascending, -, -, same, answers⟩ :=
    (built_set_canonical scattered).2 gathered built
  have turned : scattered.reverse.Perm scattered := List.reverse_perm _
  exact ⟨built, turned, same _ turned, ascending, answers _⟩

end Quorum.ValidatorSet
