/-
In a set built from a list every validator is found.

Looking up halves the window in which an address may be. Which half is kept is
told by one comparison, and that is right where addresses ascend. A set built
from a list is sorted by address and names nobody twice, so its addresses ascend
strictly (`ascending_of_ofList?`), and the window always holds the validator
looked for, until it holds nobody else (`narrow_eq`).
-/
import Quorum.Proofs.Validators.Weight

namespace Quorum

-- ============================================================== comparing

instance : Std.TransOrd Address where
  eq_swap {a b} := Std.OrientedCmp.eq_swap (a := a.bytes) (b := b.bytes)
  isLE_trans {a b c} :=
    Std.TransCmp.isLE_trans (a := a.bytes) (b := b.bytes) (c := c.bytes)

/-- Only an address itself compares as equal to it. -/
theorem Address.eq_of_compare {a b : Address} (same : compare a b = .eq) :
    a = b := by
  have bytes : a.bytes = b.bytes :=
    Std.LawfulEqCmp.eq_of_compare (a := a.bytes) (b := b.bytes) same
  cases a with
  | mk octets =>
    cases octets
    cases b with
    | mk octets =>
      cases octets
      cases bytes
      rfl

namespace ValidatorSet

variable {vs : List Validator} {u v : Validator}

/-- Of two different addresses one comes before the other. -/
theorem lt_of_addressLE (before : addressLE u v = true)
    (apart : u.address ≠ v.address) : compare u.address v.address = .lt := by
  cases order : compare u.address v.address with
  | lt => rfl
  | eq => exact absurd (Address.eq_of_compare order) apart
  | gt =>
    unfold addressLE at before
    rw [order] at before
    cases before

theorem addressLE_of_not (after : ¬addressLE u v = true) :
    addressLE v u = true := by
  unfold addressLE at after ⊢
  rw [Std.OrientedOrd.eq_swap (a := v.address) (b := u.address)]
  cases order : compare u.address v.address <;> simp [order] at after ⊢

theorem addressLE_trans {w : Validator} (first : addressLE u v = true)
    (second : addressLE v w = true) : addressLE u w = true := by
  unfold addressLE at first second ⊢
  simp only [bne_iff_ne, ne_eq, ← Ordering.isLE_iff_ne_gt] at first second ⊢
  exact Std.TransCmp.isLE_trans first second

-- ================================================================ sorting

/-- Everybody comes before those further on. -/
def Ascending (vs : List Validator) : Prop :=
  vs.Pairwise fun u v => compare u.address v.address = .lt

theorem insertByAddress_sorted (v : Validator)
    (sorted : vs.Pairwise fun u v => addressLE u v = true) :
    (insertByAddress v vs).Pairwise fun u v => addressLE u v = true := by
  induction vs with
  | nil => exact List.pairwise_singleton _ _
  | cons u us ih =>
    obtain ⟨first, rest⟩ := List.pairwise_cons.1 sorted
    unfold insertByAddress
    split
    case isTrue before =>
      refine List.pairwise_cons.2 ⟨fun x member => ?_, sorted⟩
      rcases List.mem_cons.1 member with rfl | later
      · exact before
      · exact addressLE_trans before (first x later)
    case isFalse after =>
      refine List.pairwise_cons.2 ⟨fun x member => ?_, ih rest⟩
      rcases List.mem_cons.1 ((insertByAddress_perm v us).mem_iff.1 member)
        with rfl | later
      · exact addressLE_of_not after
      · exact first x later

theorem sortByAddress_sorted (vs : List Validator) :
    (sortByAddress vs).Pairwise fun u v => addressLE u v = true := by
  induction vs with
  | nil => exact .nil
  | cons v vs ih => exact insertByAddress_sorted v ih

/-- The validators of a set built from a list ascend. -/
theorem ascending_of_ofList? {s : ValidatorSet} (built : ofList? vs = .ok s) :
    Ascending s.members := by
  have distinct := (ofList?_spec built).1
  have sorted : s.members.Pairwise fun u v => addressLE u v = true := by
    rw [(ofList?_eq_ok_iff.1 built).2.2.2]
    exact sortByAddress_sorted vs
  refine (sorted.and (List.pairwise_map.1 distinct)).imp fun both => ?_
  exact lt_of_addressLE both.1 both.2

-- ================================================================ halving

/-- Where addresses ascend, a comparison tells on which side a place is. -/
theorem Ascending.lt_iff (ascending : Ascending vs) {here there : Nat}
    (found : vs[here]? = some u) (found' : vs[there]? = some v) :
    compare v.address u.address = .gt ↔ here < there := by
  obtain ⟨bound, rfl⟩ := List.getElem?_eq_some_iff.1 found
  obtain ⟨bound', rfl⟩ := List.getElem?_eq_some_iff.1 found'
  have order := List.pairwise_iff_getElem.1 ascending
  constructor
  · intro after
    by_contra notBefore
    rcases Nat.lt_or_eq_of_le (Nat.not_lt.1 notBefore) with later | same
    · cases (order there here bound' bound later).symm.trans after
    · subst same
      cases Std.ReflCmp.compare_self.symm.trans after
  · intro before
    exact Std.OrientedCmp.gt_iff_lt.2 (order here there bound bound' before)

/-- The window is narrowed to the validator looked for, if it was in it. -/
theorem narrow_eq (ascending : Ascending vs) {index : Nat}
    (here : vs[index]? = some v) (fuel base size : Nat) (above : base ≤ index)
    (below : index < base + size) (enough : size ≤ fuel + 1) :
    narrow vs v.address fuel base size = index := by
  induction fuel generalizing base size with
  | zero =>
    unfold narrow
    omega
  | succ fuel ih =>
    unfold narrow
    split
    case isTrue => omega
    case isFalse large =>
      dsimp only
      obtain ⟨within, -⟩ := List.getElem?_eq_some_iff.1 here
      -- a middle beyond the end is beyond the index; else its order says on which side it is
      cases found : vs[base + size / 2]? with
      | none =>
        have outside := List.getElem?_eq_none_iff.1 found
        dsimp only
        exact ih _ _ above (by omega) (by omega)
      | some middle =>
        have side := ascending.lt_iff here found
        dsimp only
        by_cases after : compare middle.address v.address = .gt
        · have before := side.1 after
          rw [if_pos (by simpa using after)]
          exact ih _ _ above (by omega) (by omega)
        · have notBefore := mt side.2 after
          rw [if_neg (by simpa using after)]
          exact ih _ _ (by omega) (by omega) (by omega)

-- ================================================================ looking up

variable {s : ValidatorSet}

/-- In a set built from a list every place is found by its address. -/
theorem indexOf?_of_get? {index : Nat} (built : ofList? vs = .ok s)
    (here : s.get? index = some v) : s.indexOf? v.address = some index := by
  obtain ⟨bound, -⟩ := List.getElem?_eq_some_iff.1 here
  have narrowed := narrow_eq (ascending_of_ofList? built) here s.size 0 s.size
    (Nat.zero_le _) (by simpa [size] using bound) (Nat.le_succ _)
  unfold indexOf?
  dsimp only
  rw [narrowed, here]
  simp

/-- Whoever is in a set built from a list is found, with the power it has. -/
theorem powerOf?_of_mem (built : ofList? vs = .ok s) (member : v ∈ s.members) :
    s.powerOf? v.address = some v.power := by
  obtain ⟨index, here⟩ := List.mem_iff_getElem?.1 member
  have here : s.get? index = some v := here
  rw [powerOf?_eq_map, indexOf?_of_get? built here, Option.bind_some, here]
  rfl

end ValidatorSet

end Quorum
