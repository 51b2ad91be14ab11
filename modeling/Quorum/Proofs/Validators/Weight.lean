/-
The weight of a part of the validators, and why two majorities meet.

Powers travel as words and are added with saturation. Weights are the
same powers added as numbers, of those validators that a test picks out.
In a set built from a list the weight of everybody is the total, so two
parts of more than two thirds each have more than a third in common, and
some of that is outside any part of less than a third
(`exists_common`).
-/
import Mathlib
import Quorum.Validators.Lookup
import Quorum.Proofs.Validators.Threshold

namespace Quorum

-- =============================================================== sums

/-- Powers added one after the other, with saturation. -/
def satSum (powers : List Power) : Power := powers.foldl satAdd 0

/-- The last power is added last. -/
theorem satSum_append_singleton (powers : List Power) (power : Power) :
    satSum (powers ++ [power]) = satAdd (satSum powers) power :=
  List.foldl_append

/-- A saturating sum is the sum, or the largest word where that is less. -/
theorem toNat_satSum (powers : List Power) :
    (satSum powers).toNat
      = min (powers.map (·.toNat)).sum (UInt64.size - 1) := by
  have step : ∀ (powers : List Power) (start : Power),
      (powers.foldl satAdd start).toNat
        = min (start.toNat + (powers.map (·.toNat)).sum)
          (UInt64.size - 1) := by
    intro powers
    induction powers with
    | nil =>
      intro start
      exact (Nat.min_eq_left (Nat.le_sub_one_of_lt start.toNat_lt)).symm
    | cons power powers ih =>
      intro start
      have first := toNat_satAdd start power
      rw [List.foldl_cons, ih, List.map_cons, List.sum_cons]
      omega
  simpa [satSum] using step powers 0

/-- Saturation only ever makes a sum smaller. -/
theorem toNat_satSum_le (powers : List Power) :
    (satSum powers).toNat ≤ (powers.map (·.toNat)).sum :=
  toNat_satSum powers ▸ Nat.min_le_left _ _

/-- A part of the summands gives no larger a sum. -/
theorem toNat_satSum_le_of_sublist {part powers : List Power}
    (h : part.Sublist powers) :
    (satSum part).toNat ≤ (satSum powers).toNat := by
  have sums : (part.map (·.toNat)).sum ≤ (powers.map (·.toNat)).sum :=
    (h.map _).sum_le_sum fun _ _ => Nat.zero_le _
  rw [toNat_satSum, toNat_satSum]
  omega

-- ============================================================= lookup

/-- Where no key is there twice, a search for a key finds whoever has it. -/
theorem find?_key_eq_some_iff {α κ : Type} [BEq κ] [LawfulBEq κ] {key : α → κ}
    {l : List α} (distinct : (l.map key).Nodup) {k : κ} {a : α} :
    l.find? (fun b => key b == k) = some a ↔ a ∈ l ∧ key a = k := by
  constructor
  · intro found
    exact ⟨List.mem_of_find?_eq_some found, by simpa using List.find?_some found⟩
  · rintro ⟨member, rfl⟩
    obtain ⟨b, found⟩ := Option.isSome_iff_exists.1
      (List.find?_isSome (p := fun b => key b == key a) |>.2
        ⟨a, member, beq_self_eq_true _⟩)
    have named : key b = key a := by simpa using List.find?_some found
    rw [found, List.inj_on_of_nodup_map distinct (List.mem_of_find?_eq_some found)
      member named]

namespace ValidatorSet

/-- Whatever the set, an address is found at no place but one of its own. -/
theorem get?_of_indexOf? {s : ValidatorSet} {address : Address} {index : Nat}
    (found : s.indexOf? address = some index) :
    ∃ v, s.get? index = some v ∧ v.address = address := by
  unfold indexOf? at found
  dsimp only at found
  split at found
  case h_1 v here =>
    split at found
    case isTrue same =>
      cases found
      exact ⟨v, here, beq_iff_eq.1 same⟩
    case isFalse => cases found
  case h_2 => cases found

/-- A power is that of the validator at the place of the address. -/
theorem powerOf?_eq_map (s : ValidatorSet) (address : Address) :
    s.powerOf? address
      = ((s.indexOf? address).bind s.get?).map (·.power) := by
  unfold powerOf?
  cases s.indexOf? address <;> rfl

/-- A power that is found is that of a validator in the set. -/
theorem mem_of_powerOf? {s : ValidatorSet} {address : Address} {power : Power}
    (h : s.powerOf? address = some power) : ⟨address, power⟩ ∈ s.members := by
  rw [powerOf?_eq_map] at h
  obtain ⟨v, there, rfl⟩ := Option.map_eq_some_iff.1 h
  obtain ⟨index, found, here⟩ := Option.bind_eq_some_iff.1 there
  obtain ⟨u, here', rfl⟩ := get?_of_indexOf? found
  cases here.symm.trans here'
  exact List.mem_of_getElem? here

/-- Whoever is in the set has a power in it. -/
theorem powerOf?_isSome_of_contains {s : ValidatorSet} {address : Address}
    (h : s.contains address = true) : (s.powerOf? address).isSome = true := by
  obtain ⟨index, found⟩ := Option.isSome_iff_exists.1 h
  obtain ⟨v, here, -⟩ := get?_of_indexOf? found
  rw [powerOf?_eq_map, found, Option.bind_some, here]
  rfl

theorem contains_of_powerOf? {s : ValidatorSet} {address : Address}
    {power : Power} (h : s.powerOf? address = some power) :
    s.contains address = true := by
  unfold powerOf? at h
  unfold contains
  cases found : s.indexOf? address with
  | none =>
    rw [found] at h
    cases h
  | some index => rfl

-- ======================================================= building a set

theorem insertByAddress_perm (v : Validator) (vs : List Validator) :
    (insertByAddress v vs).Perm (v :: vs) := by
  induction vs with
  | nil => exact .refl _
  | cons u us ih =>
    unfold insertByAddress
    split
    · exact .refl _
    · exact (ih.cons u).trans (.swap v u us)

theorem sortByAddress_perm (vs : List Validator) :
    (sortByAddress vs).Perm vs := by
  induction vs with
  | nil => exact .refl _
  | cons v vs ih => exact (insertByAddress_perm v _).trans (ih.cons v)

/-- No address is reported exactly where the addresses are distinct from each
other and from those seen before. -/
theorem repeated?_eq_none_iff {seen : List Address} {vs : List Validator} :
    repeated? seen vs = none
      ↔ (vs.map (·.address)).Nodup ∧ ∀ v ∈ vs, v.address ∉ seen := by
  induction vs generalizing seen with
  | nil => exact iff_of_true rfl ⟨List.nodup_nil, nofun⟩
  | cons v vs ih =>
    unfold repeated?
    rw [List.map_cons, List.nodup_cons, List.forall_mem_cons]
    split
    case isTrue old =>
      exact iff_of_false nofun fun ⟨_, unseen, _⟩ => unseen (by simpa using old)
    case isFalse unseen =>
      -- the others see the first one as well as what was seen before
      rw [ih]
      constructor
      · rintro ⟨distinct, apart⟩
        refine ⟨⟨fun again => ?_, distinct⟩, by simpa using unseen, fun u member old =>
          apart u member (List.mem_cons_of_mem _ old)⟩
        obtain ⟨u, member, same⟩ := List.mem_map.1 again
        exact apart u member (List.mem_cons.2 (Or.inl same))
      · rintro ⟨⟨first, distinct⟩, -, apart⟩
        refine ⟨distinct, fun u member old => ?_⟩
        rcases List.mem_cons.1 old with same | old
        · exact first (List.mem_map.2 ⟨u, member, same⟩)
        · exact apart u member old

theorem foldl_power (vs : List Validator) (start : Nat) :
    vs.foldl (fun acc v => acc + v.power.toNat) start
      = start + (vs.map (·.power.toNat)).sum := by
  induction vs generalizing start with
  | nil => rfl
  | cons v vs ih =>
    rw [List.foldl_cons, ih, List.map_cons, List.sum_cons, Nat.add_assoc]

/-- The total is the sum of the powers, where that fits its word. -/
theorem totalPower?_eq_some_iff {vs : List Validator} {total : Power} :
    totalPower? vs = some total
      ↔ total.toNat = (vs.map (·.power.toNat)).sum := by
  unfold totalPower?
  dsimp only
  rw [foldl_power, Nat.zero_add]
  split
  case isTrue fits =>
    rw [Option.some.injEq, ← UInt64.toNat_inj, UInt64.toNat_ofNat',
      Nat.mod_eq_of_lt fits]
    exact eq_comm
  case isFalse large =>
    refine ⟨nofun, fun same => absurd ?_ large⟩
    rw [← same]
    exact total.toNat_lt

/-- What is asked of a list of validators, and the set that is made of it. -/
theorem ofList?_eq_ok_iff {vs : List Validator} {s : ValidatorSet} :
    ofList? vs = .ok s
      ↔ (vs.map (·.address)).Nodup
        ∧ s.total.toNat = (vs.map (·.power.toNat)).sum ∧ s.total ≠ 0
        ∧ s.members = sortByAddress vs := by
  unfold ofList?
  cases again : repeated? [] vs with
  | some address =>
    refine ⟨nofun, fun ⟨distinct, _⟩ => ?_⟩
    have none := repeated?_eq_none_iff.2
      ⟨distinct, fun v _ => List.not_mem_nil (a := v.address)⟩
    cases again.symm.trans none
  | none =>
    have distinct := (repeated?_eq_none_iff.1 again).1
    cases summed : totalPower? vs with
    | none =>
      refine ⟨nofun, fun ⟨_, same, _⟩ => ?_⟩
      cases summed.symm.trans (totalPower?_eq_some_iff.2 same)
    | some total =>
      have same := totalPower?_eq_some_iff.1 summed
      dsimp only
      constructor
      · intro built
        split at built
        case isTrue => cases built
        case isFalse positive =>
          cases built
          exact ⟨distinct, same, positive, rfl⟩
      · rintro ⟨-, same', positive, members⟩
        have total' : total = s.total := UInt64.toNat_inj.1 (same.trans same'.symm)
        rw [if_neg (total' ▸ positive), total', ← members]

/-- The members are those that were given. -/
theorem members_perm {vs : List Validator} {s : ValidatorSet}
    (built : ofList? vs = .ok s) : s.members.Perm vs := by
  rw [(ofList?_eq_ok_iff.1 built).2.2.2]
  exact sortByAddress_perm vs

/-- A set built from a list names nobody twice, and its total is the sum
of its powers. -/
theorem ofList?_spec {vs : List Validator} {s : ValidatorSet}
    (h : ofList? vs = .ok s) :
    (s.members.map (·.address)).Nodup
      ∧ s.total.toNat = (s.members.map (·.power.toNat)).sum := by
  obtain ⟨distinct, total, -⟩ := ofList?_eq_ok_iff.1 h
  have perm := members_perm h
  exact ⟨(perm.map _).nodup_iff.2 distinct, total.trans (perm.map _).sum_eq.symm⟩

-- ============================================================= weights

/-- The powers of the validators that a test picks out, added up. -/
def weight (s : ValidatorSet) (p : Address → Bool) : Nat :=
  (s.members.map fun v => if p v.address then v.power.toNat else 0).sum

/-- More than two thirds by weight are so by powers added as words, too: a sum
that stops at the largest word is more than two thirds of any word. -/
theorem exceedsTwoThirds_of_weight (s : ValidatorSet) {p : Address → Bool}
    (h : 2 * s.total.toNat < 3 * s.weight p) :
    s.exceedsTwoThirds (satSum (s.members.map fun v =>
      if p v.address then v.power else 0)) = true := by
  have sum : ((s.members.map fun v =>
      if p v.address then v.power else 0).map (·.toNat)).sum = s.weight p := by
    unfold weight
    rw [List.map_map]
    refine congrArg List.sum (List.map_congr_left fun v _ => ?_)
    show UInt64.toNat (if p v.address then v.power else 0) = _
    split <;> rfl
  have total : s.total.toNat < UInt64.size := s.total.toNat_lt
  have large : 1 < UInt64.size := by decide
  rw [exceedsTwoThirds_iff, toNat_satSum, sum]
  omega

/-- A part of a part weighs no more. -/
theorem weight_le_of_imp (s : ValidatorSet) {p q : Address → Bool}
    (h : ∀ v ∈ s.members, p v.address = true → q v.address = true) :
    s.weight p ≤ s.weight q := by
  refine List.sum_le_sum fun v hv => ?_
  cases hp : p v.address with
  | false => exact Nat.zero_le _
  | true => rw [h v hv hp]

/-- No part weighs more than all. -/
theorem weight_le_total (s : ValidatorSet)
    (total : s.total.toNat = (s.members.map (·.power.toNat)).sum)
    (p : Address → Bool) : s.weight p ≤ s.total.toNat := by
  rw [total]
  refine List.sum_le_sum fun v _ => ?_
  split
  · exact Nat.le_refl _
  · exact Nat.zero_le _

/-- What two parts have in common is what they have together beyond all. -/
theorem weight_add_le (s : ValidatorSet) (p q : Address → Bool) :
    s.weight p + s.weight q
      ≤ (s.members.map (·.power.toNat)).sum + s.weight fun a => p a && q a := by
  unfold weight
  rw [← List.sum_map_add, ← List.sum_map_add]
  refine List.sum_le_sum fun v _ => ?_
  cases hp : p v.address <;> cases hq : q v.address <;> simp [hp, hq]

/-- Somebody outside a part is in any part that weighs more. -/
theorem exists_outside (s : ValidatorSet) {p q : Address → Bool}
    (h : s.weight q < s.weight p) :
    ∃ v ∈ s.members, p v.address = true ∧ q v.address = false := by
  by_contra none_
  refine absurd h (Nat.not_lt.2 (s.weight_le_of_imp fun v hv hp => ?_))
  cases hq : q v.address with
  | true => rfl
  | false => exact absurd ⟨v, hv, hp, hq⟩ none_

/-- Two parts of more than two thirds of the total have a validator in
common that is not in a given part of less than a third. -/
theorem exists_common (s : ValidatorSet)
    (total : s.total.toNat = (s.members.map (·.power.toNat)).sum)
    {p q few : Address → Bool} (hp : 2 * s.total.toNat < 3 * s.weight p)
    (hq : 2 * s.total.toNat < 3 * s.weight q)
    (hfew : 3 * s.weight few < s.total.toNat) :
    ∃ v ∈ s.members, p v.address = true ∧ q v.address = true
      ∧ few v.address = false := by
  have shared := s.weight_add_le p q
  rw [← total] at shared
  have more : s.weight few < s.weight fun a => p a && q a := by omega
  obtain ⟨v, hv, both, outside⟩ := s.exists_outside more
  rw [Bool.and_eq_true] at both
  exact ⟨v, hv, both.1, both.2, outside⟩

/-- Two parts of more than two thirds of the total have a validator in common. -/
theorem exists_both (s : ValidatorSet)
    (total : s.total.toNat = (s.members.map (·.power.toNat)).sum)
    {p q : Address → Bool} (hp : 2 * s.total.toNat < 3 * s.weight p)
    (hq : 2 * s.total.toNat < 3 * s.weight q) :
    ∃ v ∈ s.members, p v.address = true ∧ q v.address = true := by
  have none_ : s.weight (fun _ => false) = 0 := by simp [weight]
  have part := s.weight_le_total total p
  have nobody : 3 * s.weight (fun _ => false) < s.total.toNat := by omega
  obtain ⟨v, member, one, other, -⟩ := s.exists_common total hp hq nobody
  exact ⟨v, member, one, other⟩

/-- Voters that are distinct validators of the set, each with its power
in it, weigh as much as their powers say. -/
theorem sum_power_le_weight (s : ValidatorSet) {p : Address → Bool}
    {voters : List Validator} (distinct : (voters.map (·.address)).Nodup)
    (known : ∀ v ∈ voters, v ∈ s.members)
    (picked : ∀ v ∈ voters, p v.address = true) :
    (voters.map (·.power.toNat)).sum ≤ s.weight p := by
  obtain ⟨part, perm, sub⟩ :=
    List.Nodup.subperm (List.Nodup.of_map _ distinct) known
  have same : voters.map (fun v => if p v.address then v.power.toNat else 0)
      = voters.map (·.power.toNat) :=
    List.map_congr_left fun v hv => if_pos (picked v hv)
  rw [← same, ← (perm.map _).sum_eq]
  exact (sub.map _).sum_le_sum fun _ _ => Nat.zero_le _

/-- Validators that are all among some voters weigh no more than these. -/
theorem weight_le_sum_power (s : ValidatorSet) {p : Address → Bool}
    {voters : List Validator} (distinct : (s.members.map (·.address)).Nodup)
    (found : ∀ v ∈ s.members, p v.address = true → v ∈ voters) :
    s.weight p ≤ (voters.map (·.power.toNat)).sum := by
  have picked : s.weight p
      = ((s.members.filter fun v => p v.address).map (·.power.toNat)).sum := by
    unfold weight
    induction s.members with
    | nil => rfl
    | cons v vs ih =>
      rw [List.map_cons, List.sum_cons, ih, List.filter_cons]
      split <;> simp
  have within : (s.members.filter fun v => p v.address) ⊆ voters := by
    intro v member
    obtain ⟨known, chosen⟩ := List.mem_filter.1 member
    exact found v known chosen
  obtain ⟨part, perm, sub⟩ :=
    List.Nodup.subperm ((List.Nodup.of_map _ distinct).filter _) within
  rw [picked, ← (perm.map _).sum_eq]
  exact (sub.map _).sum_le_sum fun _ _ => Nat.zero_le _

end ValidatorSet

end Quorum
