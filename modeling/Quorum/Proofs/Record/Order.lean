/-
Rounds are kept in order, so what is found last is the latest.

The proof of a lock is looked for from the last round on that is not ahead, and
the first one found is taken. That it is the latest there is rests on the order
of the rounds (`Ordered`): whoever is found last comes after all others. A round
is put where its number belongs, and nothing else is ever done to the list, so
every operation keeps the order.
-/
import Quorum.Proofs.Record.Round

namespace Quorum

namespace HeightLog

variable {h h' : HeightLog} {l m : RoundLog} {round : Round}

-- ================================================================== order

/-- Rounds ascend, and none is there twice. -/
def Ordered (h : HeightLog) : Prop :=
  h.rounds.Pairwise fun l m => l.round < m.round

/-- A round that is put where it belongs is new among the others. -/
theorem mem_of_mem_place {ms : List RoundLog} (member : m ∈ place l ms) :
    m = l ∨ m ∈ ms := by
  induction ms with
  | nil => exact Or.inl (List.mem_singleton.1 member)
  | cons n ms ih =>
    unfold place at member
    split at member
    case isTrue => exact List.mem_cons.1 member
    case isFalse =>
      split at member
      case isTrue =>
        exact (List.mem_cons.1 member).imp_right (List.mem_cons_of_mem n)
      case isFalse =>
        rcases List.mem_cons.1 member with same | further
        · exact Or.inr (List.mem_cons.2 (Or.inl same))
        · exact (ih further).imp_right (List.mem_cons_of_mem n)

/-- Put where its number belongs, a round leaves the others in order. -/
theorem ordered_place {ms : List RoundLog}
    (ordered : ms.Pairwise fun l m => l.round < m.round) :
    (place l ms).Pairwise fun l m => l.round < m.round := by
  induction ms with
  | nil => exact List.pairwise_singleton _ _
  | cons n ms ih =>
    obtain ⟨first, rest⟩ := List.pairwise_cons.1 ordered
    unfold place
    split
    case isTrue before =>
      refine List.pairwise_cons.2 ⟨fun m member => ?_, ordered⟩
      rcases List.mem_cons.1 member with rfl | further
      · exact before
      · exact UInt32.lt_trans before (first m further)
    case isFalse notBefore =>
      split
      case isTrue same =>
        exact List.pairwise_cons.2 ⟨fun m member => same ▸ first m member, rest⟩
      case isFalse other =>
        refine List.pairwise_cons.2 ⟨fun m member => ?_, ih rest⟩
        rcases mem_of_mem_place member with rfl | further
        · exact UInt32.lt_of_le_of_ne (UInt32.not_lt.1 notBefore) (Ne.symm other)
        · exact first m further

/-- One round alone is in order. -/
theorem ordered_start : start.Ordered := List.pairwise_singleton _ _

/-- Storing keeps the order, whether the round is new or not. -/
theorem Ordered.put (ordered : h.Ordered) (l : RoundLog) : (h.put l).Ordered :=
  ordered_place ordered

/-- Opening is storing, or nothing. -/
theorem Ordered.openRound (ordered : h.Ordered) (round : Round) :
    (h.openRound round).Ordered := by
  unfold HeightLog.openRound
  split
  · exact ordered
  · exact ordered.put _

/-- One after the other. -/
theorem Ordered.openRounds (ordered : h.Ordered) (first count : Nat) :
    (h.openRounds first count).Ordered := by
  induction count generalizing h first with
  | zero => exact ordered
  | succ count ih => exact ih (ordered.openRound _) _

/-- The rounds passed over go where their numbers belong. -/
theorem Ordered.setRound (ordered : h.Ordered)
    (moved : h.setRound round = .ok h') : h'.Ordered := by
  obtain ⟨-, rfl⟩ := setRound_eq_ok_iff.1 moved
  exact ordered.openRounds _ _

/-- A charge is not part of the order. -/
theorem Ordered.openFor? (ordered : h.Ordered) {author : Address}
    (opened : h.openFor? round author = some h') : h'.Ordered := by
  rcases openFor?_cases opened with ⟨-, -, rfl⟩ | ⟨-, rfl⟩
  · exact ordered.openRound round
  · exact ordered.openRound round

/-- A vote is counted in a round that is opened and stored again. -/
theorem Ordered.addVote (ordered : h.Ordered) (s : Scope) (vote : Vote) :
    (h.addVote s vote).1.Ordered := by
  cases counting_addVote s h vote with
  | barred _ _ same =>
    rw [same]
    exact ordered
  | uncounted _ opens => exact ordered.openFor? opens
  | kept _ _ _ _ opens => exact ordered.openFor? opens
  | recorded opened t opens _ _ same =>
    rw [same]
    exact (ordered.openFor? opens).put _

-- ================================================================ looking

/-- A round that is there is the one found under its number. -/
theorem Ordered.get?_of_mem (ordered : h.Ordered) (member : l ∈ h.rounds) :
    h.get? l.round = some l := by
  have distinct : (h.rounds.map (·.round)).Nodup :=
    List.pairwise_map.2 (ordered.imp UInt32.ne_of_lt)
  exact (find?_key_eq_some_iff distinct).2 ⟨member, rfl⟩

/-- A hash, which stands for a block, has the majority of prevotes of a round. -/
def Proves (h : HeightLog) (round : Round) (hash : BlockHash) : Prop :=
  (h.get? round).bind (·.prevotes.majority) = some hash ∧ hash ≠ .nil

/-- What a round is looked at for. -/
def proofIn? (l : RoundLog) : Option (Round × BlockHash) :=
  match l.prevotes.majority with
  | some hash => if hash.isNil then none else some (l.round, hash)
  | none => none

/-- The proof of a lock is the first to be found when one looks from the last round
that is not ahead. -/
theorem proofOfLock?_eq (h : HeightLog) :
    h.proofOfLock? = (h.rounds.filter (fun l => l.round ≤ h.round)).reverse.findSome?
      proofIn? := rfl

/-- A round is found to have a proof exactly if a hash that stands for a block has
its majority. -/
theorem proofIn?_iff (ordered : h.Ordered) (member : l ∈ h.rounds)
    {hash : BlockHash} :
    proofIn? l = some (round, hash)
      ↔ round = l.round ∧ h.Proves l.round hash := by
  unfold Proves proofIn?
  rw [ordered.get?_of_mem member]
  show _ ↔ round = l.round ∧ l.prevotes.majority = some hash ∧ hash ≠ .nil
  cases l.prevotes.majority with
  | none => simp
  | some first =>
    dsimp only
    by_cases none_ : first = .nil
    · subst none_
      rw [if_pos (by simp [BlockHash.isNil])]
      constructor
      · nofun
      · rintro ⟨-, same, real⟩
        exact absurd (Option.some.inj same).symm real
    · rw [if_neg (by simpa [BlockHash.isNil] using none_)]
      simp only [Option.some.injEq, Prod.mk.injEq]
      constructor
      · rintro ⟨here, rfl⟩
        exact ⟨here.symm, rfl, none_⟩
      · rintro ⟨here, same, -⟩
        exact ⟨here.symm, same⟩

/-- The proof of a lock is of a round that is not ahead, and no later such round
has one. -/
theorem Ordered.proofOfLock?_latest (ordered : h.Ordered) {hash : BlockHash}
    (found : h.proofOfLock? = some (round, hash)) :
    round ≤ h.round ∧ h.Proves round hash
      ∧ ∀ later, round < later → later ≤ h.round → ∀ other,
        ¬h.Proves later other := by
  rw [proofOfLock?_eq] at found
  -- what was looked at before the one found is behind it in the order
  obtain ⟨after, l, before, split_, here, none_⟩ :=
    List.findSome?_eq_some_iff.1 found
  have parts : h.rounds.filter (fun l => decide (l.round ≤ h.round))
      = before.reverse ++ l :: after.reverse := by
    rw [← List.reverse_reverse (List.filter _ _), split_]
    simp
  have members : ∀ m, m ∈ h.rounds ∧ m.round ≤ h.round
      ↔ m ∈ before.reverse ++ l :: after.reverse := by
    intro m
    rw [← parts, List.mem_filter, decide_eq_true_iff]
  obtain ⟨member, upTo⟩ := (members l).2 (by simp)
  obtain ⟨rfl, proves⟩ := (proofIn?_iff ordered member).1 here
  refine ⟨upTo, proves, fun later behind reach other proves' => ?_⟩
  obtain ⟨m, stored, majority⟩ := Option.bind_eq_some_iff.1 proves'.1
  have at_ : m.round = later := round_of_get? stored
  subst at_
  have member' := List.mem_of_find?_eq_some stored
  have sorted := ordered.filter fun l => decide (l.round ≤ h.round)
  rw [parts] at sorted
  -- a later round is behind the one found, and was looked at in vain
  rcases List.mem_append.1 ((members m).1 ⟨member', reach⟩) with early | late
  · have early := (List.pairwise_append.1 sorted).2.2 m early l List.mem_cons_self
    exact absurd (UInt32.lt_trans behind early) (UInt32.lt_irrefl _)
  · rcases List.mem_cons.1 late with rfl | late
    · exact absurd behind (UInt32.lt_irrefl _)
    · have looked := none_ m (List.mem_reverse.1 late)
      rw [(proofIn?_iff ordered member').2 ⟨rfl, proves'⟩] at looked
      cases looked

/-- Where a round that is not ahead has a proof, there is a proof of a lock, of
this round or a later one. -/
theorem Ordered.exists_proofOfLock? (ordered : h.Ordered) {hash : BlockHash}
    (reach : round ≤ h.round) (proves : h.Proves round hash) :
    ∃ latest other, h.proofOfLock? = some (latest, other) ∧ round ≤ latest
      ∧ (latest = round → other = hash) := by
  obtain ⟨m, stored, -⟩ := Option.bind_eq_some_iff.1 proves.1
  have at_ : m.round = round := round_of_get? stored
  subst at_
  have member := List.mem_of_find?_eq_some stored
  cases found : h.proofOfLock? with
  | none =>
    rw [proofOfLock?_eq] at found
    have looked := List.findSome?_eq_none_iff.1 found m
      (List.mem_reverse.2 (List.mem_filter.2 ⟨member, decide_eq_true reach⟩))
    rw [(proofIn?_iff ordered member).2 ⟨rfl, proves⟩] at looked
    cases looked
  | some proof =>
    obtain ⟨latest, other⟩ := proof
    obtain ⟨-, majority, none_⟩ := ordered.proofOfLock?_latest found
    refine ⟨latest, other, rfl, ?_, ?_⟩
    · refine UInt32.not_lt.1 fun before => none_ _ before reach hash proves
    · rintro rfl
      exact Option.some.inj (majority.1.symm.trans proves.1)

end HeightLog

end Quorum
