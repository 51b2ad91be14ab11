/-
How two machines fill each other's gaps.

A list of held votes has a flag for every validator in their order, and its
answer goes through the validators in the same order. So both can be read one
validator at a time: flagged is one whose vote for the hash is held here, and
answered is one that is not flagged and whose vote for it is held there
(`Machine.holdings_eq`, `Machine.answer_eq`).

What comes back was checked where it was recorded, and passes the same checks
again. The round could still be closed to its author, but not a near one, and a
near round stays near: rounds are not forgotten, and the current one never goes
back. So a vote of its validator stands once it was handled, whatever else is
handled before and after, and one that says something else is half of a conflict.
-/
import Quorum.Proofs.Machine.Exchanging

namespace Quorum

-- ================================================ statement vocabulary

/-- A round that is there, or not beyond the next one. -/
def Machine.Near (m : Machine) (round : Round) : Prop :=
  (∃ l, m.log.get? round = some l) ∨ round.toNat ≤ m.round.toNat + 1

/-- The vote that a validator is recorded with, if it is for this hash. -/
def HeightLog.voteFor? (h : HeightLog) (round : Round) (hash : BlockHash)
    (kind : VoteKind) (address : Address) : Option Vote :=
  (h.voteOf? round kind address).filter fun vote => vote.body.hash == hash

/-- These are the votes for a hash that are held there and missing here. -/
structure Fills (s : Scope) (here there : HeightLog) (round : Round)
    (hash : BlockHash) (kind : VoteKind) (votes : List Vote) : Prop where
  listed : ∀ vote, vote ∈ votes
    ↔ there.voteFor? round hash kind vote.body.validator = some vote
      ∧ here.voteFor? round hash kind vote.body.validator = none
  order : (votes.map (·.body.validator)).Sublist (s.validators.members.map (·.address))
  once : (votes.map (·.body.validator)).Nodup

/-- Of every validator whose vote for a hash is held there, one is held here too,
or there is evidence against it. -/
def Docket.Level [Crypto] (s : Setup) (d : Docket) (there : HeightLog) (round : Round)
    (hash : BlockHash) (kind : VoteKind) : Prop :=
  ∀ vote, there.voteFor? round hash kind vote.body.validator = some vote →
    ∃ own, d.machine.log.voteOf? round kind vote.body.validator = some own
      ∧ (own.body.hash = hash
        ∨ Convicts s own vote ∧ ∃ time, ⟨own, vote, time⟩ ∈ d.recorded)

-- ============================================================== the flags

/-- The vote of a validator is looked up in the tally of its round and kind. -/
theorem HeightLog.voteOf?_eq (h : HeightLog) (round : Round) (kind : VoteKind)
    (address : Address) :
    h.voteOf? round kind address
      = (h.tallyOf? round kind).bind (·.voteOf? address) := by
  unfold voteOf? tallyOf?
  cases here : h.get? round with
  | some l =>
    rw [getOrFresh_of_get? here]
    rfl
  | none =>
    rw [getOrFresh_of_absent here]
    cases kind with
    | null => rfl
    | prevote => rfl
    | precommit => rfl

/-- It counts here if it is for this hash. -/
theorem HeightLog.voteFor?_eq_some {h : HeightLog} {round : Round} {hash : BlockHash}
    {kind : VoteKind} {address : Address} {vote : Vote} :
    h.voteFor? round hash kind address = some vote
      ↔ h.voteOf? round kind address = some vote ∧ vote.body.hash = hash := by
  unfold voteFor?
  rw [Option.filter_eq_some_iff, beq_iff_eq]

/-- What is found under a validator is its own vote. -/
theorem HeightLog.validator_of_voteFor? {h : HeightLog} {round : Round}
    {hash : BlockHash} {kind : VoteKind} {address : Address} {vote : Vote}
    (held : h.voteFor? round hash kind address = some vote) :
    vote.body.validator = address := by
  obtain ⟨t, -, votes⟩ := Option.bind_eq_some_iff.1 (voteFor?_eq_some.1 held).1
  exact (Tally.voteOf?_spec votes).2

section

variable {s s' : Setup} {m : Machine} {round : Round} {hash : BlockHash}
  {kind : VoteKind}

/-- Flagged are the validators whose vote for the hash is held. -/
theorem Machine.holdings_eq (m : Machine) (w : World) (real : kind ≠ .null) :
    m.holdings s w round hash kind = .ok (signHoldings s w round hash kind
      (s.scope.validators.members.map fun v =>
        (m.log.voteFor? round hash kind v.address).isSome)) := by
  unfold holdings
  rw [if_neg real]
  refine congrArg (fun held => Except.ok (signHoldings s w round hash kind held)) ?_
  unfold HeightLog.voteFor?
  have stored : (m.log.get? round).bind (·.tally? kind) = m.log.tallyOf? round kind := rfl
  simp only [HeightLog.voteOf?_eq, stored]
  cases m.log.tallyOf? round kind with
  | none => rfl
  | some t =>
    refine List.map_congr_left fun v _ => ?_
    dsimp only [Option.bind]
    cases t.voteOf? v.address with
    | none => rfl
    | some vote =>
      dsimp only
      rw [Option.filter_some]
      split
      case isTrue agrees => exact agrees
      case isFalse differs => exact Bool.eq_false_iff.2 differs

/-- Answered are the others, as far as their vote for it is held. -/
theorem Machine.missingVotes_eq (t : Tally) (hash : BlockHash)
    (members : List Validator) (flagged : Validator → Bool) :
    missingVotes t hash members (members.map flagged)
      = (members.filter fun v => !flagged v).filterMap fun v =>
        (t.voteOf? v.address).filter fun vote => vote.body.hash == hash := by
  unfold missingVotes
  dsimp only
  rw [← List.map_prod_left_eq_zip, List.filter_map, List.filterMap_map,
    List.filter_filterMap]
  rfl

/-- The answer goes through the validators that are not flagged. -/
theorem Machine.answer_eq [Crypto] {holdings : Holdings}
    (sound : holdingsRefusal? s holdings = none) {flagged : Validator → Bool}
    (flags : holdings.body.held = s.scope.validators.members.map flagged) :
    m.answer s holdings = .ok ((s.scope.validators.members.filter fun v =>
      !flagged v).filterMap fun v => m.log.voteFor? holdings.body.round
        holdings.body.hash holdings.body.kind v.address) := by
  unfold answer HeightLog.voteFor?
  have stored : (m.log.get? holdings.body.round).bind (·.tally? holdings.body.kind)
      = m.log.tallyOf? holdings.body.round holdings.body.kind := rfl
  rw [sound]
  simp only [HeightLog.voteOf?_eq, stored]
  cases m.log.tallyOf? holdings.body.round holdings.body.kind with
  | none => simp
  | some t =>
    dsimp only [Option.bind]
    rw [flags, missingVotes_eq]

/-- A list that one machine signs is answered by another. -/
theorem Machine.answer_signHoldings [Crypto] (same : s'.scope = s.scope)
    (faithful : s.signer.Faithful) (real : kind ≠ .null) (m : Machine) (w : World)
    (flagged : Validator → Bool) :
    m.answer s' (signHoldings s w round hash kind
        (s.scope.validators.members.map flagged))
      = .ok ((s.scope.validators.members.filter fun v => !flagged v).filterMap
        fun v => m.log.voteFor? round hash kind v.address) := by
  have sound : holdingsRefusal? s' (signHoldings s w round hash kind
      (s.scope.validators.members.map flagged)) = none := by
    refine holdingsRefusal?_eq_none (congrArg Scope.height same.symm) real ?_
      (faithful.verify rfl)
    rw [same]
    exact List.length_map _
  have flags : s.scope.validators.members.map flagged
      = s'.scope.validators.members.map flagged := by rw [same]
  rw [answer_eq sound flags, same]
  rfl

-- ============================================================== the answer

/-- What is found under the names of some validators is in their order. -/
theorem sublist_names (found : Validator → Option Vote)
    (named : ∀ v vote, found v = some vote → vote.body.validator = v.address)
    (members : List Validator) :
    ((members.filterMap found).map (·.body.validator)).Sublist
      (members.map (·.address)) := by
  induction members with
  | nil => exact List.Sublist.refl _
  | cons v members ih =>
    cases here : found v with
    | none =>
      rw [List.filterMap_cons_none here]
      exact ih.cons _
    | some vote =>
      rw [List.filterMap_cons_some here, List.map_cons, List.map_cons,
        named v vote here]
      exact ih.cons_cons _

/-- The votes answered are those that are held there and missing here. -/
theorem fills_answer {vs : List Validator} {scope : Scope}
    (built : ValidatorSet.ofList? vs = .ok scope.validators)
    (here : HeightLog) {there : HeightLog} (thrifty : there.Thrifty scope) :
    Fills scope here there round hash kind
      ((scope.validators.members.filter fun v =>
        !(here.voteFor? round hash kind v.address).isSome).filterMap fun v =>
          there.voteFor? round hash kind v.address) := by
  have order := (sublist_names (fun v => there.voteFor? round hash kind v.address)
    (fun _ _ held => HeightLog.validator_of_voteFor? held) _).trans
    ((List.filter_sublist (p := fun v =>
      !(here.voteFor? round hash kind v.address).isSome)
      (l := scope.validators.members)).map (·.address))
  refine ⟨fun vote => ⟨fun answered => ?_, fun ⟨held, missing⟩ => ?_⟩, order,
    order.nodup (ValidatorSet.ofList?_spec built).1⟩
  · obtain ⟨v, among, held⟩ := List.mem_filterMap.1 answered
    obtain ⟨-, unflagged⟩ := List.mem_filter.1 among
    rw [HeightLog.validator_of_voteFor? held]
    refine ⟨held, ?_⟩
    simpa using unflagged
  · -- whoever is recorded with a vote is in the set
    have power := thrifty.power_of_voteOf? (HeightLog.voteFor?_eq_some.1 held).1
    refine List.mem_filterMap.2 ⟨_, List.mem_filter.2
      ⟨ValidatorSet.mem_of_powerOf? power, ?_⟩, held⟩
    rw [missing]
    rfl

-- ============================================================ near rounds

namespace Docket

variable [Crypto] {d : Docket} {vote : Vote}

/-- A near round stays near, whatever is done. -/
theorem Sound.near_next (sound : d.Sound s) (near : d.machine.Near round)
    (deed : Deed) : (d.next s deed).machine.Near round := by
  cases deed with
  | takeEvidence => exact near
  | handle w input =>
    -- rounds are not lost, and the machine does not go back
    have kept := (d.machine.handle_acts s w input).keeps_machine
      (P := fun m => m.Onward ∧ d.machine.log.Grows m.log
        ∧ d.machine.round ≤ m.round)
      (fun act held => ⟨act.onward held.1, held.2.1.trans act.log_keeps.grows,
        UInt32.le_trans held.2.2 (held.1.round_le act.moves)⟩)
      ⟨sound.onward, .refl _, UInt32.le_refl _⟩
    obtain ⟨-, grows, forward⟩ := kept
    rcases near with ⟨l, here⟩ | next
    · exact Or.inl (grows.exists_get? here)
    · exact Or.inr (next.trans (Nat.succ_le_succ (UInt32.le_iff_toNat_le.1 forward)))

/-- However much is done. -/
theorem Sound.near_run (sound : d.Sound s) (near : d.machine.Near round)
    (deeds : List Deed) : (d.run s deeds).machine.Near round := by
  induction deeds generalizing d with
  | nil => exact near
  | cons deed deeds ih => exact ih (sound.next deed) (sound.near_next near deed)

/-- Once a vote for a near round was handled, one of its validator stands at any
time, and if that is another one there is evidence. -/
theorem Sound.stands_after (sound : d.Sound s) (countable : Vote.Countable s.scope vote)
    (passes : Machine.voteRefusal? s vote = none)
    (near : d.machine.Near vote.body.round) {more : List Deed}
    (handled : ∃ w, .vote w vote ∈ more) :
    ∃ own, (d.run s more).machine.log.standing? vote = some own
      ∧ (own.body.hash = vote.body.hash
        ∨ ∃ time, ⟨own, vote, time⟩ ∈ (d.run s more).recorded) := by
  obtain ⟨w, given⟩ := handled
  obtain ⟨before, rest, rfl⟩ := List.append_of_mem given
  have sound' := sound.run before
  have unspent := (Machine.admission sound'.onward sound'.thrifty w (.vote vote)).near
    (sound.near_run near before)
  obtain ⟨own, stands, agrees⟩ := Machine.stands_of_handle sound'.log countable passes
    (Or.inr unspent)
  rw [run_append]
  have grown := grows_run s ((d.run s before).next s (.vote w vote)) rest
  refine ⟨own, grown.1.voteOf? stands, agrees.imp_right fun evidence => ⟨w.now, ?_⟩⟩
  exact grown.2.subset (List.mem_append_right _ evidence)

/-- Where the votes are handled that fill a gap, nothing is missing any more. -/
theorem Sound.level (sound : d.Sound s) {there : HeightLog} {heard : Vote → Prop}
    {offered : Proposal → Prop} (logged : there.Sound s.scope heard offered)
    (verified : ∀ vote, heard vote → vote.verify = true)
    (thrifty : there.Thrifty s.scope)
    (near : d.machine.Near round) {votes : List Vote}
    (fills : Fills s.scope d.machine.log there round hash kind votes)
    {more : List Deed} (handled : ∀ vote ∈ votes, ∃ w, .vote w vote ∈ more) :
    (d.run s more).Level s there round hash kind := by
  intro vote held
  obtain ⟨recorded, named⟩ := HeightLog.voteFor?_eq_some.1 held
  -- a vote held here already stays; any other one is in the answer, and was handled
  cases known : d.machine.log.voteFor? round hash kind vote.body.validator with
  | some own =>
    obtain ⟨recorded, agrees⟩ := HeightLog.voteFor?_eq_some.1 known
    exact ⟨own, (grows_run s d more).1.voteOf? recorded, Or.inl agrees⟩
  | none =>
    have countable := HeightLog.countable_of_voteOf? logged thrifty recorded
    obtain ⟨heard, -, height, rfl, rfl⟩ := HeightLog.voteOf?_spec logged recorded
    have passes := Machine.voteRefusal?_eq_none height countable.counts (verified vote heard)
    obtain ⟨own, stands, evidence⟩ := sound.stands_after countable passes near
      (handled vote ((fills.listed vote).2 ⟨held, known⟩))
    refine ⟨own, stands, ?_⟩
    rcases evidence with agrees | ⟨time, evidence⟩
    · exact Or.inl (agrees.trans named)
    · exact Or.inr ⟨((sound.run more).evidence _ evidence).1, time, evidence⟩

end Docket

/-- Between any two machines of a height and a set of validators: one makes a list
of the votes it holds for a hash in a round that is near to it, and the other
answers with the votes for it that it holds and that are missing, in the order of
the validators. Whatever else the first one does, once it has handled these, of
every validator whose vote for the hash the other one held it holds such a vote
too, or another one of the same round and kind, with evidence of the two. -/
theorem gaps_filled [Crypto] {s s' : Setup} {vs : List Validator}
    (built : ValidatorSet.ofList? vs = .ok s.scope.validators)
    (same : s'.scope = s.scope) (faithful : s.signer.Faithful)
    (deeds deeds' : List Deed) (w : World) {round : Round} {hash : BlockHash}
    {kind : VoteKind} (real : kind ≠ .null)
    (near : (Docket.after s deeds).machine.Near round) :
    ∃ holdings votes,
      (Docket.after s deeds).machine.holdings s w round hash kind = .ok holdings
        ∧ (Docket.after s' deeds').machine.answer s' holdings = .ok votes
        ∧ Fills s.scope (Docket.after s deeds).machine.log
          (Docket.after s' deeds').machine.log round hash kind votes
        ∧ ∀ more, (∀ vote ∈ votes, ∃ w, .vote w vote ∈ more) →
          (Docket.after s (deeds ++ more)).Level s (Docket.after s' deeds').machine.log
            round hash kind := by
  have sound := Docket.sound_after s deeds
  have sound' := Docket.sound_after s' deeds'
  have logged := sound'.log
  have thrifty := sound'.thrifty
  rw [same] at logged thrifty
  have fills : Fills s.scope (Docket.after s deeds).machine.log
      (Docket.after s' deeds').machine.log round hash kind _ :=
    fills_answer built _ thrifty
  refine ⟨_, _, Machine.holdings_eq _ w real, ?_, fills, fun more handled => ?_⟩
  · exact Machine.answer_signHoldings same faithful real _ w _
  · unfold Docket.after
    rw [Docket.run_append]
    exact sound.level logged (fun _ heard => heard.2) thrifty near fills handled

end

open scoped Plain

namespace Plain

/-- The first of four validators has heard a prevote for nothing and one for the
empty block. -/
def heardDeeds : List Deed :=
  [.handle world .start, .vote world (cast 2 0 .nil .prevote),
    .vote world (cast 3 0 (block 0).hash .prevote)]

/-- The fourth has heard three for the empty block. -/
def seenDeeds : List Deed :=
  .handle world .start :: [2, 3, 4].map fun byte =>
    .vote world (cast byte 0 (block 0).hash .prevote)

/-- What the first is missing comes in the other order, and evidence is taken away
in between. -/
def fillingDeeds : List Deed :=
  [.vote world (cast 4 0 (block 0).hash .prevote), .takeEvidence,
    .vote world (cast 2 0 (block 0).hash .prevote)]

end Plain

open Plain in
/-- Of two votes that are missing one contradicts a vote that is held. -/
theorem gaps_filled_of_contradiction :
    ValidatorSet.ofList? members = .ok (setup (address 1)).scope.validators
      ∧ (setup (address 4)).scope = (setup (address 1)).scope
      ∧ (setup (address 1)).signer.Faithful
      ∧ (Docket.after (setup (address 1)) heardDeeds).machine.Near 0
      ∧ ∃ time, ⟨cast 2 0 .nil .prevote, cast 2 0 (block 0).hash .prevote, time⟩
        ∈ (Docket.after (setup (address 1)) (heardDeeds ++ fillingDeeds)).recorded := by
  have near : (Docket.after (setup (address 1)) heardDeeds).machine.Near 0 :=
    Or.inr (Nat.zero_le _)
  have made : (Docket.after (setup (address 1)) heardDeeds).machine.holdings
      (setup (address 1)) world 0 (block 0).hash .prevote
      = .ok (Machine.signHoldings (setup (address 1)) world 0 (block 0).hash .prevote
        [false, false, true, false]) := by
    decide +kernel
  have answered : (Docket.after (setup (address 4)) seenDeeds).machine.answer
      (setup (address 4)) (Machine.signHoldings (setup (address 1)) world 0
        (block 0).hash .prevote [false, false, true, false])
      = .ok [cast 2 0 (block 0).hash .prevote, cast 4 0 (block 0).hash .prevote] := by
    decide +kernel
  obtain ⟨holdings, votes, made', answered', fills, level⟩ :=
    @gaps_filled _ (setup (address 1)) (setup (address 4)) _ ofList?_members rfl
      (faithful (address 1)) heardDeeds seenDeeds world 0 (block 0).hash .prevote
      (by decide) near
  cases made.symm.trans made'
  cases answered.symm.trans answered'
  have handled : ∀ vote ∈ [cast 2 0 (block 0).hash .prevote,
      cast 4 0 (block 0).hash .prevote], ∃ w, .vote w vote ∈ fillingDeeds := by
    intro vote missing
    refine ⟨world, ?_⟩
    rcases List.mem_pair.1 missing with rfl | rfl
    · exact List.mem_of_mem_getLast? rfl
    · exact List.mem_cons_self
  obtain ⟨held, -⟩ := (fills.listed _).1 List.mem_cons_self
  obtain ⟨own, stands, evidence⟩ := level fillingDeeds handled _ held
  have kept : (Docket.after (setup (address 1)) (heardDeeds ++ fillingDeeds)).machine.log.voteOf?
      0 .prevote (address 2) = some (cast 2 0 .nil .prevote) := by
    decide +kernel
  cases kept.symm.trans stands
  refine ⟨ofList?_members, rfl, faithful (address 1), near, ?_⟩
  -- the vote that is kept is for nothing, so evidence is what is left
  rcases evidence with agrees | ⟨-, evidence⟩
  · exact absurd agrees (Plain.digest_ne_nil _).symm
  · exact evidence

end Quorum
