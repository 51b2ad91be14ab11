/-
What is decided does not depend on the order in which it arrives.

As soon as the start, the proposal and the votes that `Orderly` asks for are
there, all that a decision needs is: the machine is started and holds the
proposal (`arrived_after`), the votes in the record make up the majority of
precommits, and since no majority is missed, it was noticed
(`precommitMajority?_of_arrived`). No decision is overdue at any moment
(`timely_after`), so there is one, whichever input came last.
-/
import Quorum.Proofs.Machine.Arrival
import Quorum.Proofs.Machine.Plain

namespace Quorum

section

variable [Crypto] {s : Setup} {w : World} {p : Proposal} {given : List Input}

-- ============================================================ the majority

/-- Once all votes have come, the majority of precommits is there. -/
theorem precommitMajority?_of_arrived {vs : List Validator} {l : Life}
    {admits : Life → Input → Prop} (start : Reachable s admits l)
    (orderly : Orderly s p given)
    (built : ValidatorSet.ofList? vs = .ok s.scope.validators)
    (calm : Calm s given l.machine) (arrived : Arrived s p given l.machine) :
    l.machine.precommitMajority? 0 = some p.body.hash := by
  have distinct := (ValidatorSet.ofList?_spec built).1
  have counted := (calm.sound.getOrFresh 0).tally .precommit _ rfl
  have complete := (start.complete 0).precommits
  generalize tallied : (l.machine.log.getOrFresh 0).precommits = t
    at counted complete
  have voted : ∀ v ∈ s.scope.validators.members,
      castFor s given .precommit p.body.hash v.address = true →
      ∃ vote ∈ t.votes, vote.body.hash = p.body.hash
        ∧ ⟨vote.body.validator, vote.body.power⟩ = v := by
    intro v member cast
    obtain ⟨vote, came, author, kind, voted, stated⟩ := castFor_iff.1 cast
    have real : vote.body.kind ≠ .null := by
      rw [kind]
      decide
    obtain ⟨t', found, other, held, same⟩ :=
      arrived.recorded vote came real (author ▸ stated)
    rw [kind] at found
    have one : t' = t := Option.some.inj (found.symm.trans (congrArg some tallied))
    rw [one] at held
    refine ⟨other, held, ?_, ?_⟩
    · rw [← voted]
      exact orderly.single other vote (counted.heard_of_mem other held).1 came same
        ((counted.kind_of_mem other held).trans kind.symm)
    · have known := counted.member_of_mem other held
      exact List.inj_on_of_nodup_map distinct known member (same.trans author)
  have exceeds := counted.counted.exceedsTwoThirds distinct voted orderly.majority
  obtain ⟨hash, reached⟩ := Option.isSome_iff_exists.1 (complete p.body.hash exceeds)
  rw [← tallied, ← Machine.precommitMajority?_eq_record] at reached
  rw [reached, orderly.majority_eq built calm.sound (Or.inr reached)]

-- ================================================================ the decision

/-- The block that is decided is the one proposed. -/
theorem decision_of_orderly {turns : List (World × Input)}
    (orderly : Orderly s p (turns.map (·.2)))
    (calm : Calm s (turns.map (·.2)) (Life.after s turns).machine) {d : Pinned}
    (named : p.body.block.hash = p.body.hash)
    (decided : (Life.after s turns).machine.decision = some d) :
    d = ⟨0, p.body.hash, p.body.block⟩ := by
  have vetted := vetted_after s turns
  have pinned : d ∈ (Life.after s turns).machine.pins :=
    Machine.mem_pins.2 (Or.inr (Or.inr decided))
  have round := (reachable_after s turns).concluded.placed d decided
  obtain ⟨q, told, block⟩ := vetted.proposed d pinned
  have hash := vetted.hash_eq d pinned
  cases orderly.eq_of_proposal told
  obtain ⟨_, _, _⟩ := d
  dsimp only at round block hash
  rw [calm.round] at round
  rw [← block] at hash
  rw [round, ← block, ← hash, named]

/-- All that was proposed is one block. -/
theorem not_clash_of_orderly {turns : List (World × Input)}
    (orderly : Orderly s p (turns.map (·.2))) : ¬Clash turns := by
  have only : ∀ {block}, Proposed turns block → block = p.body.block := by
    rintro block ⟨q, told, rfl⟩
    rw [orderly.eq_of_proposal told]
  rintro ⟨block, other, one, another, differs, -⟩
  exact differs ((only one).trans (only another).symm)

/-- Given are a start, a new block for the first round by its proposer, which the
world accepts, and votes of that round, of which no validator cast two for
different things, and which are more than two thirds of the precommits for this
block and not more than two thirds of the prevotes for anything else. In whatever
order they are handed to a machine, it has decided this block in the first round
afterwards. -/
theorem decided_in_any_order {vs : List Validator}
    (built : ValidatorSet.ofList? vs = .ok s.scope.validators)
    (opening : Opening s p) (orderly : Orderly s p given)
    (told : .start ∈ given) (offered : .message (.proposal p) ∈ given)
    (accepted : Work.accepts s w p.body.block = true)
    (turns : List (World × Input)) (order : (turns.map (·.2)).Perm given)
    (unchanging : Unchanging w turns) :
    (Life.after s turns).machine.decision
      = some ⟨0, p.body.hash, p.body.block⟩ := by
  have orderly := orderly.perm order
  have placed : p.body.block.height = s.scope.height := by
    unfold Work.accepts at accepted
    rw [Bool.and_eq_true, beq_iff_eq] at accepted
    exact accepted.1
  obtain ⟨calm, arrived⟩ :=
    arrived_after orderly built opening placed turns (List.Subset.refl _)
  have held := arrived.held (order.mem_iff.2 offered)
  have majority := precommitMajority?_of_arrived (reachable_after s turns) orderly
    built calm arrived
  have valid : (Life.after s turns).machine.verdict s w p.body.hash p.body.block
      = true := by
    rw [(judged_after s w turns).verdict_eq unchanging
      (not_clash_of_orderly orderly) held]
    exact accepted
  have timely := timely_after turns unchanging (s := s)
    (arrived.started (order.mem_iff.2 told))
  cases decided : (Life.after s turns).machine.decision with
  | none =>
    rw [calm.round] at timely
    exact absurd majority (timely decided p held valid)
  | some d => rw [decision_of_orderly orderly calm opening.named decided]

end

open scoped Plain

namespace Plain

/-- Three of four validators precommit the empty block, after one of them
prevoted for nothing. -/
def ballots : List Vote :=
  cast 3 0 .nil .prevote
    :: [2, 3, 4].map fun byte => cast byte 0 (block 0).hash .precommit

/-- The second proposes it. -/
def firstOffer : Proposal :=
  Signed.make (Signer.plain (address 2))
    (Offer.ofBlock 0 0 (address 2) none 1 (block 0))

/-- All that the first of them needs. -/
def gathered : List Input :=
  .start :: .message (.proposal firstOffer)
    :: ballots.map fun vote => .message (.vote vote)

theorem mem_ballots {vote : Vote} (came : .message (.vote vote) ∈ gathered) :
    vote ∈ ballots := by
  simpa [gathered] using came

theorem orderly_gathered :
    Orderly (setup (address 1)) firstOffer gathered where
  kinds input came := by
    simp only [gathered, List.mem_cons, List.mem_map] at came
    rcases came with start | offer | ⟨vote, cast, rfl⟩
    · exact Or.inl start
    · exact Or.inr (Or.inl offer)
    · have early : ∀ vote ∈ ballots, vote.body.height = 1 ∧ vote.body.round = 0
          ∧ vote.verify = true := by decide +kernel
      obtain ⟨height, round, signed⟩ := early vote cast
      exact Or.inr (Or.inr ⟨vote, rfl, height, round, signed⟩)
  single vote vote' came came' := by
    have single : ∀ vote ∈ ballots, ∀ vote' ∈ ballots,
        vote.body.validator = vote'.body.validator →
        vote.body.kind = vote'.body.kind → vote.body.hash = vote'.body.hash := by
      decide +kernel
    exact single vote (mem_ballots came) vote' (mem_ballots came')
  majority := by decide +kernel
  unrivalled hash _ := by
    -- whatever is prevoted for, there is one prevote only
    have only : ∀ vote ∈ ballots, vote.body.kind = .prevote →
        vote.body.validator = address 3 := by decide +kernel
    have few : committee.weight (fun a => a == address 3) = 1 := by decide +kernel
    have least : committee.weight (castFor (setup (address 1)) gathered .prevote hash)
        ≤ committee.weight fun a => a == address 3 := by
      refine committee.weight_le_of_imp fun v _ prevoted => ?_
      obtain ⟨vote, came, author, kind, -⟩ := castFor_iff.1 prevoted
      exact beq_iff_eq.2 (author.symm.trans (only vote (mem_ballots came) kind))
    show ¬2 * 4 < 3 * committee.weight _
    omega

end Plain

open Plain in
/-- The last thing the machine is told is to start. -/
theorem decided_in_any_order_of_reversed :
    Opening (setup (address 1)) firstOffer
      ∧ Orderly (setup (address 1)) firstOffer gathered
      ∧ (Life.after (setup (address 1))
        (gathered.reverse.map fun input => (world, input))).machine.decision
        = some ⟨0, (block 0).hash, block 0⟩ := by
  have opening : Opening (setup (address 1)) firstOffer :=
    ⟨rfl, rfl, rfl, by decide +kernel, rfl, by decide +kernel⟩
  have order : ((gathered.reverse.map fun input => (world, input)).map (·.2)).Perm
      gathered := by
    rw [List.map_map]
    exact (List.map_id _).symm ▸ gathered.reverse_perm
  have unchanging :
      Unchanging world (gathered.reverse.map fun input => (world, input)) := by
    intro turn member
    obtain ⟨input, -, rfl⟩ := List.mem_map.1 member
    rfl
  refine ⟨opening, orderly_gathered, ?_⟩
  exact decided_in_any_order ofList?_members opening orderly_gathered
    List.mem_cons_self (List.mem_cons_of_mem _ List.mem_cons_self)
    (by decide +kernel) _ order unchanging

end Quorum
