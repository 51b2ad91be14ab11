/-
No two correct validators decide differently.

# The argument

More than two thirds of the power backs a vote (`Committee.Backed`) when
the correct validators that cast it and the faulty ones, who may say
anything, weigh that much together. Majorities that a correct machine
counted are backed, and so are certificates that pass their check. Two
such majorities share a correct validator, so what one of them says about
that validator's life meets what the other says.

Let precommits for a block be backed in some round. Whoever precommitted
had locked the block, so prevotes for it were backed in that round, and
any other backed prevotes of the round are for the same block. For a later
round, take a correct validator that is in the majority of precommits and
in the later majority of prevotes as well. If that one is for another
block, the validator prevoted past its lock, so it saw a majority of
prevotes for the other block in a round in between
(`Reachable.disciplined`): by induction there is none. Hence prevotes for
no other block are ever backed from that round on, and without them no
precommits are.
-/
import Quorum.Proofs.Agreement.Fleet
import Quorum.Proofs.Machine.Plain
import Quorum.Proofs.Chain.Certificate

namespace Quorum.Committee

-- ================================================================ backing

section

variable (c : Committee) (fleet : Fleet)

/-- Who may be said to have cast a vote: the faulty, and whoever did. -/
def Backs (kind : VoteKind) (round : Round) (hash : BlockHash)
    (address : Address) : Bool :=
  c.faulty address || (fleet address).ballots.any fun ballot =>
    ballot.kind == kind && ballot.round == round && ballot.hash == hash

/-- More than two thirds of the power may be said to have cast a vote. -/
def Backed (kind : VoteKind) (round : Round) (hash : BlockHash) : Prop :=
  2 * c.scope.validators.total.toNat
    < 3 * c.scope.validators.weight (c.Backs fleet kind round hash)

end

variable {c : Committee} {fleet : Fleet}

/-- A correct validator that backs a vote has cast it. -/
theorem cast_of_backs {kind : VoteKind} {round : Round} {hash : BlockHash}
    {address : Address} (backs : c.Backs fleet kind round hash address = true)
    (correct : c.faulty address = false) :
    ∃ ballot ∈ (fleet address).ballots,
      ballot.kind = kind ∧ ballot.round = round ∧ ballot.hash = hash := by
  unfold Backs at backs
  rw [correct, Bool.false_or, List.any_eq_true] at backs
  obtain ⟨ballot, cast, same⟩ := backs
  simp only [Bool.and_eq_true, beq_iff_eq] at same
  exact ⟨ballot, cast, same.1.1, same.1.2, same.2⟩

/-- Whoever is correct and cast a vote, or is faulty, backs it. -/
theorem backs_of_cast {address : Address} {ballot : Ballot}
    (cast : c.faulty address = false → ballot ∈ (fleet address).ballots) :
    c.Backs fleet ballot.kind ballot.round ballot.hash address = true := by
  unfold Backs
  cases faulty : c.faulty address with
  | true => rfl
  | false =>
    rw [Bool.false_or, List.any_eq_true]
    exact ⟨ballot, cast faulty, by simp⟩

/-- The total is the sum of the powers, as the set was built. -/
theorem total_eq (c : Committee) : c.scope.validators.total.toNat
    = (c.scope.validators.members.map (·.power.toNat)).sum :=
  (ValidatorSet.ofList?_spec c.built).2

/-- Some correct validator has cast what is backed. -/
theorem Backed.exists_cast {kind : VoteKind} {round : Round} {hash : BlockHash}
    (backed : c.Backed fleet kind round hash) :
    ∃ address, c.Correct address ∧ ∃ ballot ∈ (fleet address).ballots,
      ballot.kind = kind ∧ ballot.round = round ∧ ballot.hash = hash := by
  have few := c.few
  have more : c.scope.validators.weight c.faulty
      < c.scope.validators.weight (c.Backs fleet kind round hash) := by
    unfold Backed at backed
    omega
  obtain ⟨v, member, backs, correct⟩ := c.scope.validators.exists_outside more
  exact ⟨v.address, ⟨List.mem_map_of_mem member, correct⟩,
    cast_of_backs backs correct⟩

/-- Some correct validator has cast both of two votes that are backed. -/
theorem Backed.exists_cast_both {kind kind' : VoteKind} {round round' : Round}
    {hash hash' : BlockHash} (backed : c.Backed fleet kind round hash)
    (backed' : c.Backed fleet kind' round' hash') :
    ∃ address, (∃ ballot ∈ (fleet address).ballots,
        ballot.kind = kind ∧ ballot.round = round ∧ ballot.hash = hash)
      ∧ ∃ ballot ∈ (fleet address).ballots,
        ballot.kind = kind' ∧ ballot.round = round' ∧ ballot.hash = hash' := by
  obtain ⟨v, -, backs, backs', correct⟩ :=
    c.scope.validators.exists_common c.total_eq backed backed' c.few
  exact ⟨v.address, cast_of_backs backs correct, cast_of_backs backs' correct⟩

variable [Crypto]

/-- A majority that a machine of the fleet counted is backed. -/
theorem Faithful.backed_of_majority (h : Faithful c fleet) {address : Address}
    {kind : VoteKind} {round : Round} {hash : BlockHash}
    (reached : ((fleet address).machine.log.tallyOf? round kind).bind (·.majority)
      = some hash) :
    c.Backed fleet kind round hash := by
  obtain ⟨tally, found, majority⟩ := Option.bind_eq_some_iff.1 reached
  have sound := (h.lives address).log_sound.tallyOf? found
  rw [c.same_scope] at sound
  refine sound.two_thirds_of_majority majority fun vote counted same => ?_
  obtain ⟨given, signed⟩ := sound.heard_of_mem vote counted
  rw [← sound.kind_of_mem vote counted,
    ← sound.round_of_mem vote counted, ← same]
  refine backs_of_cast fun correct => ?_
  have member := List.mem_map_of_mem (f := Validator.address)
    (sound.member_of_mem vote counted)
  exact h.genuine address vote given signed ⟨member, correct⟩

/-- So are a certificate's precommits, if it passes its check. -/
theorem backed_of_check {certificate : Certificate}
    (passed : certificate.check c.scope.validators = .ok ())
    (genuine : ∀ vote ∈ certificate.votes, c.Genuine fleet vote) :
    c.Backed fleet .precommit certificate.round certificate.hash := by
  refine Certificate.two_thirds_of_check passed
    fun vote place commits member => ?_
  rw [← commits.kind, ← commits.round, ← commits.hash]
  exact backs_of_cast fun correct =>
    genuine vote place commits.signed ⟨member, correct⟩

-- ================================================================ safety

/-- Prevotes of one round are backed for one block at most. -/
theorem Faithful.prevoted_unique (h : Faithful c fleet) {round : Round}
    {hash hash' : BlockHash} (backed : c.Backed fleet .prevote round hash)
    (backed' : c.Backed fleet .prevote round hash') : hash = hash' := by
  obtain ⟨address, ⟨ballot, cast, kind, here, voted⟩,
    ballot', cast', kind', here', voted'⟩ := backed.exists_cast_both backed'
  have same := (h.lives address).signsForward.ballot_unique cast cast'
    (here.trans here'.symm) (kind.trans kind'.symm)
  rw [← voted, ← voted', same]

/-- What a correct validator precommitted had its prevotes backed. -/
theorem Faithful.prevoted_of_precommitted (h : Faithful c fleet) {round : Round}
    {hash : BlockHash} (backed : c.Backed fleet .precommit round hash)
    (real : hash ≠ .nil) :
    c.Backed fleet .prevote round hash := by
  obtain ⟨address, -, ballot, cast, kind, rfl, rfl⟩ := backed.exists_cast
  have life := h.lives address
  have locked := life.locksFirst.precommits ballot cast kind real
  have majority := life.disciplined.majority _ _ locked
  rw [Machine.prevoteMajority?_eq] at majority
  exact h.backed_of_majority majority

/-- From the round on in which precommits for a block are backed, prevotes
for no other block are. -/
theorem Faithful.prevoted_after_precommitted (h : Faithful c fleet)
    {round : Round} {hash : BlockHash}
    (committed : c.Backed fleet .precommit round hash) (real : hash ≠ .nil)
    {later : Round} {other : BlockHash} (after : round ≤ later)
    (real' : other ≠ .nil) (backed : c.Backed fleet .prevote later other) :
    other = hash := by
  -- rounds in between are earlier than the later one: the induction is on it
  induction size : later.toNat using Nat.strong_induction_on
    generalizing later other with
  | _ n ih =>
    by_cases same : later = round
    · subst same
      exact h.prevoted_unique backed (h.prevoted_of_precommitted committed real)
    · by_contra differs
      -- somebody correct precommitted one block and later prevoted the other, which takes a
      -- majority in between
      obtain ⟨address, ⟨commit, cast, kind, here, voted⟩,
        vote, cast', kind', here', voted'⟩ := committed.exists_cast_both backed
      subst here voted here' voted'
      have life := h.lives address
      have locked := life.locksFirst.precommits commit cast kind real
      have past : commit.round < vote.round := by grind
      obtain ⟨between, since, before, majority⟩ :=
        life.disciplined.excused _ _ locked vote cast' kind' past real' differs
      rw [Machine.prevoteMajority?_eq] at majority
      have earlier : between.toNat < n := size ▸ UInt32.lt_iff_toNat_lt.1 before
      exact differs (ih between.toNat earlier (UInt32.le_of_lt since) real'
        (h.backed_of_majority majority) rfl)

/-- Precommits are backed for one block at most, in whatever rounds. -/
theorem Faithful.precommitted_unique (h : Faithful c fleet)
    {round round' : Round} {hash hash' : BlockHash}
    (backed : c.Backed fleet .precommit round hash)
    (backed' : c.Backed fleet .precommit round' hash') (real : hash ≠ .nil)
    (real' : hash' ≠ .nil) : hash = hash' := by
  rcases UInt32.le_total round round' with before | after
  · exact (h.prevoted_after_precommitted backed real before real'
      (h.prevoted_of_precommitted backed' real')).symm
  · exact h.prevoted_after_precommitted backed' real' after real
      (h.prevoted_of_precommitted backed real)

/-- What a machine decided had its precommits backed, and is a block. -/
theorem Faithful.precommitted_of_decision (h : Faithful c fleet)
    {address : Address} {d : Pinned}
    (decided : (fleet address).machine.decision = some d) :
    c.Backed fleet .precommit d.round d.hash ∧ d.hash ≠ .nil := by
  obtain ⟨majority, hash_eq, -, proposal, given, block⟩ :=
    (h.lives address).decides decided
  rw [Machine.precommitMajority?_eq] at majority
  refine ⟨h.backed_of_majority majority, ?_⟩
  rw [← hash_eq, ← block]
  exact h.named address proposal given

/-- Agreement: however the inputs of a fleet come about and in whatever
order, no two correct validators hold decisions on different blocks, no two
certificates of different blocks both pass their check, and none passes
that is not of the block decided.

What can come is limited by `Credible`: no vote of a correct validator is
forged, and no block is proposed whose hash is the one that stands for
nothing. The latter is an assumption on the digest, and is needed. Precommits
for nothing would decide such a block, though nobody locked it, and a later
round could decide another. -/
theorem decisions_agree (c : Committee) {fleet : Fleet} (run : c.Runs fleet) :
    (∀ a b d d', c.Correct a → c.Correct b →
        (fleet a).machine.decision = some d →
        (fleet b).machine.decision = some d' →
        d.hash = d'.hash ∧ d.block.hash = d'.block.hash)
      ∧ (∀ first second : Certificate,
        (∀ vote ∈ first.votes, c.Genuine fleet vote) →
        (∀ vote ∈ second.votes, c.Genuine fleet vote) →
        first.check c.scope.validators = .ok () →
        second.check c.scope.validators = .ok () →
        first.hash = second.hash)
      ∧ (∀ a d, ∀ certificate : Certificate, c.Correct a →
        (fleet a).machine.decision = some d →
        (∀ vote ∈ certificate.votes, c.Genuine fleet vote) →
        certificate.check c.scope.validators = .ok () →
        certificate.hash = d.hash) := by
  have h := run.faithful
  refine ⟨fun a b d d' _ _ decided decided' => ?_,
    fun first second genuine genuine' pass pass' => ?_,
    fun a d certificate _ decided genuine pass => ?_⟩
  · obtain ⟨backed, real⟩ := h.precommitted_of_decision decided
    obtain ⟨backed', real'⟩ := h.precommitted_of_decision decided'
    have same := h.precommitted_unique backed backed' real real'
    exact ⟨same, ((h.lives a).decides decided).hash_eq.trans
      (same.trans ((h.lives b).decides decided').hash_eq.symm)⟩
  · exact h.precommitted_unique (backed_of_check pass genuine)
      (backed_of_check pass' genuine')
      (Certificate.hash_ne_nil_of_check pass)
      (Certificate.hash_ne_nil_of_check pass')
  · obtain ⟨backed, real⟩ := h.precommitted_of_decision decided
    exact h.precommitted_unique (backed_of_check pass genuine) backed
      (Certificate.hash_ne_nil_of_check pass) real

end Quorum.Committee

namespace Quorum

open scoped Plain

namespace Plain

/-- Four validators of which the last is faulty. -/
def four : Committee where
  scope := ⟨1, committee⟩
  listed := members
  built := ofList?_members
  faulty a := a == address 4
  few := by decide +kernel
  setup := setup
  same_scope _ := rfl
  own_name _ := rfl

/-- Inputs to one of the four, in order. -/
def turns (byte : UInt8) (inputs : List (World × Input)) :
    List (Address × World × Input) :=
  inputs.map fun input => (address byte, input)

/-- Three validators lock a block in round 0. The first of them sees it
precommitted by the faulty one, the others see that one precommit nothing,
go on to round 1 and decide the block there. -/
def deciding : List (Address × World × Input) :=
  let begins := [(world, .start), offer 2 0 none (block 0)]
  let locks := votes [1, 2, 4] 0 .prevote
    ++ [timer 0 (.precommitWait (block 0).hash)]
  let misses := votes [2, 3] 0 .precommit
    ++ [vote 4 0 .nil .precommit, timer 0 .precommit,
      offer 3 1 (some 0) (block 0)]
  let relocks := votes [2, 3, 4] 1 .prevote
    ++ [timer 1 (.precommitWait (block 0).hash)]
  turns 1 begins ++ turns 2 begins ++ turns 3 begins
    ++ turns 1 locks ++ turns 2 locks ++ turns 3 locks
    ++ turns 1 (votes [1, 2, 4] 0 .precommit) ++ turns 3 misses ++ turns 2 misses
    ++ turns 2 relocks ++ turns 3 relocks
    ++ turns 2 (votes [2, 3, 4] 1 .precommit)

/-- The fleet after all that. -/
def decided : Fleet := four.run four.atRest deciding

end Plain

open Plain in
/-- Decisions and certificates of different rounds agree. -/
theorem decisions_agree_of_decided :
    four.Runs decided
      ∧ (∃ d d', four.Correct (address 1) ∧ four.Correct (address 2)
        ∧ (decided (address 1)).machine.decision = some d
        ∧ (decided (address 2)).machine.decision = some d'
        ∧ d.round = 0 ∧ d'.round = 1
        ∧ d.hash = d'.hash ∧ d.block.hash = d'.block.hash
        ∧ (certificate 1 [2, 3, 4]).hash = d.hash)
      ∧ (∀ vote ∈ (certificate 0 [1, 2, 4]).votes, four.Genuine decided vote)
      ∧ (∀ vote ∈ (certificate 1 [2, 3, 4]).votes, four.Genuine decided vote)
      ∧ (certificate 0 [1, 2, 4]).check committee = .ok ()
      ∧ (certificate 1 [2, 3, 4]).check committee = .ok ()
      ∧ (certificate 0 [1, 2, 4]).hash = (certificate 1 [2, 3, 4]).hash := by
  have run : four.Runs decided := Committee.Runs.rest.run (by decide +kernel)
  have first : four.Correct (address 1) := by decide +kernel
  have second : four.Correct (address 2) := by decide +kernel
  have early : (decided (address 1)).machine.decision
      = some ⟨0, (block 0).hash, block 0⟩ := by
    decide +kernel
  have late : (decided (address 2)).machine.decision
      = some ⟨1, (block 0).hash, block 0⟩ := by
    decide +kernel
  have genuine : ∀ vote ∈ (certificate 0 [1, 2, 4]).votes,
      four.Genuine decided vote := by
    decide +kernel
  have genuine' : ∀ vote ∈ (certificate 1 [2, 3, 4]).votes,
      four.Genuine decided vote := by
    decide +kernel
  have pass : (certificate 0 [1, 2, 4]).check committee = .ok () := rfl
  have pass' : (certificate 1 [2, 3, 4]).check committee = .ok () := rfl
  obtain ⟨decisions, certificates, both⟩ := Committee.decisions_agree four run
  obtain ⟨hashes, blocks⟩ := decisions _ _ _ _ first second early late
  exact ⟨run, ⟨_, _, first, second, early, late, rfl, rfl, hashes, blocks,
    both _ _ _ first early genuine' pass'⟩, genuine, genuine', pass, pass',
    certificates _ _ genuine genuine' pass pass'⟩

end Quorum
