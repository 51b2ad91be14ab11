/-
Two certificates of one round name who is to blame.

A certificate that passes its check lists the validators of the set, each in its
place (`authors_of_check`). So whatever its votes say of themselves, whatever
null votes fill it up, nobody commits twice in it, and the powers counted are
those of the set. More than two thirds of the power is behind it, then, as the
weight of distinct validators. The committers of two certificates have more than
a third in common, and where the two are of one round and for different blocks
each of them has signed two precommits that contradict each other.
-/
import Quorum.Proofs.Chain.Certificate
import Quorum.Proofs.Machine.Plain

namespace Quorum

-- ======================================================== contradictions

/-- Two votes that no honest validator signs both of. -/
structure Contradicts [Crypto] (a b : Vote) : Prop where
  author : b.body.validator = a.body.validator
  height : b.body.height = a.body.height
  round : b.body.round = a.body.round
  kind : b.body.kind = a.body.kind
  counts : a.body.kind ≠ .null
  apart : a.body.hash ≠ b.body.hash
  signed : a.verify = true
  signed' : b.verify = true

namespace Certificate

variable [Crypto] {c c' : Certificate} {s : ValidatorSet}

-- ============================================================ committers

instance (c : Certificate) (vote : Vote) : Decidable (c.Commits vote) :=
  decidable_of_iff
    (vote.body.kind = .precommit ∧ vote.body.height = c.height
      ∧ vote.body.round = c.round ∧ vote.body.hash = c.hash
      ∧ vote.verify = true)
    ⟨fun h => ⟨h.1, h.2.1, h.2.2.1, h.2.2.2.1, h.2.2.2.2⟩,
      fun h => ⟨h.kind, h.height, h.round, h.hash, h.signed⟩⟩

/-- The votes of a certificate that commit somebody to its block. -/
def commitments (c : Certificate) : List Vote :=
  c.votes.filter fun vote => decide (c.Commits vote)

/-- Whether a certificate holds a vote that commits this validator. -/
def commits (c : Certificate) (address : Address) : Bool :=
  c.commitments.any fun vote => vote.body.validator == address

theorem mem_commitments {vote : Vote} :
    vote ∈ c.commitments ↔ vote ∈ c.votes ∧ c.Commits vote := by
  unfold commitments
  rw [List.mem_filter, decide_eq_true_iff]

theorem commits_iff {address : Address} :
    c.commits address = true
      ↔ ∃ vote ∈ c.votes, c.Commits vote ∧ vote.body.validator = address := by
  unfold commits
  simp only [List.any_eq_true, mem_commitments, beq_iff_eq, and_assoc]

/-- Whoever is committed to two blocks in one round has contradicted itself. -/
theorem exists_contradicts {address : Address} (height : c'.height = c.height)
    (round : c'.round = c.round) (apart : c'.hash ≠ c.hash)
    (one : c.commits address = true) (other : c'.commits address = true) :
    ∃ vote ∈ c.votes, ∃ vote' ∈ c'.votes, vote.body.validator = address
      ∧ Contradicts vote vote' := by
  obtain ⟨vote, member, commits, author⟩ := commits_iff.1 one
  obtain ⟨vote', member', commits', author'⟩ := commits_iff.1 other
  have counts : vote.body.kind ≠ .null := by
    rw [commits.kind]
    decide
  have differ : vote.body.hash ≠ vote'.body.hash := by
    rw [commits.hash, commits'.hash]
    exact apart.symm
  exact ⟨vote, member, vote', member', author,
    { author := author'.trans author.symm
      height := (commits'.height.trans height).trans commits.height.symm
      round := (commits'.round.trans round).trans commits.round.symm
      kind := commits'.kind.trans commits.kind.symm
      counts := counts
      apart := differ
      signed := commits.signed
      signed' := commits'.signed }⟩

-- ================================================================ places

/-- Places that are counted are the validators', one by one. -/
theorem authors_of_placesPower {votes : List Vote} {validators : List Validator}
    {sum power : Power} (full : votes.length = validators.length)
    (counted : c.placesPower votes validators sum = .ok power) :
    votes.map (·.body.validator) = validators.map (·.address) := by
  induction votes generalizing validators sum with
  | nil =>
    rw [List.eq_nil_of_length_eq_zero full.symm]
    rfl
  | cons vote votes ih =>
    cases validators with
    | nil => cases full
    | cons validator validators =>
      obtain ⟨placed, here, counted⟩ := exists_placePower counted
      rw [List.map_cons, List.map_cons, (placePower_ok here).1,
        ih (Nat.succ.inj full) counted]

/-- A certificate that passes names every validator of the set in its place. -/
theorem authors_of_check (passed : c.check s = .ok ()) :
    c.votes.map (·.body.validator) = s.members.map (·.address) := by
  obtain ⟨-, full, power, counted, -⟩ := check_eq_ok_iff.1 passed
  exact authors_of_placesPower full counted

/-- The committers of a certificate that passes weigh more than two thirds. -/
theorem two_thirds_commit (passed : c.check s = .ok ()) :
    2 * s.total.toNat < 3 * s.weight c.commits :=
  two_thirds_of_check passed fun vote member commits _ =>
    commits_iff.2 ⟨vote, member, commits, rfl⟩

/-- Where a set was built from a list, a certificate that passes holds well-signed
precommits for its height, round and block by distinct validators of more than
two thirds of the total. And those who are committed by another one as well, of
the same round and for another block, are more than a third of it; each of them
signed two votes that contradict each other. -/
theorem commits_accountable {vs : List Validator}
    (built : ValidatorSet.ofList? vs = .ok s) (passed : c.check s = .ok ()) :
    (c.commitments.map (·.body.validator)).Nodup
      ∧ (∀ vote ∈ c.commitments,
        c.Commits vote ∧ vote.body.validator ∈ s.members.map (·.address))
      ∧ 2 * s.total.toNat < 3 * s.weight c.commits
      ∧ ∀ c' : Certificate, c'.height = c.height → c'.round = c.round →
        c'.hash ≠ c.hash → c'.check s = .ok () →
        s.total.toNat < 3 * s.weight (fun a => c.commits a && c'.commits a)
          ∧ ∀ a, (c.commits a && c'.commits a) = true →
            ∃ vote ∈ c.votes, ∃ vote' ∈ c'.votes, vote.body.validator = a
              ∧ Contradicts vote vote' := by
  obtain ⟨distinct, total⟩ := ValidatorSet.ofList?_spec built
  have places := authors_of_check passed
  have part : (c.commitments.map (·.body.validator)).Sublist
      (s.members.map (·.address)) := by
    rw [← places]
    exact List.filter_sublist.map _
  refine ⟨part.nodup distinct, fun vote member => ?_, two_thirds_commit passed,
    fun c' height round apart passed' => ⟨?_, fun a both => ?_⟩⟩
  · exact ⟨(mem_commitments.1 member).2,
      part.subset (List.mem_map_of_mem member)⟩
  · have one := two_thirds_commit passed
    have other := two_thirds_commit passed'
    -- two parts of more than two thirds share more than one
    have shared := s.weight_add_le c.commits c'.commits
    omega
  · rw [Bool.and_eq_true] at both
    exact exists_contradicts height round apart both.1 both.2

end Certificate

open scoped Plain

/-- Three of four are committed to another block. The place of the one that is
not holds a null vote for the first block, which states a power of nine. -/
def Plain.rival : Certificate where
  height := 1
  round := 0
  hash := (block 1).hash
  votes := [Ballot.absent 1 0 (block 0).hash (address 1) 9,
    cast 2 0 (block 1).hash .precommit, cast 3 0 (block 1).hash .precommit,
    cast 4 0 (block 1).hash .precommit]

open Plain in
/-- Of two certificates of one round for two blocks, two of four are to blame. -/
theorem commits_accountable_of_rivals :
    ValidatorSet.ofList? members = .ok committee
      ∧ (certificate 0 [1, 2, 3]).check committee = .ok ()
      ∧ rival.check committee = .ok ()
      ∧ committee.total.toNat < 3 * committee.weight
        (fun a => (certificate 0 [1, 2, 3]).commits a && rival.commits a) := by
  have passed : (certificate 0 [1, 2, 3]).check committee = .ok () := by
    decide +kernel
  have passed' : rival.check committee = .ok () := by decide +kernel
  have apart : rival.hash ≠ (certificate 0 [1, 2, 3]).hash := by decide +kernel
  obtain ⟨-, -, -, blames⟩ :=
    Certificate.commits_accountable ofList?_members passed
  exact ⟨ofList?_members, passed, passed', (blames rival rfl rfl apart passed').1⟩

end Quorum
