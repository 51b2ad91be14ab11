/-
A majority of precommits makes a certificate that passes.

The one who makes a certificate counts the votes it recorded; the one who
checks it goes over the places of the set and counts the powers found
there. Both come to more than two thirds, because a recorded vote has been
checked for all that its place is checked for.
-/
import Quorum.Proofs.Chain.Certificate
import Quorum.Proofs.Record.Tally

namespace Quorum.Tally

variable {s : Scope} {heard : Vote → Prop} {round : Round} {t : Tally}
  {hash : BlockHash}

/-- Whether a validator's vote for a hash is recorded. -/
def backs (t : Tally) (hash : BlockHash) (address : Address) : Bool :=
  match t.voteOf? address with
  | some vote => vote.body.hash == hash
  | none => false

/-- The certificate of a tally for a hash. -/
def certificateFor (s : Scope) (t : Tally) (hash : BlockHash) : Certificate :=
  ⟨s.height, t.round, hash, s.validators.members.map (t.place s hash)⟩

/-- Whoever voted for a hash backs it. -/
theorem backs_of_mem {kind : VoteKind} (h : t.Sound s heard round kind)
    {vote : Vote} (member : vote ∈ t.votes) (voted : vote.body.hash = hash) :
    t.backs hash vote.body.validator = true := by
  unfold backs
  rw [h.voteOf?_of_mem member]
  exact beq_iff_eq.2 voted

variable [Crypto]

/-- A place counts for its validator's power if the validator backs the
certificate's hash, and for nothing if not. -/
theorem placePower_place (h : t.Sound s heard round .precommit)
    (signed : ∀ vote, heard vote → vote.verify = true) (v : Validator) :
    (t.certificateFor s hash).placePower (t.place s hash v) v
      = .ok (if t.backs hash v.address then v.power else 0) := by
  have absent : (t.certificateFor s hash).placePower
      (Ballot.absent s.height t.round hash v.address v.power) v = .ok 0 := by
    simp [Certificate.placePower, Ballot.absent, certificateFor]
  unfold place backs
  cases found : t.voteOf? v.address with
  | none => exact absent
  | some vote =>
    dsimp only
    split
    case isFalse other =>
      rw [absent, if_neg (by simpa using other)]
    case isTrue voted =>
      obtain ⟨member, own⟩ := voteOf?_spec found
      have height := h.height_of_mem vote member
      have here := (h.round_of_mem vote member).trans h.round_eq.symm
      have kind := h.kind_of_mem vote member
      have good := signed vote (h.heard_of_mem vote member)
      simp [Certificate.placePower, certificateFor, own, height, here, kind,
        voted, good]

/-- The certificate of a majority of precommits for a block passes. -/
theorem Sound.check_certificate (h : t.Sound s heard round .precommit)
    (signed : ∀ vote, heard vote → vote.verify = true)
    (reached : t.majority = some hash) (real : hash ≠ .nil) :
    t.certificate? s = some (t.certificateFor s hash)
      ∧ (t.certificateFor s hash).check s.validators = .ok () := by
  constructor
  · have some_ : hash.isNil = false := by simpa [BlockHash.isNil] using real
    unfold certificate?
    rw [if_pos h.kind_eq, reached]
    dsimp only
    rw [some_]
    rfl
  · have counted := Certificate.placesPower_map (f := t.place s hash)
      (fun v (_ : v ∈ s.validators.members) => placePower_place h signed v) 0
    have backed := h.two_thirds_of_majority reached
      fun vote member voted => backs_of_mem h member voted
    have enough := s.validators.exceedsTwoThirds_of_weight backed
    exact Certificate.check_eq_ok_iff.2 ⟨real, List.length_map _, _, counted, enough⟩

end Quorum.Tally
