/-
The byte strings of messages, blocks, certificates and validator sets.

Each of these formats is put together from exact parts, so each is exact,
and decoding a whole string undoes encoding on every value whose lists
are short enough to be counted. What fits is said once per type, by what
its lists hold: the signature of a statement, the flags of the votes one
holds, the transactions of a block and the bytes of each, the votes of a
certificate, the members of a set.

The formats nest (a message holds a proposal, that a block, that a
certificate, that votes), and so do the lemmas.
-/
import Quorum.Proofs.Wire.Exact
import Quorum.Statement.Message
import Quorum.Validators.Set

namespace Quorum

open Wire.Layout

-- ======================================================== what is short

/-- The statement fits, and its signature is short enough to count. -/
def Signed.Fits {α : Type} (Body : α → Prop) (m : Signed α) : Prop :=
  Body m.body ∧ m.signature.length < UInt32.size

/-- All of a vote but its signature has a fixed width. -/
def Vote.Fits (vote : Vote) : Prop := Signed.Fits (fun _ => True) vote

/-- The votes can be counted, and each of them fits. -/
def Certificate.Fits (c : Certificate) : Prop :=
  c.votes.length < UInt32.size ∧ ∀ vote ∈ c.votes, vote.Fits

/-- The transactions can be counted, and so can the bytes of each; the parent's
certificate fits if there is one. -/
def Block.Fits (b : Block) : Prop :=
  (b.transactions.length < UInt32.size ∧ ∀ bytes ∈ b.transactions, bytes.length < UInt32.size)
    ∧ ∀ c ∈ b.lastCommit, c.Fits

/-- A message fits as the statement it is. A proposal brings its block along, and a
list of held votes its flags. -/
def Message.Fits : Message → Prop
  | .proposal m => m.Fits (fun offer => offer.block.Fits)
  | .vote m => Vote.Fits m
  | .claim m => m.Fits (fun _ => True)
  | .holdings m => m.Fits (fun holding => holding.held.length < UInt32.size)

/-- The members can be counted; each has a fixed width. -/
def ValidatorSet.Fits (s : ValidatorSet) : Prop := s.members.length < UInt32.size

-- ========================================================== statements

/-- Every field of a ballot has a fixed width. -/
theorem Ballot.exact : Ballot.layout.Exact (fun _ => True) := by
  refine (exact_u64.pair (exact_u32.pair (exact_blockHash.pair (exact_i64.pair
    (exact_address.pair (exact_u64.pair exact_voteKind)))))).map ?_ (fun _ => rfl) (fun _ => rfl)
  intro ballot
  simp only [and_self]

theorem Majority.exact : Majority.layout.Exact (fun _ => True) := by
  refine (exact_u64.pair (exact_u32.pair (exact_blockHash.pair (exact_i64.pair
    (exact_address.pair exact_voteKind))))).map ?_ (fun _ => rfl) (fun _ => rfl)
  intro majority
  simp only [and_self]

/-- The flags are the only field of a list of held votes that has to be counted. -/
theorem Holding.exact :
    Holding.layout.Exact (fun holding => holding.held.length < UInt32.size) := by
  refine (exact_u64.pair (exact_u32.pair (exact_blockHash.pair (exact_i64.pair
    (exact_address.pair (exact_voteKind.pair exact_bool.list)))))).map ?_
    (fun _ => rfl) (fun _ => rfl)
  intro holding
  simp only [true_and, implies_true, and_true]

/-- To sign a statement adds a counted string behind it. -/
theorem Signed.exact {α : Type} [Statement α] {Body : α → Prop}
    (h : (Statement.layout (α := α)).Exact Body) :
    (Signed.layout (α := α)).Exact (Signed.Fits Body) :=
  (h.pair exact_bytes).map (fun _ => Iff.rfl) (fun _ => rfl) (fun _ => rfl)

-- ================================================ blocks and their proof

/-- A certificate is as exact as the votes in it. -/
theorem Certificate.exact : Certificate.layout.Exact Certificate.Fits := by
  have vote : (Signed.layout (α := Ballot)).Exact Vote.Fits := Signed.exact Ballot.exact
  refine (exact_u64.pair (exact_u32.pair (exact_blockHash.pair vote.list))).map ?_
    (fun _ => rfl) (fun _ => rfl)
  intro c
  simp only [true_and, Certificate.Fits]

/-- A block is as exact as the certificate it carries. -/
theorem Block.exact : Block.layout.Exact Block.Fits := by
  refine (exact_u64.pair (exact_blockHash.option.pair (exact_address.pair (exact_i64.pair
    (exact_bytes.list.pair Certificate.exact.option))))).map ?_ (fun _ => rfl) (fun _ => rfl)
  intro b
  simp only [implies_true, true_and, Block.Fits]

/-- An offer is as exact as the block in it. -/
theorem Offer.exact : Offer.layout.Exact (fun offer => offer.block.Fits) := by
  refine (exact_u64.pair (exact_u32.pair (exact_blockHash.pair (exact_i64.pair
    (exact_address.pair (exact_u32.option.pair Block.exact)))))).map ?_
    (fun _ => rfl) (fun _ => rfl)
  intro offer
  simp only [implies_true, true_and]

/-- A set is its members and then the total, which is read as it stands. -/
theorem ValidatorSet.exact : ValidatorSet.layout.Exact ValidatorSet.Fits := by
  have member : ((Wire.Layout.address.pair .u64).map (fun p => Validator.mk p.1 p.2)
      (fun v => (v.address, v.power))).Exact (fun _ => True) :=
    (exact_address.pair exact_u64).map (fun _ => (and_self True).symm ▸ Iff.rfl)
      (fun _ => rfl) (fun _ => rfl)
  refine (member.list.pair exact_u64).map ?_ (fun _ => rfl) (fun _ => rfl)
  intro s
  simp only [implies_true, and_true, ValidatorSet.Fits]

-- ============================================================ messages

/-- Behind its first byte a message is the statement that the byte names. -/
theorem Message.exact : Message.layout.Exact Message.Fits := by
  have proposal := Signed.exact Offer.exact
  have vote : (Signed.layout (α := Ballot)).Exact Vote.Fits := Signed.exact Ballot.exact
  have claim := Signed.exact Majority.exact
  have holdings := Signed.exact Holding.exact
  constructor
  case restores =>
    rintro (m | m | m | m) fits rest
    · exact (proposal.restores fits).map _ rest
    · exact (vote.restores fits).map _ rest
    · exact (claim.restores fits).map _ rest
    · exact (holdings.restores fits).map _ rest
  case spelled =>
    intro bs m rest read
    cases bs with
    | nil => cases read
    -- the first byte says which reader goes on, and no other byte is taken
    | cons b bs =>
      simp only [Message.layout] at read
      split at read
      case isTrue zero =>
        obtain ⟨m, rfl, inner⟩ := of_read_map read
        obtain ⟨rfl, fits⟩ := proposal.spelled inner
        exact ⟨by rw [zero]; rfl, fits⟩
      case isFalse =>
      split at read
      case isTrue one =>
        obtain ⟨m, rfl, inner⟩ := of_read_map read
        obtain ⟨rfl, fits⟩ := vote.spelled inner
        exact ⟨by rw [one]; rfl, fits⟩
      case isFalse =>
      split at read
      case isTrue two =>
        obtain ⟨m, rfl, inner⟩ := of_read_map read
        obtain ⟨rfl, fits⟩ := claim.spelled inner
        exact ⟨by rw [two]; rfl, fits⟩
      case isFalse =>
      split at read
      case isTrue three =>
        obtain ⟨m, rfl, inner⟩ := of_read_map read
        obtain ⟨rfl, fits⟩ := holdings.spelled inner
        exact ⟨by rw [three]; rfl, fits⟩
      case isFalse => cases read
  case early =>
    intro m fits front gap short whole
    cases front with
    | nil => rfl
    -- cut short behind the first byte, the statement is what was cut
    | cons b front =>
      rcases m with m | m | m | m
      · obtain ⟨rfl, inner⟩ := List.cons.inj whole
        exact read_map_error (proposal.early fits short inner)
      · obtain ⟨rfl, inner⟩ := List.cons.inj whole
        exact read_map_error (vote.early fits short inner)
      · obtain ⟨rfl, inner⟩ := List.cons.inj whole
        exact read_map_error (claim.early fits short inner)
      · obtain ⟨rfl, inner⟩ := List.cons.inj whole
        exact read_map_error (holdings.early fits short inner)

-- ======================================================= the wire format

/-- Every message, block, certificate and validator set has exactly one
byte string: decoding gives back what was encoded, encoding gives back
what was decoded, and a string with bytes behind, with bytes missing, or
spelled by no value is refused. -/
theorem formats_canonical :
    Message.layout.Canonical Message.Fits ∧ Block.layout.Canonical Block.Fits
      ∧ Certificate.layout.Canonical Certificate.Fits
      ∧ ValidatorSet.layout.Canonical ValidatorSet.Fits :=
  ⟨Message.exact.canonical, Block.exact.canonical, Certificate.exact.canonical,
    ValidatorSet.exact.canonical⟩

end Quorum
