/-
What a chain proposes, it accepts.

A block is put together from the tip and later held against it, and the two are
written apart. What is put in without being looked at is the certificate of the
tip: it was stored when the tip was appended and passes now because it passed then
(`Linked.checkLastCommit_tip`). Everything else agrees by itself, in any chain with
the same blocks, because only the blocks are read. The waiting transactions and the
refused hashes may differ; refusing is the one reason that remains.
-/
import Quorum.Proofs.Chain.Linked
import Quorum.Proofs.Validators.Lookup

namespace Quorum

open ValidatorSet (ofList?)

namespace Ledger

variable [Crypto] {validators : ValidatorSet} {l l' : Ledger} {block : Block}
  {now : Millis} {proposer : Address} {height : Height}

-- ============================================================== proposals

/-- There is a proposal for the next height, and for no other. -/
theorem exists_propose_iff :
    (∃ block, l.propose now proposer height = .ok block)
      ↔ height = l.tipHeight + 1 := by
  simp only [propose_eq_ok_iff]
  exact ⟨fun ⟨_, same, _⟩ => same, fun same => ⟨_, same, rfl⟩⟩

/-- The certificate that the tip was stored with proves the tip. -/
theorem Linked.checkLastCommit_tip (linked : Linked validators l)
    (same : l.validators = validators) :
    l.checkLastCommit (l.tip?.map (·.2)) = .ok () := by
  rw [checkLastCommit_eq_ok_iff, same]
  cases tip : l.tip? with
  | none => exact Or.inl ⟨rfl, rfl⟩
  | some entry =>
    obtain ⟨parent, c⟩ := entry
    have here : l.blocks[l.blocks.length - 1]? = some (parent, c) :=
      List.getLast?_eq_getElem?.symm.trans tip
    exact Or.inr ⟨parent, c, c, rfl, rfl, linked.sealed _ _ _ here⟩

/-- A proposal is in order for every linked chain of the same blocks that does not
refuse it. -/
theorem Linked.accepts_of_propose (linked : Linked validators l')
    (same : l'.validators = validators) (blocks : l'.blocks = l.blocks)
    (known : validators.contains proposer = true)
    (proposed : l.propose now proposer height = .ok block)
    (allowed : block.hash ∉ l'.refused) : l'.Accepts block := by
  obtain ⟨rfl, rfl⟩ := propose_eq_ok_iff.1 proposed
  have tip : l.tip? = l'.tip? := by
    unfold tip?
    rw [blocks]
  refine ⟨allowed, ?_, ?_, same ▸ known, ?_⟩
  · unfold tipHeight
    rw [blocks]
  · unfold tipHash?
    rw [tip]
  · show l'.checkLastCommit (l.tip?.map (·.2)) = .ok ()
    rw [tip]
    exact linked.checkLastCommit_tip same

-- ============================================================= acceptance

/-- A block just proposed is acceptable. Whatever was asked of the chain of a set
that was built from a list, it has a proposal for the height after its tip and for
no other height. What it proposes for one of the validators, it accepts, unless it
refuses this very block, and so does every chain of the same validators and the
same blocks. -/
theorem proposed_is_accepted {vs : List Validator} {validators : ValidatorSet}
    (built : ofList? vs = .ok validators) (requests : List Request) :
    (∀ now proposer height,
      (∃ block, (after validators requests).propose now proposer height = .ok block)
        ↔ height = (after validators requests).tipHeight + 1)
    ∧ ∀ now proposer height block,
      proposer ∈ validators.members.map (·.address) →
      (after validators requests).propose now proposer height = .ok block →
      (block.hash ∉ (after validators requests).refused →
        (after validators requests).validate block = .ok ())
      ∧ ∀ other : Ledger, other.validators = validators →
        other.blocks = (after validators requests).blocks →
        block.hash ∉ other.refused → other.validate block = .ok () := by
  obtain ⟨linked, same⟩ := linked_after validators requests
  refine ⟨fun _ _ _ => exists_propose_iff, ?_⟩
  intro now proposer height block member proposed
  obtain ⟨v, inside, rfl⟩ := List.mem_map.1 member
  have known : validators.contains v.address = true :=
    ValidatorSet.contains_of_powerOf? (ValidatorSet.powerOf?_of_mem built inside)
  refine ⟨fun allowed => ?_, fun other same' blocks allowed => ?_⟩
  · exact validate_eq_ok_iff.2
      (linked.accepts_of_propose same rfl known proposed allowed)
  · exact validate_eq_ok_iff.2
      ((linked.congr blocks).accepts_of_propose same' blocks known proposed allowed)

end Ledger

open scoped Plain

namespace Plain

/-- A transaction waits for a third block, and one hash is refused. -/
def freshRequests : List Ledger.Request :=
  chainRequests ++ [.addTransaction [8], .refuse .nil]

/-- The third block. -/
def thirdBlock : Block :=
  ⟨3, some secondBlock.hash, address 3, 5, [[8]], some secondCertificate⟩

/-- A chain with the same two blocks, where something else waits and something else
is refused. -/
def elsewhere : Ledger where
  validators := committee
  blocks := (Ledger.after committee freshRequests).blocks
  pending := [[9]]
  refused := [(block 0).hash]

end Plain

open Plain in
/-- The third block is proposed, and accepted here and elsewhere. -/
theorem proposed_is_accepted_of_third :
    ofList? members = .ok committee
      ∧ address 3 ∈ committee.members.map (·.address)
      ∧ (Ledger.after committee freshRequests).propose 5 (address 3) 3
        = .ok thirdBlock
      ∧ thirdBlock.hash ∉ (Ledger.after committee freshRequests).refused
      ∧ thirdBlock.hash ∉ elsewhere.refused
      ∧ (Ledger.after committee freshRequests).validate thirdBlock = .ok ()
      ∧ elsewhere.validate thirdBlock = .ok () := by
  have member : address 3 ∈ committee.members.map (·.address) := by decide +kernel
  have proposed : (Ledger.after committee freshRequests).propose 5 (address 3) 3
      = .ok thirdBlock := by
    decide +kernel
  have allowed : thirdBlock.hash
      ∉ (Ledger.after committee freshRequests).refused := by
    decide +kernel
  have allowed' : thirdBlock.hash ∉ elsewhere.refused := by decide +kernel
  have blocks : elsewhere.blocks = (Ledger.after committee freshRequests).blocks := by
    dsimp only [elsewhere]
  obtain ⟨here, there⟩ :=
    (Ledger.proposed_is_accepted ofList?_members freshRequests).2 _ _ _ _ member
      proposed
  exact ⟨ofList?_members, member, proposed, allowed, allowed', here allowed,
    there elsewhere rfl blocks allowed'⟩

end Quorum
