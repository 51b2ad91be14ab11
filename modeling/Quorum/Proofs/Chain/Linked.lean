/-
A chain that is appended to stays one chain.

Whoever holds a chain may ask anything of it, in any order: to keep a
transaction, to refuse a block, for a proposal, for a verdict, to append a
block with a certificate. Of all this only an append that is accepted changes
the blocks, and by then everything was checked (`Ledger.extends_of_append`).
So the links between neighbours need be looked at in one place, where a block
comes to stand on the tip (`Linked.append`), and they hold after any requests
(`chain_stays_linked`).

Two certificates meet at each link: the one that a block is stored with, and
the one for it that the next block carries. They need not be the same, since
each was made of the votes that somebody happened to hold. Both prove that
block.
-/
import Quorum.Proofs.Chain.Ledger
import Quorum.Proofs.Machine.Plain

namespace Quorum

-- ============================================================== requests

namespace Ledger

/-- What may be asked of a chain. -/
inductive Request where
  | addTransaction (tx : Bytes)
  | refuse (hash : BlockHash)
  | propose (now : Millis) (proposer : Address) (height : Height)
  | validate (block : Block)
  | append (block : Block) (certificate : Certificate)
deriving DecidableEq

variable [Crypto]

/-- The chain after a request. Proposals and verdicts are answers only. -/
def perform (l : Ledger) : Request → Ledger
  | .addTransaction tx => l.addTransaction tx
  | .refuse hash => l.refuse hash
  | .propose _ _ _ => l
  | .validate _ => l
  | .append block certificate =>
    match l.append block certificate with
    | .ok next => next
    | .error _ => l

/-- The chain of a set after these requests, from no block on. -/
def after (validators : ValidatorSet) (requests : List Request) : Ledger :=
  requests.foldl perform { validators := validators }

theorem after_snoc (validators : ValidatorSet) (requests : List Request)
    (request : Request) :
    after validators (requests ++ [request])
      = (after validators requests).perform request :=
  List.foldl_append

end Ledger

-- ================================================================= links

/-- An entry of a chain with one more block is an old one, or the new one. -/
theorem Ledger.getElem?_snoc {blocks : List (Block × Certificate)}
    {entry new : Block × Certificate} {i : Nat}
    (here : (blocks ++ [new])[i]? = some entry) :
    blocks[i]? = some entry ∨ i = blocks.length ∧ entry = new := by
  rw [List.getElem?_append] at here
  split at here
  case isTrue => exact Or.inl here
  case isFalse beyond =>
    rw [List.getElem?_singleton] at here
    split at here
    case isTrue last => exact Or.inr ⟨by omega, (Option.some.inj here).symm⟩
    case isFalse => cases here

section

variable [Crypto]

/-- The entries of a chain, and what is between neighbours. The blocks are
counted from 0, and their heights from 1. -/
structure Ledger.Linked (validators : ValidatorSet) (l : Ledger) : Prop where
  height : ∀ (i : Nat) (block : Block) (c : Certificate),
    l.blocks[i]? = some (block, c) → block.height = UInt64.ofNat (i + 1)
  /-- The first block has nothing below it. -/
  first : ∀ (block : Block) (c : Certificate), l.blocks[0]? = some (block, c) →
    block.parent = none ∧ block.lastCommit = none
  /-- Every other one names the block below it, and carries a certificate of
  it. -/
  next : ∀ (i : Nat) (parent block : Block) (c c' : Certificate),
    l.blocks[i]? = some (parent, c) → l.blocks[i + 1]? = some (block, c') →
    block.parent = some parent.hash
      ∧ ∃ carried, block.lastCommit = some carried
        ∧ carried.Seals validators parent
  sealed : ∀ (i : Nat) (block : Block) (c : Certificate),
    l.blocks[i]? = some (block, c) → c.Seals validators block
  /-- A block is looked up by its height. -/
  found : ∀ (i : Nat) (block : Block) (c : Certificate) (height : Height),
    l.blocks[i]? = some (block, c) → height.toNat = i + 1 →
    l.block? height = some (block, c)

namespace Ledger

variable {validators : ValidatorSet} {l l' : Ledger} {block : Block}
  {certificate : Certificate}

theorem linked_empty (validators : ValidatorSet) :
    Linked validators { validators := validators } :=
  ⟨nofun, nofun, nofun, nofun, nofun⟩

/-- Links are a matter of the blocks alone. -/
theorem Linked.congr (linked : Linked validators l)
    (same : l'.blocks = l.blocks) : Linked validators l' := by
  obtain ⟨height, first, next, sealed, found⟩ := linked
  refine ⟨?_, ?_, ?_, ?_, ?_⟩
  all_goals rw [same]
  · exact height
  · exact first
  · exact next
  · exact sealed
  · unfold block? at found ⊢
    rw [same]
    exact found

-- =============================================================== appending

/-- What was found of a block and its certificate before they are appended. -/
structure Extends (l : Ledger) (block : Block) (certificate : Certificate) :
    Prop where
  height : block.height = l.tipHeight + 1
  parent : block.parent = l.tipHash?
  carries : l.checkLastCommit block.lastCommit = .ok ()
  seals : certificate.Seals l.validators block

/-- An append that is accepted adds one entry, which stands on the tip, and
lets the transactions of the block wait no longer. -/
theorem extends_of_append (appended : l.append block certificate = .ok l') :
    l.Extends block certificate
      ∧ l' = { l with
        pending := l.pending.filter fun tx => !block.transactions.contains tx
        blocks := l.blocks ++ [(block, certificate)] } := by
  obtain ⟨accepts, seals, grown⟩ := append_eq_ok_iff.1 appended
  exact ⟨⟨accepts.height, accepts.parent, accepts.carries, seals⟩, grown⟩

/-- The certificate that a block carries is one of the tip's block. -/
theorem carried_seals {parent : Block} {c : Certificate}
    {carried : Option Certificate} (tip : l.tip? = some (parent, c))
    (carries : l.checkLastCommit carried = .ok ()) :
    ∃ certificate, carried = some certificate
      ∧ certificate.Seals l.validators parent := by
  rcases checkLastCommit_eq_ok_iff.1 carries with
    ⟨none, -⟩ | ⟨parent', c', certificate, tip', carried, seals⟩
  · cases tip.symm.trans none
  · cases tip.symm.trans tip'
    exact ⟨certificate, carried, seals⟩

/-- On no block a block that carries nothing follows. -/
theorem carried_eq_none {carried : Option Certificate} (tip : l.tip? = none)
    (carries : l.checkLastCommit carried = .ok ()) : carried = none := by
  rcases checkLastCommit_eq_ok_iff.1 carries with
    ⟨-, nothing⟩ | ⟨parent, c, certificate, tip', -⟩
  · exact nothing
  · cases tip.symm.trans tip'

/-- A block that was checked against the tip is linked to it. -/
theorem Linked.append (linked : Linked validators l)
    (same : l.validators = validators)
    (fits : l.Extends block certificate)
    (grown : l'.blocks = l.blocks ++ [(block, certificate)]) :
    Linked validators l' := by
  subst same
  have length : ∀ {i : Nat} {entry}, l.blocks[i]? = some entry →
      i < l.blocks.length := fun here => (List.getElem?_eq_some_iff.1 here).1
  -- each entry is an old one, or the new one, which was checked against the tip
  constructor
  case height =>
    intro i block' c here
    rw [grown] at here
    rcases getElem?_snoc here with old | ⟨last, new⟩
    · exact linked.height i block' c old
    · cases new
      rw [fits.height, last]
      exact (UInt64.ofNat_add _ _).symm
  case first =>
    intro block' c here
    rw [grown] at here
    rcases getElem?_snoc here with old | ⟨last, new⟩
    · exact linked.first block' c old
    · cases new
      have tip : l.tip? = none := by
        unfold tip?
        rw [List.length_eq_zero_iff.1 last.symm]
        rfl
      refine ⟨?_, carried_eq_none tip fits.carries⟩
      rw [fits.parent]
      unfold tipHash?
      rw [tip]
      rfl
  case next =>
    intro i parent block' c c' below here
    rw [grown] at below here
    rcases getElem?_snoc here with old | ⟨last, new⟩
    · have inside := length old
      rw [List.getElem?_append_left (by omega)] at below
      exact linked.next i parent block' c c' below old
    · cases new
      rw [List.getElem?_append_left (by omega)] at below
      -- the entry below the new one is the tip
      have tip : l.tip? = some (parent, c) := by
        unfold tip?
        rw [List.getLast?_eq_getElem?, ← last]
        exact below
      refine ⟨?_, carried_seals tip fits.carries⟩
      rw [fits.parent]
      unfold tipHash?
      rw [tip]
      rfl
  case sealed =>
    intro i block' c here
    rw [grown] at here
    rcases getElem?_snoc here with old | ⟨-, new⟩
    · exact linked.sealed i block' c old
    · cases new
      exact fits.seals
  case found =>
    intro i block' c height here named
    unfold block?
    have positive : height ≠ 0 := by
      rintro rfl
      cases named
    rw [if_neg positive, named]
    exact here

-- ============================================================== requests

/-- Every request keeps the links, and the set. -/
theorem Linked.perform (linked : Linked validators l)
    (same : l.validators = validators) (request : Request) :
    Linked validators (l.perform request)
      ∧ (l.perform request).validators = validators := by
  cases request with
  | addTransaction tx => exact ⟨linked.congr rfl, same⟩
  | refuse hash =>
    show Linked validators (l.refuse hash) ∧ (l.refuse hash).validators = validators
    unfold refuse
    split
    case isTrue => exact ⟨linked, same⟩
    case isFalse => exact ⟨linked.congr rfl, same⟩
  | propose now proposer height => exact ⟨linked, same⟩
  | validate block => exact ⟨linked, same⟩
  | append block certificate =>
    unfold Ledger.perform
    dsimp only
    split
    case h_1 next appended =>
      obtain ⟨fits, rfl⟩ := extends_of_append appended
      exact ⟨linked.append same fits rfl, same⟩
    case h_2 => exact ⟨linked, same⟩

theorem linked_after (validators : ValidatorSet) (requests : List Request) :
    Linked validators (after validators requests)
      ∧ (after validators requests).validators = validators := by
  induction requests using List.reverseRecOn with
  | nil => exact ⟨linked_empty validators, rfl⟩
  | append_singleton requests request ih =>
    rw [after_snoc]
    exact ih.1.perform ih.2 request

/-- A chain stays linked and certified. Whatever is asked of the chain of a set,
in any order and with any arguments, each block has the height of its place,
names the block below it and carries a certificate of exactly that one, is kept
with a certificate of its own, and is found under its height. An append that is
refused leaves the chain as it was. -/
theorem chain_stays_linked (validators : ValidatorSet)
    (requests : List Request) :
    Linked validators (after validators requests)
      ∧ ∀ block certificate fault,
        (after validators requests).append block certificate = .error fault →
        after validators (requests ++ [.append block certificate])
          = after validators requests := by
  refine ⟨(linked_after validators requests).1, ?_⟩
  intro block certificate fault refused
  rw [after_snoc]
  unfold perform
  dsimp only
  rw [refused]

end Ledger

end

open scoped Plain

namespace Plain

/-- A block on the first one, whose certificate it carries. -/
def secondBlock : Block :=
  ⟨2, some (block 0).hash, address 2, 0, [[7]], some (certificate 0 [1, 2, 3])⟩

/-- All four have precommitted it in round 3. -/
def secondCertificate : Certificate where
  height := 2
  round := 3
  hash := secondBlock.hash
  votes := [1, 2, 3, 4].map fun byte =>
    Signed.make (Signer.plain (address byte))
      ⟨2, 3, secondBlock.hash, 0, address byte, 1, .precommit⟩

/-- Two blocks are appended. The first one is kept with another certificate than
the one that the second one carries. -/
def chainRequests : List Ledger.Request :=
  [.addTransaction [7], .append (block 0) (certificate 0 [2, 3, 4]),
    .append secondBlock secondCertificate]

/-- Why the first block is not appended again. -/
def heightFault : BlockFault := .heightMismatch 3 1

end Plain

open Plain in
/-- Two blocks are linked, and the first one is refused after that. -/
theorem chain_stays_linked_of_two :
    (Ledger.after committee chainRequests).blocks
        = [(block 0, certificate 0 [2, 3, 4]), (secondBlock, secondCertificate)]
      ∧ secondBlock.parent = some (block 0).hash
      ∧ (certificate 0 [1, 2, 3]).Seals committee (block 0)
      ∧ (Ledger.after committee chainRequests).append (block 0)
          (certificate 0 [2, 3, 4]) = .error heightFault
      ∧ Ledger.after committee
          (chainRequests ++ [.append (block 0) (certificate 0 [2, 3, 4])])
        = Ledger.after committee chainRequests := by
  have blocks : (Ledger.after committee chainRequests).blocks
      = [(block 0, certificate 0 [2, 3, 4]), (secondBlock, secondCertificate)] := by
    decide +kernel
  have invalid : (Ledger.after committee chainRequests).validate (block 0)
      = .error heightFault := by
    decide +kernel
  have refused : (Ledger.after committee chainRequests).append (block 0)
      (certificate 0 [2, 3, 4]) = .error heightFault := by
    unfold Ledger.append
    rw [invalid]
  obtain ⟨linked, unchanged⟩ := Ledger.chain_stays_linked committee chainRequests
  obtain ⟨parent, carried, carries, seals⟩ := linked.next 0 (block 0) secondBlock
    (certificate 0 [2, 3, 4]) secondCertificate
    (by rw [blocks, List.getElem?_cons_zero])
    (by rw [blocks, List.getElem?_cons_succ, List.getElem?_cons_zero])
  have named : secondBlock.lastCommit = some (certificate 0 [1, 2, 3]) := rfl
  have same := Option.some.inj (named.symm.trans carries)
  exact ⟨blocks, parent, same ▸ seals, refused, unchanged _ _ _ refused⟩

end Quorum
