/-
What a chain answers, request by request.

Each of the three requests that can be refused is turned over once: a proposal is
of one shape and for one height (`propose_eq_ok_iff`), a block is accepted if all
that is looked at is in order (`validate_eq_ok_iff`), the certificate it carries
included (`checkLastCommit_eq_ok_iff`), and an append that is accepted changes the
blocks and the waiting transactions, and nothing else (`append_eq_ok_iff`). What is
said of chains elsewhere is read off these.
-/
import Quorum.Chain.Ledger

namespace Quorum

variable [Crypto]

/-- A certificate of this block that passes the check of a set. -/
structure Certificate.Seals (c : Certificate) (validators : ValidatorSet)
    (block : Block) : Prop where
  height : c.height = block.height
  hash : c.hash = block.hash
  passes : c.check validators = .ok ()

namespace Ledger

variable {l l' : Ledger} {block : Block} {certificate : Certificate}

/-- A proposal is for the next height. It names the tip, carries its certificate,
and takes the transactions that have waited longest. -/
theorem propose_eq_ok_iff {now : Millis} {proposer : Address} {height : Height} :
    l.propose now proposer height = .ok block
      ↔ height = l.tipHeight + 1
        ∧ block = ⟨height, l.tipHash?, proposer, now,
          l.pending.take maxTransactionsPerBlock, l.tip?.map (·.2)⟩ := by
  unfold propose
  dsimp only
  split
  case isTrue other => exact iff_of_false nofun fun ⟨same, _⟩ => other same
  case isFalse same =>
    rw [Decidable.not_not] at same
    rw [Except.ok.injEq]
    exact ⟨fun made => ⟨same, made.symm⟩, fun ⟨_, made⟩ => made.symm⟩

/-- A block carries a certificate of the tip, and on no block it carries none. -/
theorem checkLastCommit_eq_ok_iff {carried : Option Certificate} :
    l.checkLastCommit carried = .ok ()
      ↔ l.tip? = none ∧ carried = none
        ∨ ∃ parent c certificate, l.tip? = some (parent, c)
          ∧ carried = some certificate ∧ certificate.Seals l.validators parent := by
  unfold checkLastCommit
  cases carried with
  | none => cases l.tip? <;> simp
  | some certificate =>
    cases l.tip? with
    | none => simp
    | some entry =>
      obtain ⟨parent, c⟩ := entry
      dsimp only
      split
      case isTrue other =>
        refine iff_of_false nofun ?_
        rintro (⟨none, -⟩ | ⟨parent', c', certificate', tip, carried, seals⟩)
        · cases none
        · cases tip
          cases carried
          exact other.elim (· seals.height) (· seals.hash)
      case isFalse own =>
        rw [not_or, Decidable.not_not, Decidable.not_not] at own
        constructor
        · intro passes
          exact Or.inr
            ⟨parent, c, certificate, rfl, rfl, own.1, own.2, passes⟩
        · rintro (⟨none, -⟩ | ⟨parent', c', certificate', tip, carried, seals⟩)
          · cases none
          · cases tip
            cases carried
            exact seals.passes

/-- What is looked at before a block is accepted. -/
structure Accepts (l : Ledger) (block : Block) : Prop where
  allowed : block.hash ∉ l.refused
  height : block.height = l.tipHeight + 1
  parent : block.parent = l.tipHash?
  proposer : l.validators.contains block.proposer = true
  carries : l.checkLastCommit block.lastCommit = .ok ()

/-- A block is accepted exactly if all of it is in order. -/
theorem validate_eq_ok_iff : l.validate block = .ok () ↔ l.Accepts block := by
  unfold validate
  dsimp only
  split
  case isTrue refused =>
    exact iff_of_false nofun fun accepts =>
      accepts.allowed (List.contains_iff_mem.1 refused)
  case isFalse allowed =>
    split
    case isTrue other => exact iff_of_false nofun fun accepts => other accepts.height
    case isFalse height =>
      split
      case isTrue other => exact iff_of_false nofun fun accepts => other accepts.parent
      case isFalse parent =>
        split
        case isTrue unknown =>
          refine iff_of_false nofun fun accepts => ?_
          rw [accepts.proposer] at unknown
          cases unknown
        case isFalse known =>
          split
          case h_1 fault wrong =>
            refine iff_of_false nofun fun accepts => ?_
            cases wrong.symm.trans accepts.carries
          case h_2 carries =>
            rw [Decidable.not_not] at height parent
            exact iff_of_true rfl
              { allowed := fun refused => allowed (List.contains_iff_mem.2 refused)
                height := height
                parent := parent
                proposer := by simpa using known
                carries := carries }

/-- An append is accepted exactly if the block is and the certificate proves it.
The block comes to stand last, and its transactions wait no longer. -/
theorem append_eq_ok_iff :
    l.append block certificate = .ok l'
      ↔ l.Accepts block
        ∧ certificate.Seals l.validators block
        ∧ l' = { l with
          pending := l.pending.filter fun tx => !block.transactions.contains tx
          blocks := l.blocks ++ [(block, certificate)] } := by
  unfold append
  rw [← validate_eq_ok_iff]
  cases l.validate block with
  | error fault => exact iff_of_false nofun nofun
  | ok =>
    dsimp only
    split
    case isTrue other =>
      exact iff_of_false nofun fun ⟨_, seals, _⟩ =>
        other.elim (· seals.height) (· seals.hash)
    case isFalse own =>
      rw [not_or, Decidable.not_not, Decidable.not_not] at own
      cases passes : certificate.check l.validators with
      | error fault =>
        refine iff_of_false nofun fun ⟨_, seals, _⟩ => ?_
        cases passes.symm.trans seals.passes
      | ok =>
        rw [Except.ok.injEq]
        exact ⟨fun grown => ⟨rfl, ⟨own.1, own.2, passes⟩, grown.symm⟩,
          fun ⟨_, _, grown⟩ => grown.symm⟩

end Ledger

end Quorum
