/-
A chain of decided blocks in memory, with the transactions waiting to get
into it.

The next block has to stand on the last one: next height, last block's
hash, and last block's certificate, checked again. A block can also be
refused by name. One validator set serves all heights.
-/
import Quorum.Chain.Certificate

namespace Quorum

/-- Why a block cannot be assembled, accepted or appended. -/
inductive BlockFault where
  | heightMismatch (expected got : Height)
  | parentMismatch
  | unknownProposer (address : Address)
  | badTransaction (reason : String)
  | badCertificate (fault : CertificateFault)
  | rejected (hash : BlockHash)
  | unknownHeight (height : Height)
deriving DecidableEq

/-- The wording of each cause; that of a certificate is quoted. -/
def BlockFault.message : BlockFault → String
  | .heightMismatch expected got =>
    "expected height " ++ decimal expected ++ ", got " ++ decimal got
  | .parentMismatch => "block does not extend the current tip"
  | .unknownProposer address => "proposer " ++ address.text ++ " is not a validator"
  | .badTransaction reason => "invalid transaction: " ++ reason
  | .badCertificate fault => "invalid commit: " ++ fault.message
  | .rejected hash => "block " ++ hash.text ++ " rejected"
  | .unknownHeight height => "no validator set for height " ++ decimal height

/-- How many waiting transactions go into one block. -/
def maxTransactionsPerBlock : Nat := 64

/-- Decided blocks with their certificates, first block first; waiting
transactions in order; hashes that are refused. -/
structure Ledger where
  validators : ValidatorSet
  blocks : List (Block × Certificate) := []
  pending : List Bytes := []
  refused : List BlockHash := []

namespace Ledger

-- ============================================================ looking

/-- The height of the last block, 0 when there is none. -/
def tipHeight (l : Ledger) : Height := UInt64.ofNat l.blocks.length

/-- The last block with its certificate, if there is a block. -/
def tip? (l : Ledger) : Option (Block × Certificate) := l.blocks.getLast?

/-- The hash that the next block has to name as its parent. -/
def tipHash? [Crypto] (l : Ledger) : Option BlockHash := l.tip?.map (·.1.hash)

/-- The block of a height with its certificate. Heights count from 1. -/
def block? (l : Ledger) (height : Height) : Option (Block × Certificate) :=
  if height = 0 then none else l.blocks[height.toNat - 1]?

/-- The validators that decide a height, known up to the next one. -/
def validatorsAt (l : Ledger) (height : Height) : Except BlockFault ValidatorSet :=
  if height = 0 ∨ height > l.tipHeight + 1 then .error (.unknownHeight height)
  else .ok l.validators

-- =========================================================== changing

/-- Let a transaction wait for a block. -/
def addTransaction (l : Ledger) (tx : Bytes) : Ledger := { l with pending := l.pending ++ [tx] }

/-- Refuse the block of this hash from now on. -/
def refuse (l : Ledger) (hash : BlockHash) : Ledger :=
  if l.refused.contains hash then l else { l with refused := hash :: l.refused }

/-- A block for the next height, of the transactions that waited
longest. -/
def propose [Crypto] (l : Ledger) (now : Millis) (proposer : Address) (height : Height) :
    Except BlockFault Block :=
  let expected := l.tipHeight + 1
  if height ≠ expected then .error (.heightMismatch expected height)
  else
    .ok {
      height := height
      parent := l.tipHash?
      proposer := proposer
      time := now
      transactions := l.pending.take maxTransactionsPerBlock
      lastCommit := l.tip?.map (·.2) }

/-- Whether the certificate a block carries is that of the last block. -/
def checkLastCommit [Crypto] (l : Ledger) (carried : Option Certificate) :
    Except CertificateFault Unit :=
  match carried, l.tip? with
  | none, none => .ok ()
  | some certificate, some (parent, _) =>
    if certificate.height ≠ parent.height ∨ certificate.hash ≠ parent.hash then
      .error .notParent
    else certificate.check l.validators
  | none, some _ => .error .missing
  | some _, none => .error .unexpected

/-- Whether a block can follow the last one. -/
def validate [Crypto] (l : Ledger) (block : Block) : Except BlockFault Unit :=
  let hash := block.hash
  let expected := l.tipHeight + 1
  if l.refused.contains hash then .error (.rejected hash)
  else if block.height ≠ expected then .error (.heightMismatch expected block.height)
  else if block.parent ≠ l.tipHash? then .error .parentMismatch
  else if !l.validators.contains block.proposer then .error (.unknownProposer block.proposer)
  else
    match l.checkLastCommit block.lastCommit with
    | .error fault => .error (.badCertificate fault)
    | .ok () => .ok ()

/-- Put a decided block at the end; its transactions wait no longer. -/
def append [Crypto] (l : Ledger) (block : Block) (certificate : Certificate) :
    Except BlockFault Ledger :=
  match l.validate block with
  | .error fault => .error fault
  | .ok () =>
    if certificate.height ≠ block.height ∨ certificate.hash ≠ block.hash then
      .error (.badCertificate .otherBlock)
    else
      match certificate.check l.validators with
      | .error fault => .error (.badCertificate fault)
      | .ok () =>
        .ok { l with
          pending := l.pending.filter fun tx => !block.transactions.contains tx
          blocks := l.blocks ++ [(block, certificate)] }

end Ledger

end Quorum
