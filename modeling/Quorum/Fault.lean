/-
What can be wrong with an input to a machine, as causes rather than
texts. The wording of each cause is in one place, its `message`, and what
a fault means for the run is in another.

Each cause with a wording of its own also has a form `stated`, for a
reason that somebody outside this library gives in words.
-/
import Quorum.Chain.Ledger
import Quorum.Statement.Message

namespace Quorum

-- ============================================================ wording

/-- Two heights that should have been one. -/
def heightMismatchText (expected got : Height) : String :=
  "height mismatch: expected " ++ decimal expected ++ ", got " ++ decimal got

/-- Two rounds that should have been one. -/
def roundMismatchText (expected got : Round) : String :=
  "round mismatch: expected " ++ roundText expected ++ ", got " ++ roundText got

/-- A signature that its named author did not make. -/
def badSignatureText (address : Address) : String := "invalid signature from " ++ address.text

/-- An address that is not in the set. -/
def outsiderText (address : Address) : String := address.text ++ " is not a validator"

/-- A validator that used up its allowance of rounds to come. -/
def allowanceText (address : Address) (round : Round) : String :=
  address.text ++ " opened too many future rounds, refusing round " ++ roundText round

-- =========================================================== messages

/-- Why a vote is not counted. -/
inductive VoteFault where
  | heightMismatch (expected got : Height)
  | roundMismatch (expected got : Round)
  | kindMismatch (expected got : VoteKind)
  | outsider (address : Address)
  | powerMismatch (address : Address) (claimed expected : Power)
  | recorded (kind : VoteKind) (address : Address)
  | allowanceSpent (address : Address) (round : Round)
  | uncountable (kind : VoteKind)
  | badSignature (address : Address)
  | stated (text : String)
deriving DecidableEq

/-- The wording of each cause. -/
def VoteFault.message : VoteFault → String
  | .heightMismatch expected got => heightMismatchText expected got
  | .roundMismatch expected got => roundMismatchText expected got
  | .kindMismatch expected got =>
    "type mismatch: expected " ++ expected.text ++ ", got " ++ got.text
  | .outsider address => outsiderText address
  | .powerMismatch address claimed expected =>
    "power mismatch for " ++ address.text ++ ": claimed " ++ decimal claimed
      ++ ", expected " ++ decimal expected
  | .recorded kind address => kind.text ++ " from " ++ address.text ++ " already recorded"
  | .allowanceSpent address round => allowanceText address round
  | .uncountable kind => kind.text ++ " votes cannot be added"
  | .badSignature address => badSignatureText address
  | .stated text => text

/-- Why a proposal is not taken up. -/
inductive ProposalFault where
  | heightMismatch (expected got : Height)
  | badSignature (address : Address)
  | hashMismatch
  | blockHeight (block expected : Height)
  | notProposer (address : Address) (round : Round) (expected : Address)
  | roundMismatch (expected got : Round)
  | validRoundTooHigh (validRound round : Round)
  | stated (text : String)
deriving DecidableEq

/-- The wording of each cause. -/
def ProposalFault.message : ProposalFault → String
  | .heightMismatch expected got => heightMismatchText expected got
  | .badSignature address => badSignatureText address
  | .hashMismatch => "block does not match the proposed hash"
  | .blockHeight block expected =>
    "block height " ++ decimal block ++ " does not match height " ++ decimal expected
  | .notProposer address round expected =>
    address.text ++ " is not the proposer of round " ++ roundText round ++ ", expected "
      ++ expected.text
  | .roundMismatch expected got => roundMismatchText expected got
  | .validRoundTooHigh validRound round =>
    "valid round " ++ roundText validRound ++ " is not below round " ++ roundText round
  | .stated text => text

/-- Why a claim of a majority is not recorded. -/
inductive ClaimFault where
  | heightMismatch (expected got : Height)
  | nullKind
  | outsider (address : Address)
  | badSignature (address : Address)
  | allowanceSpent (address : Address) (round : Round)
  | changed (peer : Address) (first : BlockHash) (kind : VoteKind) (round : Round)
      (second : BlockHash)
  | stated (text : String)
deriving DecidableEq

/-- The wording of each cause; a changed claim quotes both hashes. -/
def ClaimFault.message : ClaimFault → String
  | .heightMismatch expected got => heightMismatchText expected got
  | .nullKind => "claim must be for PreVote or PreCommit"
  | .outsider address => outsiderText address
  | .badSignature address => badSignatureText address
  | .allowanceSpent address round => allowanceText address round
  | .changed peer first kind round second =>
    peer.text ++ " already claimed " ++ first.text ++ " for " ++ kind.text ++ " round "
      ++ roundText round ++ ", now claims " ++ second.text
  | .stated text => text

/-- Why a list of held votes is not answered or not made. -/
inductive HoldingsFault where
  | heightMismatch (expected got : Height)
  | nullKind
  | flagCount (expected got : Nat)
  | badSignature (address : Address)
  | stated (text : String)
deriving DecidableEq

/-- The wording of each cause. -/
def HoldingsFault.message : HoldingsFault → String
  | .heightMismatch expected got => heightMismatchText expected got
  | .nullKind => "bits must be for PreVote or PreCommit"
  | .flagCount expected got =>
    "expected " ++ toString expected ++ " bits, got " ++ toString got
  | .badSignature address => badSignatureText address
  | .stated text => text

/-- Why a message is refused before its kind is looked at. -/
inductive MessageFault where
  | heightMismatch (expected got : Height)
  | stated (text : String)
deriving DecidableEq

/-- The wording of each cause. -/
def MessageFault.message : MessageFault → String
  | .heightMismatch expected got => heightMismatchText expected got
  | .stated text => text

/-- What the chain could not provide. -/
inductive ChainFault where
  | block (fault : BlockFault)
  | noCertificate (hash : BlockHash) (round : Round)
  | stated (text : String)
deriving DecidableEq

/-- The wording of each cause; a block's is that of the ledger. -/
def ChainFault.message : ChainFault → String
  | .block fault => fault.message
  | .noCertificate hash round =>
    "no commit for decided block " ++ hash.text ++ " in round " ++ roundText round
  | .stated text => text

-- ============================================================= faults

/-- Everything an input to the machine, or a call on its runner, can
fail with. -/
inductive Fault where
  | vote (fault : VoteFault)
  | proposal (fault : ProposalFault)
  | claim (fault : ClaimFault)
  | holdings (fault : HoldingsFault)
  | message (fault : MessageFault)
  | badHeight (height : Height)
  | validatorSet (fault : SetFault)
  /-- Two votes of one validator for different hashes; the first is the
  recorded one. -/
  | conflict (first second : Vote)
  | proposalExists (round : Round)
  | proposalConflicts (round : Round) (offered majority : BlockHash)
  | roundRegression (current requested : Round)
  | block (fault : BlockFault)
  | chain (fault : ChainFault)
  | unsettled (passes : Nat)
  | alreadyStarted
  | notStarted
  | stopped
  | cancelled
deriving DecidableEq

namespace Fault

/-- What watchers read: which part of the machine is at fault, then the cause. -/
def text : Fault → String
  | .vote fault => "invalid vote: " ++ fault.message
  | .proposal fault => "invalid proposal: " ++ fault.message
  | .claim fault => "invalid maj23: " ++ fault.message
  | .holdings fault => "invalid vote set bits: " ++ fault.message
  | .message fault => "invalid message: " ++ fault.message
  | .badHeight got => "height must be at least 1, got " ++ decimal got
  | .validatorSet fault => "invalid validator set: " ++ fault.message
  | .conflict first _ => "conflicting votes from " ++ first.body.validator.text
  | .proposalExists round => "proposal for round " ++ roundText round ++ " already exists"
  | .proposalConflicts round offered majority =>
    "proposal " ++ offered.text ++ " conflicts with the 2/3 majority " ++ majority.text
      ++ " of round " ++ roundText round
  | .roundRegression current requested =>
    "cannot move round back from " ++ roundText current ++ " to " ++ roundText requested
  | .block fault => "invalid block: " ++ fault.message
  | .chain fault => "blockchain error: " ++ fault.message
  | .unsettled passes =>
    "upon-rule evaluation did not settle after " ++ toString passes ++ " iterations"
  | .alreadyStarted => "consensus already started"
  | .notStarted => "consensus not started"
  | .stopped => "consensus stopped"
  | .cancelled => "consensus cancelled"

/-- A fatal fault ends the run of a machine. -/
def isFatal : Fault → Bool
  | .unsettled _ | .chain _ | .roundRegression _ _ => true
  | _ => false

/-- A fault that convicts a validator. -/
def isEvidence : Fault → Bool
  | .conflict _ _ => true
  | _ => false

/-- A fault of the input alone: it is refused and the run goes on. -/
def isRejection : Fault → Bool
  | .cancelled => false
  | fault => !fault.isFatal

end Fault

end Quorum
