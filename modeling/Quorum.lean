import Quorum.Main
import Quorum.Run.Session
import Quorum.Proofs.Validators.Weight
import Quorum.Proofs.Machine.Handling
import Quorum.Proofs.Record.Tally
import Quorum.Proofs.Record.Height
import Quorum.Proofs.Machine.Life
import Quorum.Proofs.Machine.Recorded
import Quorum.Proofs.Machine.Signing
import Quorum.Proofs.Machine.Locking
import Quorum.Proofs.Machine.Committing
import Quorum.Proofs.Agreement.Fleet
import Quorum.Proofs.Agreement.Safety
import Quorum.Proofs.Statement.Overlap
import Quorum.Proofs.Machine.Finality
import Quorum.Proofs.Machine.Vetting
import Quorum.Proofs.Machine.Arming
import Quorum.Proofs.Machine.Warrant
import Quorum.Proofs.Record.Certificate
import Quorum.Proofs.Machine.Failing
import Quorum.Proofs.Machine.Completing
import Quorum.Proofs.Machine.Refusing
import Quorum.Proofs.Machine.Ending
import Quorum.Proofs.Record.Round
import Quorum.Proofs.Machine.Rewriting
import Quorum.Proofs.Machine.Resting
import Quorum.Proofs.Machine.Deciding
import Quorum.Proofs.Machine.Settled
import Quorum.Proofs.Machine.Proposing
import Quorum.Proofs.Machine.Returning
import Quorum.Proofs.Validators.Lookup
import Quorum.Proofs.Machine.Arrival
import Quorum.Proofs.Machine.AnyOrder
import Quorum.Proofs.Record.Accounting
import Quorum.Proofs.Machine.Following
import Quorum.Proofs.Machine.Moving
import Quorum.Proofs.Machine.Pinning
import Quorum.Proofs.Chain.Accountability
import Quorum.Proofs.Chain.Linked
import Quorum.Proofs.Machine.Bounding
import Quorum.Proofs.Machine.Convicting
import Quorum.Proofs.Machine.Redelivering
import Quorum.Proofs.Machine.Passing
import Quorum.Proofs.Machine.Exchanging
import Quorum.Proofs.Machine.Filling
import Quorum.Proofs.Machine.Limiting
import Quorum.Proofs.Machine.OneShot
import Quorum.Proofs.Machine.Remembering
import Quorum.Proofs.Run.OwnVotes
import Quorum.Proofs.Wire.Exact
import Quorum.Proofs.Wire.Format
import Quorum.Proofs.Machine.Repeating
import Quorum.Proofs.Machine.Progress
import Quorum.Proofs.Machine.Succeeding
import Quorum.Proofs.Record.Shuffling
import Quorum.Proofs.Validators.Canonical
import Quorum.Proofs.Validators.Rotation
import Quorum.Proofs.Chain.Ledger
import Quorum.Proofs.Chain.Fresh
import Quorum.Proofs.Chain.Waiting
import Quorum.Proofs.Validators.Threshold
import Quorum.Proofs.Machine.Evicting
import Quorum.Proofs.Machine.Storing
