/-
Taking votes in: a vote counts when the validator it names has signed it
and the record of its round has room for it.
-/
import Quorum.Machine.Work

namespace Quorum

variable [Crypto] (s : Setup) (w : World)

namespace Machine

/-- What keeps a vote from being routed to its round. -/
def voteRefusal? (vote : Vote) : Option Fault :=
  let ballot := vote.body
  if ballot.height ≠ s.scope.height then
    some (.vote (.heightMismatch s.scope.height ballot.height))
  else if ballot.kind = .null then some (.vote (.uncountable .null))
  else if !vote.verify then some (.vote (.badSignature ballot.validator))
  else none

end Machine

namespace Work

/-- Keep a pair of conflicting votes as evidence; other faults leave
none. -/
def convict (k : Work) : Fault → Work
  | .conflict first second =>
    k.update fun m => { m with evidence := m.evidence ++ [⟨first, second, w.now⟩] }
  | _ => k

/-- Count a vote that its validator signed. A refused vote that conflicts
with a counted one is kept as evidence. -/
def addVote (k : Work) (vote : Vote) : Attempt :=
  match Machine.voteRefusal? s vote with
  | some fault => k.fail fault
  | none =>
    let counted := k.machine.log.addVote s.scope vote
    let k := k.update fun m => { m with log := counted.1 }
    match counted.2 with
    | .error fault => (k.convict w fault).fail fault
    | .ok () => k.done

end Work

end Quorum
