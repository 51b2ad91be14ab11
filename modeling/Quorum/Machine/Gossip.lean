/-
How validators fill each other's gaps.

A peer that claims to have seen a majority is answered with the list of
the votes held for it, where some are missing; and the sender of such a
list is answered with the votes it misses.
-/
import Quorum.Machine.Work

namespace Quorum

variable [Crypto] (s : Setup) (w : World)

-- ============================================================ claims

namespace Machine

/-- A list of held votes in this validator's name, signed now. -/
def signHoldings (round : Round) (hash : BlockHash) (kind : VoteKind) (held : List Bool) :
    Holdings :=
  Signed.make s.signer
    (⟨s.scope.height, round, hash, w.now, s.signer.address, kind, held⟩ : Holding)

/-- What keeps a claim of a majority from being looked at. -/
def claimRefusal? (claim : Claim) : Option Fault :=
  let body := claim.body
  if body.height ≠ s.scope.height then some (.claim (.heightMismatch s.scope.height body.height))
  else if body.kind = .null then some (.claim .nullKind)
  else if !s.scope.validators.contains body.validator then some (.claim (.outsider body.validator))
  else if !claim.verify then some (.claim (.badSignature body.validator))
  else none

/-- Record a claim in a round that was opened for it. -/
def recordClaim (m : Machine) (log : RoundLog) (body : Majority) :
    Machine × Except Fault (Option Holdings) :=
  match log.tally? body.kind with
  | none => (m, .ok none)
  | some tally =>
    match tally.addClaim body.validator body.hash with
    | .error fault => (m, .error fault)
    | .ok tally =>
      let held := tally.heldFor s.scope body.hash
      ({ m with log := m.log.put (log.setTally body.kind tally) },
        .ok (if held.all id then none
          else some (signHoldings s w body.round body.hash body.kind held)))

/-- Take in a peer's claim of a majority. The answer is the list of the
claimed votes held, where some of them are missing. A round that was
opened for the claim stays open even when the claim is refused. -/
def addClaim (m : Machine) (claim : Claim) : Machine × Except Fault (Option Holdings) :=
  let body := claim.body
  match claimRefusal? s claim with
  | some fault => (m, .error fault)
  | none =>
    match m.log.openFor? body.round body.validator with
    | none => (m, .error (.claim (.allowanceSpent body.validator body.round)))
    | some log => recordClaim s w { m with log := log } (log.getOrFresh body.round) body

-- ============================================================= gaps

/-- The list of votes held for a hash in a round, signed by this
validator. Of a round that does not exist none are. -/
def holdings (m : Machine) (round : Round) (hash : BlockHash) (kind : VoteKind) :
    Except Fault Holdings :=
  if kind = .null then .error (.holdings .nullKind)
  else
    let held :=
      match (m.log.get? round).bind (·.tally? kind) with
      | some tally => tally.heldFor s.scope hash
      | none => s.scope.validators.members.map fun _ => false
    .ok (signHoldings s w round hash kind held)

/-- What keeps a list of held votes from being answered. -/
def holdingsRefusal? (holdings : Holdings) : Option Fault :=
  let body := holdings.body
  if body.height ≠ s.scope.height then
    some (.holdings (.heightMismatch s.scope.height body.height))
  else if body.kind = .null then some (.holdings .nullKind)
  else if body.held.length ≠ s.scope.validators.size then
    some (.holdings (.flagCount s.scope.validators.size body.held.length))
  else if !holdings.verify then some (.holdings (.badSignature body.validator))
  else none

/-- The votes of a tally for a hash, of the validators not flagged, in
their order. -/
def missingVotes (tally : Tally) (hash : BlockHash) (members : List Validator)
    (held : List Bool) : List Vote :=
  let missing := (members.zip held).filter fun flagged => !flagged.2
  (missing.filterMap fun flagged => tally.voteOf? flagged.1.address).filter
    fun vote => vote.body.hash == hash

/-- The votes held here that the sender of a list of held votes is
missing. -/
def answer (m : Machine) (holdings : Holdings) : Except Fault (List Vote) :=
  let body := holdings.body
  match holdingsRefusal? s holdings with
  | some fault => .error fault
  | none =>
    match (m.log.get? body.round).bind (·.tally? body.kind) with
    | none => .ok []
    | some tally => .ok (missingVotes tally body.hash s.scope.validators.members body.held)

end Machine

-- =========================================================== answers

namespace Work

/-- Take in a claim, and send the answer to it. -/
def takeClaim (k : Work) (claim : Claim) : Attempt :=
  let taken := k.machine.addClaim s w claim
  let k := k.update fun _ => taken.1
  match taken.2 with
  | .error fault => k.fail fault
  | .ok none => k.done
  | .ok (some holdings) => (k.publish (.holdings holdings)).done

/-- Pass on the votes that the sender of a list of held votes misses. -/
def takeHoldings (k : Work) (holdings : Holdings) : Attempt :=
  match k.machine.answer s holdings with
  | .error fault => k.fail fault
  | .ok votes => (votes.foldl forward k).done

end Work

end Quorum
