/-
The votes of one kind in one round.

A tally holds at most one vote per validator. The first hash to gather
more than two thirds of the power is the majority, and stays it. Powers
are counted as votes are recorded, for all of them together and for each
hash apart, and are never worked out again; that the counters agree with
the votes is for the theory to show.

Signatures are not looked at: a vote is checked before it gets here.
-/
import Quorum.Fault

namespace Quorum

/-- What is decided, and by whom. -/
structure Scope where
  height : Height
  validators : ValidatorSet
deriving DecidableEq

/-- Votes of one kind in one round, oldest first, with what they add up to;
the majority once there is one; and the majorities that peers claim to have
seen. -/
structure Tally where
  round : Round
  kind : VoteKind
  votes : List Vote := []
  /-- The power of all recorded votes. -/
  power : Power := 0
  /-- The power of the votes recorded for each hash. -/
  shares : List (BlockHash × Power) := []
  majority : Option BlockHash := none
  claims : List (Address × BlockHash) := []
deriving DecidableEq

namespace Tally

-- ============================================================ looking

/-- The vote recorded of one validator. -/
def voteOf? (t : Tally) (address : Address) : Option Vote :=
  t.votes.find? (fun vote => vote.body.validator == address)

/-- The power of the votes recorded for a hash. -/
def powerFor (t : Tally) (hash : BlockHash) : Power :=
  ((t.shares.find? (fun share => share.1 == hash)).map (·.2)).getD 0

/-- Whether all votes together are more than a third of the power. -/
def someThird (s : Scope) (t : Tally) : Bool := s.validators.exceedsOneThird t.power

/-- Whether all votes together are more than two thirds of the power. -/
def someTwoThirds (s : Scope) (t : Tally) : Bool := s.validators.exceedsTwoThirds t.power

/-- What a peer claims to be the majority. -/
def claimOf? (t : Tally) (peer : Address) : Option BlockHash :=
  (t.claims.find? (fun claim => claim.1 == peer)).map (·.2)

/-- For each validator in order, whether its vote for a hash is held. -/
def heldFor (s : Scope) (t : Tally) (hash : BlockHash) : List Bool :=
  s.validators.members.map fun v =>
    match t.voteOf? v.address with
    | some vote => vote.body.hash == hash
    | none => false

/-- The votes held for a hash, in the validators' order. -/
def votesFor (s : Scope) (t : Tally) (hash : BlockHash) : List Vote :=
  (s.validators.members.filterMap fun v => t.voteOf? v.address).filter
    fun vote => vote.body.hash == hash

/-- What a certificate holds in a validator's place. -/
def place (s : Scope) (t : Tally) (hash : BlockHash) (v : Validator) : Vote :=
  let absent := Ballot.absent s.height t.round hash v.address v.power
  match t.voteOf? v.address with
  | some vote => if vote.body.hash = hash then vote else absent
  | none => absent

/-- The certificate of a majority of precommits for a block. -/
def certificate? (s : Scope) (t : Tally) : Option Certificate :=
  if t.kind = .precommit then
    match t.majority with
    | some hash =>
      if hash.isNil then none
      else some ⟨s.height, t.round, hash, s.validators.members.map (t.place s hash)⟩
    | none => none
  else none

-- =========================================================== changing

/-- What keeps a vote out of the tally. -/
def refusal? (s : Scope) (t : Tally) (vote : Vote) : Option Fault :=
  let ballot := vote.body
  if ballot.height ≠ s.height then some (.vote (.heightMismatch s.height ballot.height))
  else if ballot.round ≠ t.round then some (.vote (.roundMismatch t.round ballot.round))
  else if ballot.kind ≠ t.kind then some (.vote (.kindMismatch t.kind ballot.kind))
  else
    match s.validators.powerOf? ballot.validator with
    | none => some (.vote (.outsider ballot.validator))
    | some power =>
      if ballot.power ≠ power then
        some (.vote (.powerMismatch ballot.validator ballot.power power))
      else
        match t.voteOf? ballot.validator with
        | none => none
        | some recorded =>
          if recorded.body.hash = ballot.hash then
            some (.vote (.recorded t.kind ballot.validator))
          else some (.conflict recorded vote)

/-- Add to the power counted for a hash. -/
def addShare (hash : BlockHash) (power : Power) :
    List (BlockHash × Power) → List (BlockHash × Power)
  | [] => [(hash, power)]
  | share :: shares =>
    if share.1 = hash then (hash, satAdd share.2 power) :: shares
    else share :: addShare hash power shares

/-- The tally with one more vote, and the majority it may bring about. -/
def record (s : Scope) (t : Tally) (vote : Vote) : Tally :=
  let t := { t with
    votes := t.votes ++ [vote]
    power := satAdd t.power vote.body.power
    shares := addShare vote.body.hash vote.body.power t.shares }
  if t.majority.isNone && s.validators.exceedsTwoThirds (t.powerFor vote.body.hash) then
    { t with majority := some vote.body.hash }
  else t

/-- Record a vote, unless something keeps it out. -/
def add (s : Scope) (t : Tally) (vote : Vote) : Except Fault Tally :=
  match t.refusal? s vote with
  | some fault => .error fault
  | none => .ok (t.record s vote)

/-- Record what a peer claims; it may repeat itself, but not change its
mind. -/
def addClaim (t : Tally) (peer : Address) (hash : BlockHash) : Except Fault Tally :=
  match t.claimOf? peer with
  | some first =>
    if first = hash then .ok t else .error (.claim (.changed peer first t.kind t.round hash))
  | none => .ok { t with claims := t.claims ++ [(peer, hash)] }

end Tally

end Quorum
