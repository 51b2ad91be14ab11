/-
What is known of all rounds of one height.

Rounds are kept in ascending order and come into being on first touch.
Rounds up to the one after the current are open to everybody. To open one
beyond that costs a validator one of two tickets for the whole height, so
a few faulty validators cannot fill the memory with rounds.
-/
import Quorum.Record.Round

namespace Quorum

/-- How many rounds beyond the next one a validator may open. -/
def catchUpAllowance : Nat := 2

/-- The rounds of a height, the current one, and who opened which round
ahead of time. -/
structure HeightLog where
  rounds : List RoundLog
  round : Round
  charges : List (Address × Round)
deriving DecidableEq

namespace HeightLog

-- ============================================================= rounds

/-- Put a round where its number belongs, over one of the same number. -/
def place (l : RoundLog) : List RoundLog → List RoundLog
  | [] => [l]
  | m :: ms =>
    if l.round < m.round then l :: m :: ms
    else if l.round = m.round then l :: ms
    else m :: place l ms

/-- A height before its first round: round 0 exists. -/
def start : HeightLog := ⟨[RoundLog.fresh 0], 0, []⟩

/-- The record of a round, if it exists. -/
def get? (h : HeightLog) (round : Round) : Option RoundLog :=
  h.rounds.find? (fun l => l.round == round)

/-- The record of a round, or what it would be when opened. -/
def getOrFresh (h : HeightLog) (round : Round) : RoundLog :=
  (h.get? round).getD (RoundLog.fresh round)

/-- Store a record under its round. -/
def put (h : HeightLog) (l : RoundLog) : HeightLog := { h with rounds := place l h.rounds }

/-- A record that was put in its place is found there, whether or not one was there
before. -/
theorem find?_place_self (l : RoundLog) (ms : List RoundLog) :
    (place l ms).find? (fun m => m.round == l.round) = some l := by
  induction ms with
  | nil => simp [place]
  | cons m ms ih =>
    unfold place
    split
    · simp
    · split
      · simp
      · rename_i other
        have apart : (m.round == l.round) = false := by simpa using fun h => other h.symm
        simp [apart, ih]

/-- To put a record in its place moves no other one out of sight. -/
theorem find?_place_of_ne {l : RoundLog} {round : Round} (h : round ≠ l.round)
    (ms : List RoundLog) :
    (place l ms).find? (fun m => m.round == round) = ms.find? (fun m => m.round == round) := by
  have apart : (l.round == round) = false := by simpa using fun e => h e.symm
  induction ms with
  | nil => simp [place, apart]
  | cons m ms ih =>
    unfold place
    split
    · simp [apart]
    · split
      · rename_i same
        have apart' : (m.round == round) = false := same ▸ apart
        simp [apart, apart']
      · cases hm : m.round == round
        · simp [hm, ih]
        · simp [hm]

/-- What is stored under a round is what is read there. -/
theorem get?_put_self (h : HeightLog) (l : RoundLog) : (h.put l).get? l.round = some l :=
  find?_place_self l h.rounds

/-- Storing a round leaves the others alone. -/
theorem get?_put_of_ne (h : HeightLog) {l : RoundLog} {round : Round} (ne : round ≠ l.round) :
    (h.put l).get? round = h.get? round :=
  find?_place_of_ne ne h.rounds

/-- Make sure that a round exists. -/
def openRound (h : HeightLog) (round : Round) : HeightLog :=
  if (h.get? round).isSome then h else h.put (RoundLog.fresh round)

/-- Make sure that `count` rounds from this one on exist. -/
def openRounds (h : HeightLog) : Nat → Nat → HeightLog
  | _, 0 => h
  | round, count + 1 => openRounds (h.openRound (UInt32.ofNat round)) (round + 1) count

/-- Move to a round, never back. The rounds passed over come into being
too. -/
def setRound (h : HeightLog) (round : Round) : Except Fault HeightLog :=
  if round < h.round then .error (.roundRegression h.round round)
  else
    .ok { h.openRounds h.round.toNat (round.toNat - h.round.toNat + 1) with round := round }

-- ========================================================== allowance

/-- How many rounds a validator opened ahead of time. -/
def charged (h : HeightLog) (address : Address) : Nat :=
  (h.charges.filter (fun charge => charge.1 == address)).length

/-- Whether a round is beyond the next one. -/
def isAhead (h : HeightLog) (round : Round) : Bool :=
  decide (h.round.toNat + 1 < round.toNat)

/-- Make sure that a round exists for input of this author, at the
author's charge where there is one; `none` when its allowance is spent. -/
def openFor? (h : HeightLog) (round : Round) (author : Address) : Option HeightLog :=
  if h.isAhead round && (h.get? round).isNone then
    if catchUpAllowance ≤ h.charged author then none
    else some { h.openRound round with charges := h.charges ++ [(author, round)] }
  else some (h.openRound round)

-- ============================================================== votes

/-- Count a vote in its round and kind. A round that was opened for it
stays open even when the tally refuses it. -/
def addVote (s : Scope) (h : HeightLog) (vote : Vote) : HeightLog × Except Fault Unit :=
  let ballot := vote.body
  if ballot.height ≠ s.height then
    (h, .error (.vote (.heightMismatch s.height ballot.height)))
  else if !s.validators.contains ballot.validator then
    (h, .error (.vote (.outsider ballot.validator)))
  else
    match h.openFor? ballot.round ballot.validator with
    | none => (h, .error (.vote (.allowanceSpent ballot.validator ballot.round)))
    | some h =>
      let log := h.getOrFresh ballot.round
      match log.tally? ballot.kind with
      | none => (h, .error (.vote (.uncountable ballot.kind)))
      | some tally =>
        match tally.add s vote with
        | .error fault => (h, .error fault)
        | .ok tally => (h.put (log.setTally ballot.kind tally), .ok ())

/-- The latest round up to the current one with a majority of prevotes
for a block, and that block's hash. -/
def proofOfLock? (h : HeightLog) : Option (Round × BlockHash) :=
  (h.rounds.filter (fun l => l.round ≤ h.round)).reverse.findSome? fun l =>
    match l.prevotes.majority with
    | some hash => if hash.isNil then none else some (l.round, hash)
    | none => none

end HeightLog

end Quorum
