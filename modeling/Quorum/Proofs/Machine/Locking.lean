/-
A lock is honoured until a later majority undoes it.

A machine that locked a block prevotes for no other one in a later round,
unless it has seen a majority of prevotes for that other one in a round in
between: after the lock's round and before the vote's.

# How the moments are tied together

A lock may move many times between the moment it is taken and the vote in
question, and a machine forgets the locks it had. What stays is that it
told of each of them. So the invariant (`Disciplined`) speaks of every
lock ever told of: its block has the majority of its round, which no later
vote changes, and the lock held now is from that round or a later one.

A prevote for another block than an old lock's then has one of two
grounds. Either the lock held now is on that block, and its round is the
one looked for; or the proposal names an earlier round that overrides the
lock, and that round is. Neither can be the old lock's own round, whose
majority is for another block.
-/
import Quorum.Proofs.Machine.Plain
import Quorum.Proofs.Machine.Signing

namespace Quorum

-- ======================================================= locks told of

/-- The lock that an effect tells of. -/
def Effect.lock? : Effect → Option (Round × BlockHash)
  | .emit (.quorumReached round hash .prevote) => some (round, hash)
  | _ => none

/-- The locks told of among effects, first one first. -/
def locksOf (asked : List Effect) : List (Round × BlockHash) :=
  asked.filterMap Effect.lock?

theorem locksOf_append (asked es : List Effect) :
    locksOf (asked ++ es) = locksOf asked ++ locksOf es :=
  List.filterMap_append

theorem locksOf_scheduling (s : Setup) (m : Machine) (round : Round)
    (kind : TimerKind) :
    locksOf (m.scheduling s round kind) = [] :=
  filterMap_scheduling s (fun _ _ => rfl) m round kind

theorem locksOf_opening [Crypto] (s : Setup) (w : World) (m : Machine)
    (round : Round) :
    locksOf (Machine.opening s w m round).2 = [] :=
  filterMap_opening s w m round (locksOf_scheduling s m round .propose)
    (fun _ _ => rfl) (fun _ => rfl) (fun _ => rfl)

/-- A hash that the machine has grounds to prevote for in this round: its
lock allows it, and the earlier round a proposal names had its majority
for it. -/
def Machine.Grounds (m : Machine) (hash : BlockHash) : Prop :=
  ∃ validRound, Work.lockAllows m.locked validRound hash = true
    ∧ ∀ earlier, validRound = some earlier →
      earlier < m.round ∧ m.prevoteMajority? earlier = some hash

/-- What an act does to the lock, and what it prevotes for. -/
inductive Grips (m : Machine) (es : List Effect) (m' : Machine) : Prop
  /-- It leaves the lock, and prevotes for nothing or with grounds. -/
  | keeps (locked : m'.locked = m.locked) (silent : locksOf es = [])
      (grounds : ∀ ballot ∈ ballotsOf es,
        ballot.kind = .prevote → ballot.hash ≠ .nil →
        m.step = .propose ∧ ballot.round = m.round ∧ m.Grounds ballot.hash)
  /-- It locks what has the majority of this round, and tells of it. -/
  | locks (pinned : Pinned) (locked : m'.locked = some pinned)
      (here : pinned.round = m.round)
      (step : m.step = .prevote)
      (told : locksOf es = [(pinned.round, pinned.hash)])
      (majority : m.prevoteMajority? m.round = some pinned.hash)
      (ballots : ballotsOf es = [])
      (stays : m'.round = m.round) (still : m'.step = m.step)

/-- What leaves the lock, tells of none and signs no vote keeps it. -/
theorem grips_of_still {m : Machine} (m' : Machine) (es : List Effect)
    (locked : m'.locked = m.locked) (silent : locksOf es = [])
    (ballots : ballotsOf es = []) :
    Grips m es m' := by
  refine .keeps locked silent fun ballot signed => ?_
  rw [ballots] at signed
  cases signed

theorem grips_of_relogs {m m' : Machine} {es : List Effect}
    (silent : locksOf es = []) (ballots : ballotsOf es = [])
    (relogs : m.Relogs m') : Grips m es m' := by
  obtain ⟨log, rfl, -⟩ := relogs
  exact grips_of_still _ es rfl silent ballots

/-- Casting leaves the lock, and a prevote for a block needs grounds. -/
theorem grips_of_casting {s : Setup} {w : World} {m m' : Machine}
    {hash : BlockHash} {es : List Effect} (kind : VoteKind)
    (asks : ballotsOf es = ballotsOf (Machine.casting s w m.round hash kind))
    (silent : locksOf es = locksOf (Machine.casting s w m.round hash kind))
    (locked : m'.locked = m.locked)
    (grounds : kind = .prevote → hash ≠ .nil →
      m.step = .propose ∧ m.Grounds hash) :
    Grips m es m' := by
  have none_ : locksOf (Machine.casting s w m.round hash kind) = [] :=
    filterMap_casting s (fun _ => rfl) w m.round hash kind
  refine .keeps locked (silent.trans none_) fun ballot signed prevote real => ?_
  rw [asks] at signed
  rcases ballotsOf_casting s w m.round hash kind
    with empty | ⟨cast, one, round, voted, same⟩
  · rw [empty] at signed
    cases signed
  · rw [one] at signed
    rw [List.mem_singleton.1 signed] at prevote real ⊢
    rw [voted] at real ⊢
    obtain ⟨step, grounds⟩ := grounds (same.symm.trans prevote) real
    exact ⟨step, round, grounds⟩

/-- A ripe proposal that is prevoted for is prevoted for with grounds. -/
theorem grounds_of_prevoteHash {s : Setup} {w : World} {m : Machine}
    {offer : Offer} (ripe : Work.isRipe m offer = true)
    (real : m.prevoteHash s w offer ≠ .nil) :
    m.Grounds (m.prevoteHash s w offer) := by
  unfold Machine.prevoteHash at real ⊢
  split
  case isFalse refused =>
    rw [if_neg refused] at real
    exact absurd rfl real
  case isTrue accepted =>
    rw [Bool.and_eq_true] at accepted
    refine ⟨offer.validRound, accepted.2, fun earlier named => ?_⟩
    unfold Work.isRipe at ripe
    rw [named] at ripe
    simpa using ripe

-- ======================================================== the invariant

/-- A majority of prevotes for a hash, of a round in between. -/
def Machine.MajorityBetween (m : Machine) (hash : BlockHash)
    (round round' : Round) : Prop :=
  ∃ between, round < between ∧ between < round'
    ∧ m.prevoteMajority? between = some hash

/-- What is true of every lock that the machine told of. -/
structure Disciplined (m : Machine) (asked : List Effect) : Prop where
  signs : SignsForward m asked
  /-- The lock held now was told of. -/
  told : ∀ lock, m.locked = some lock → (lock.round, lock.hash) ∈ locksOf asked
  /-- A block that was locked had the majority of its round. -/
  majority : ∀ round hash, (round, hash) ∈ locksOf asked →
    m.prevoteMajority? round = some hash
  /-- Locks are of this step at the latest. -/
  reached : ∀ round hash, (round, hash) ∈ locksOf asked →
    m.Reached round .prevote
  /-- Since a lock was told of, one of its round or a later one is held. -/
  held : ∀ round hash, (round, hash) ∈ locksOf asked →
    ∃ lock, m.locked = some lock ∧ round ≤ lock.round
  /-- Prevotes for another block, in a later round, are excused. -/
  excused : ∀ round hash, (round, hash) ∈ locksOf asked →
    ∀ ballot ∈ ballotsOf asked, ballot.kind = .prevote →
      round < ballot.round → ballot.hash ≠ .nil → ballot.hash ≠ hash →
      m.MajorityBetween ballot.hash round ballot.round

namespace Disciplined

variable {m m' : Machine} {asked es : List Effect}

/-- Two locks of one round are on one block. -/
theorem hash_eq_of_round_eq (h : Disciplined m asked) {round round' : Round}
    {hash hash' : BlockHash} (told : (round, hash) ∈ locksOf asked)
    (told' : (round', hash') ∈ locksOf asked) (same : round = round') :
    hash = hash' := by
  have first := h.majority round hash told
  rw [same, h.majority round' hash' told'] at first
  exact (Option.some.inj first).symm

/-- As long as the machine stays in the round in which it told of a lock, it
holds it. -/
theorem holds (h : Disciplined m asked) {round : Round} {hash : BlockHash}
    (told : (round, hash) ∈ locksOf asked) (here : m.round = round) :
    ∃ block, m.locked = some ⟨round, hash, block⟩ := by
  obtain ⟨lock, locked, later⟩ := h.held _ _ told
  have tells := h.told lock locked
  have same : lock.round = round := by
    rcases h.reached _ _ tells with before | ⟨there, -⟩
    · grind
    · exact there.trans here
  have one : lock.hash = hash := h.hash_eq_of_round_eq tells told same
  obtain ⟨_, _, block⟩ := lock
  cases same
  cases one
  exact ⟨block, locked⟩

/-- Grounds for another block than an old lock's are a majority since. -/
theorem between_of_grounds (h : Disciplined m asked) (step : m.step = .propose)
    {round : Round} {hash other : BlockHash}
    (told : (round, hash) ∈ locksOf asked) (grounds : m.Grounds other)
    (differs : other ≠ hash) : m.MajorityBetween other round m.round := by
  obtain ⟨lock, locked, later⟩ := h.held round hash told
  have tells := h.told lock locked
  have before : lock.round < m.round := by
    rcases h.reached _ _ tells with before | ⟨-, late⟩
    · exact before
    · rw [step] at late
      exact absurd late (by decide)
  -- if the lock held now is on the other block, its own round is in between
  have by_lock : lock.hash = other → m.MajorityBetween other round m.round := by
    intro same
    refine ⟨lock.round, ?_, before, same ▸ h.majority _ _ tells⟩
    have apart : round ≠ lock.round := fun equal =>
      differs (same.symm.trans (h.hash_eq_of_round_eq tells told equal.symm))
    grind
  obtain ⟨validRound, allows, named⟩ := grounds
  unfold Work.lockAllows at allows
  rw [locked] at allows
  cases validRound with
  | none => exact by_lock (by simpa using allows)
  | some earlier =>
    obtain ⟨passed, majority⟩ := named earlier rfl
    -- the lock allows another block by a later majority, or is on that block itself
    rcases Bool.or_eq_true _ _ ▸ allows with overrides | same
    · refine ⟨earlier, ?_, passed, majority⟩
      have apart : round ≠ earlier := by
        intro same
        rw [← same, h.majority round hash told] at majority
        exact differs (Option.some.inj majority).symm
      have overrides := of_decide_eq_true overrides
      grind
    · exact by_lock (by simpa using same)

end Disciplined

theorem Machine.MajorityBetween.mono {m m' : Machine} {hash : BlockHash}
    {round round' : Round} (h : m.MajorityBetween hash round round')
    (grows : m.log.Grows m'.log) :
    m'.MajorityBetween hash round round' := by
  obtain ⟨between, after, before, majority⟩ := h
  exact ⟨between, after, before, grows.prevoteMajority majority⟩

/-- Every act keeps it: what grips the lock, moves forward, and adds to the
log. -/
theorem Disciplined.keeps {m m' : Machine} {asked es : List Effect}
    (h : Disciplined m asked) (moves : Moves m es m') (grips : Grips m es m')
    (grows : m.log.Grows m'.log) :
    Disciplined m' (asked ++ es) := by
  have went := h.signs.forward moves
  cases grips with
  | keeps locked silent grounds =>
    have sameLocks : locksOf (asked ++ es) = locksOf asked :=
      filterMap_append_of_nil silent
    constructor
    case signs => exact h.signs.keeps moves
    case told => rw [locked, sameLocks]; exact h.told
    case majority =>
      rw [sameLocks]
      exact fun round hash told =>
        grows.prevoteMajority (h.majority round hash told)
    case reached =>
      rw [sameLocks]
      exact fun round hash told => (h.reached round hash told).trans went
    case held => rw [locked, sameLocks]; exact h.held
    case excused =>
      rw [sameLocks]
      intro round hash told ballot signed prevote later real other
      rw [ballotsOf_append] at signed
      -- what was signed before stays excused, and what is signed now has grounds
      rcases List.mem_append.1 signed with earlier | new
      · have before := h.excused round hash told ballot earlier prevote later
        exact (before real other).mono grows
      · obtain ⟨step, here, grounds⟩ := grounds ballot new prevote real
        rw [here]
        exact (h.between_of_grounds step told grounds other).mono grows
  | locks pinned locked here step tells majority ballots stays still =>
    have moreLocks : locksOf (asked ++ es) = locksOf asked
      ++ [(pinned.round, pinned.hash)] := by
      rw [locksOf_append, tells]
    have old_or_new : ∀ {round hash}, (round, hash) ∈ locksOf (asked ++ es) →
        (round, hash) ∈ locksOf asked ∨ round = pinned.round
        ∧ hash = pinned.hash := by
      intro round hash told
      rw [moreLocks, List.mem_append, List.mem_singleton, Prod.mk.injEq] at told
      exact told
    have sameBallots : ballotsOf (asked ++ es) = ballotsOf asked :=
      filterMap_append_of_nil ballots
    constructor
    case signs => exact h.signs.keeps moves
    case told =>
      intro lock holds
      rw [locked] at holds
      cases holds
      rw [moreLocks]
      exact List.mem_append_right _ (List.mem_singleton_self _)
    case majority =>
      intro round hash told
      rcases old_or_new told with old | ⟨rfl, rfl⟩
      · exact grows.prevoteMajority (h.majority round hash old)
      · exact grows.prevoteMajority (here ▸ majority)
    case reached =>
      intro round hash told
      rcases old_or_new told with old | ⟨rfl, rfl⟩
      · exact (h.reached round hash old).trans went
      · exact Or.inr ⟨here.trans stays.symm, by rw [still, step]; decide⟩
    case held =>
      intro round hash told
      -- the new lock is of the current round, which no lock told of before is past
      refine ⟨pinned, locked, ?_⟩
      rcases old_or_new told with old | ⟨rfl, -⟩
      · rw [here]
        rcases h.reached round hash old with before | ⟨same, -⟩
        · exact UInt32.le_of_lt before
        · exact same ▸ UInt32.le_refl _
      · exact UInt32.le_refl _
    case excused =>
      intro round hash told ballot signed prevote later real other
      rw [sameBallots] at signed
      rcases old_or_new told with old | ⟨rfl, -⟩
      · have before := h.excused round hash old ballot signed prevote later
        exact (before real other).mono grows
      · -- nothing was signed for a later round than this one
        rcases h.signs.reached ballot signed with before | ⟨same, -⟩ <;> grind

-- ================================================================ acts

section

variable [Crypto] {s : Setup} {w : World} {input : Input}

/-- Every act leaves the lock or takes it, and prevotes with grounds. -/
theorem Act.grips {m m' : Machine} {es : List Effect}
    (act : Act s w input m es m') :
    Grips m es m' := by
  cases act with
  | judge => exact grips_of_still _ [] rfl rfl rfl
  | count => exact grips_of_still _ [] rfl rfl rfl
  | claim claim =>
    exact grips_of_relogs (filterMap_answering (fun _ => rfl) _)
      (filterMap_answering (fun _ => rfl) _)
      (Machine.addClaim_relogs s w m claim)
  | passOn holdings votes =>
    exact grips_of_relogs (filterMap_forward (fun _ => rfl) votes)
      (filterMap_forward (fun _ => rfl) votes) (.refl m)
  | takeUp => exact grips_of_still _ [] rfl rfl rfl
  | beginRound round log cause moved =>
    obtain ⟨opened, same, -⟩ := Machine.opening_relogs s w
      { m with log := log, round := round, step := .propose } round
    rw [same]
    exact grips_of_still _ _ rfl (locksOf_opening s w _ round)
      (ballotsOf_opening s w _ round)
  | prevote proposal step held ripe =>
    exact grips_of_casting .prevote rfl rfl rfl
      fun _ real => ⟨step, grounds_of_prevoteHash ripe real⟩
  | prevoteNothing step fired =>
    exact grips_of_casting .prevote rfl rfl rfl fun _ real => absurd rfl real
  | precommit hash step fired =>
    exact grips_of_casting .precommit rfl rfl rfl nofun
  | precommitNothing step fired =>
    exact grips_of_casting .precommit rfl rfl rfl nofun
  | lock proposal pinned step held pins unseen majority valid marked seen =>
    obtain ⟨log, after, -⟩ := Machine.locked_eq seen
    have here : pinned.round = m.round := by rw [pins]
    rw [after]
    refine .locks pinned rfl here step ?_ majority ?_ rfl rfl
    · rw [locksOf_append, locksOf_scheduling, here]
      rfl
    · rw [ballotsOf_append, ballotsOf_scheduling]
      rfl
  | remember => exact grips_of_still _ [] rfl rfl rfl
  | discard => exact grips_of_still _ [_] rfl rfl rfl
  | wait kind waits =>
    exact grips_of_relogs (locksOf_scheduling s m _ _)
      (ballotsOf_scheduling s m _ _)
      (Machine.armed_relogs m m.round kind.slot)
  | decideBlock proposal pinned started undecided held pins majority valid
      pinning decided =>
    obtain ⟨log, after, -⟩ := Machine.decided_eq decided
    rw [after]
    exact grips_of_still _ _ rfl (locksOf_scheduling s pinning _ _)
      (ballotsOf_scheduling s pinning _ _)
  | finish => exact grips_of_still _ [_] rfl rfl rfl
  | complete => exact grips_of_still _ [_, _] rfl rfl rfl
  | report => exact grips_of_still _ [_] rfl rfl rfl

-- =============================================================== lives

variable {admits : Life → Input → Prop} {l l' : Life}

/-- Discipline holds as long as the machine lives, whatever it is given. -/
theorem Reachable.disciplined (h : Reachable s admits l) :
    Disciplined l.machine l.asked := by
  refine Leads.keeps (P := fun _ m asked => Disciplined m asked) ?_
    (fun _ held => held) h ?_
  · intro l w input m m' es asked _ _ act held
    exact held.keeps act.moves act.grips act.log_keeps.grows
  · have rest : Reachable s admits (Life.initial s) := .here
    exact ⟨rest.signsForward, nofun, nofun, nofun, nofun, nofun⟩

/-- A machine locked this block in this round: it holds the lock, or it told
of it and may have lost it since, even within one input. -/
def Life.Locked (l : Life) (round : Round) (hash : BlockHash) : Prop :=
  (∃ lock, l.machine.locked = some lock ∧ lock.round = round ∧ lock.hash = hash)
    ∨ .emit (.quorumReached round hash .prevote) ∈ l.asked

/-- Either way it told of the lock. -/
theorem Life.Locked.told {round : Round} {hash : BlockHash}
    (locked : l.Locked round hash) (h : Reachable s admits l) :
    (round, hash) ∈ locksOf l.asked := by
  rcases locked with ⟨lock, holds, rfl, rfl⟩ | told
  · exact h.disciplined.told lock holds
  · exact List.mem_filterMap.2 ⟨_, told, rfl⟩

/-- A machine that locked a block at some moment, and has prevoted for
another block in a later round than the lock's when a later moment comes,
holds more than two thirds of the power in prevotes for that other block,
of one round after the lock's and before the vote's. -/
theorem majority_between_of_prevote_past_lock (start : Reachable s admits l)
    (leads : Leads s admits l l') {round : Round} {hash : BlockHash}
    (locked : l.Locked round hash) {ballot : Ballot}
    (signed : ballot ∈ l'.ballots) (prevote : ballot.kind = .prevote)
    (later : round < ballot.round) (real : ballot.hash ≠ .nil)
    (other : ballot.hash ≠ hash) :
    ∃ between tally, round < between ∧ between < ballot.round
      ∧ l'.machine.log.tallyOf? between .prevote = some tally
      ∧ tally.majority = some ballot.hash
      ∧ 2 * s.scope.validators.total.toNat
        < 3 * (tally.powerFor ballot.hash).toNat := by
  have reached : Reachable s admits l' := Leads.trans start leads
  have told : (round, hash) ∈ locksOf l'.asked :=
    (leads.extends.2.filterMap _).subset (locked.told start)
  obtain ⟨between, after, before, majority⟩ :=
    reached.disciplined.excused _ _ told ballot signed prevote later real other
  rw [Machine.prevoteMajority?_eq] at majority
  obtain ⟨tally, found, majority⟩ := Option.bind_eq_some_iff.1 majority
  refine ⟨between, tally, after, before, found, majority, ?_⟩
  have backed := (reached.log_sound.tallyOf? found).backed _ majority
  exact (ValidatorSet.exceedsTwoThirds_iff _ _).1 backed

end

open scoped Plain

namespace Plain

/-- The first of four validators has locked the empty block in round 0. -/
def locking : Life :=
  Life.after (setup (address 1)) ((world, .start) :: offer 2 0 none (block 0)
    :: [2, 3, 4].map fun byte => vote byte 0 (block 0).hash .prevote)

/-- Then another block has the majority of round 1, and is offered again
in round 2. -/
def unlocking : Life :=
  locking.run (setup (address 1))
    (([2, 3, 4].map fun byte => vote byte 1 (block 1).hash .prevote)
      ++ ([2, 3].map fun byte => vote byte 2 .nil .prevote)
      ++ [offer 4 2 (some 1) (block 1)])

/-- The vote it casts there. -/
def unlocked : Ballot := ⟨1, 2, (block 1).hash, 0, address 1, 1, .prevote⟩

end Plain

open Plain in
/-- A lock of round 0 is overridden in round 2, by the majority of round 1. -/
theorem majority_between_of_unlocked :
    Reachable (setup (address 1)) ownTimers locking
      ∧ Leads (setup (address 1)) ownTimers locking unlocking
      ∧ locking.Locked 0 (block 0).hash ∧ unlocked ∈ unlocking.ballots
      ∧ unlocked.kind = .prevote ∧ 0 < unlocked.round ∧ unlocked.hash ≠ .nil
      ∧ unlocked.hash ≠ (block 0).hash
      ∧ ∃ between tally, 0 < between ∧ between < unlocked.round
        ∧ unlocking.machine.log.tallyOf? between .prevote = some tally
        ∧ tally.majority = some unlocked.hash
        ∧ 2 * committee.total.toNat
          < 3 * (tally.powerFor unlocked.hash).toNat := by
  have start : Reachable (setup (address 1)) ownTimers locking :=
    leads_run _ _ _ fun turn given =>
      ownTimers_of_untimed (by revert turn; decide)
  have leads : Leads (setup (address 1)) ownTimers locking unlocking :=
    leads_run _ _ _ fun turn given =>
      ownTimers_of_untimed (by revert turn; decide)
  have holds : locking.machine.locked = some ⟨0, (block 0).hash, block 0⟩ := by
    decide +kernel
  have locked : locking.Locked 0 (block 0).hash := Or.inl ⟨_, holds, rfl, rfl⟩
  have signed : unlocked ∈ unlocking.ballots := by decide +kernel
  have real : unlocked.hash ≠ .nil := Plain.digest_ne_nil _
  have other : unlocked.hash ≠ (block 0).hash := by decide +kernel
  exact ⟨start, leads, locked, signed, rfl, by decide, real, other,
    majority_between_of_prevote_past_lock start leads locked signed rfl
      (by decide) real other⟩

end Quorum
