/-
A machine precommits what it locked, and decides what was precommitted.

A precommit for a block is cast when a timer fires, and such a timer is
armed by locking that block in that round. So as long as the timers that
fire are the machine's own, every block it ever precommitted it had locked
in the round of the precommit, and with that the block had the majority of
prevotes of that round.

A decision is on a block that was proposed under its own hash, and that
hash has a majority of precommits in the round of the decision. It needs
nothing of the timers.
-/
import Quorum.Proofs.Machine.Finality
import Quorum.Proofs.Machine.Locking

namespace Quorum

-- ======================================================= armed precommits

/-- The round and block that a timer would precommit. -/
def Effect.arming? : Effect → Option (Round × BlockHash)
  | .schedule ⟨_, round, .precommitWait hash⟩ _ =>
    if hash.isNil then none else some (round, hash)
  | _ => none

/-- The blocks that will be precommitted, with their rounds, among effects. -/
def armingsOf (asked : List Effect) : List (Round × BlockHash) :=
  asked.filterMap Effect.arming?

/-- A timer that was scheduled for a block is found among them. -/
theorem mem_armingsOf {asked : List Effect} {timer : Timer} {hash : BlockHash}
    (scheduled : Scheduled asked timer)
    (kind : timer.kind = .precommitWait hash) (real : hash ≠ .nil) :
    (timer.round, hash) ∈ armingsOf asked := by
  obtain ⟨delay, asks⟩ := scheduled
  refine List.mem_filterMap.2 ⟨_, asks, ?_⟩
  obtain ⟨height, round, _⟩ := timer
  subst kind
  show (if hash.isNil then none else some (round, hash)) = some (round, hash)
  exact if_neg (by simpa [BlockHash.isNil] using real)

/-- Arming a timer arms a precommit only for the block it names. -/
theorem mem_armingsOf_scheduling {s : Setup} {m : Machine} {round : Round}
    {kind : TimerKind} {armed : Round × BlockHash}
    (asks : armed ∈ armingsOf (m.scheduling s round kind)) :
    armed.1 = round ∧ kind = .precommitWait armed.2 ∧ armed.2 ≠ .nil := by
  unfold Machine.scheduling at asks
  split at asks
  case isTrue => cases asks
  case isFalse =>
    obtain ⟨effect, only, names⟩ := List.mem_filterMap.1 asks
    rw [List.mem_singleton.1 only] at names
    cases kind with
    | precommitWait hash =>
      unfold Effect.arming? at names
      dsimp only at names
      split at names
      case isTrue => cases names
      case isFalse real =>
        cases names
        exact ⟨rfl, rfl, by simpa [BlockHash.isNil] using real⟩
    | _ => cases names

-- ================================================================ acts

/-- The input is a timer at which this precommit may be cast: the one armed
for its hash, or, if it is for nothing, the one that bounds the wait for a
majority of prevotes. -/
def FiredFor (s : Setup) (input : Input) (ballot : Ballot) : Prop :=
  input = .timer ⟨s.scope.height, ballot.round, .precommitWait ballot.hash⟩
    ∨ input = .timer ⟨s.scope.height, ballot.round, .prevote⟩
      ∧ ballot.hash = .nil

/-- What an act does towards precommits: it arms only what it locks, and
casts only what a timer of its round fired for. -/
structure Arms (s : Setup) (input : Input) (m : Machine) (es : List Effect) :
    Prop where
  armed : ∀ armed ∈ armingsOf es, armed ∈ locksOf es
  fired : ∀ ballot ∈ ballotsOf es, ballot.kind = .precommit →
    ballot.round = m.round ∧ FiredFor s input ballot

/-- Where no timer is asked for and nothing is voted there is nothing to show. -/
theorem arms_of_silent {s : Setup} {input : Input} {m : Machine}
    (es : List Effect) (silent : armingsOf es = [])
    (ballots : ballotsOf es = []) : Arms s input m es where
  armed armed asks := by
    rw [silent] at asks
    cases asks
  fired ballot signed := by
    rw [ballots] at signed
    cases signed

/-- A timer that precommits no block arms no precommit. -/
theorem armingsOf_scheduling_eq_nil {s : Setup} {m : Machine} {round : Round}
    {kind : TimerKind}
    (other : ∀ hash, kind = .precommitWait hash → hash = .nil) :
    armingsOf (m.scheduling s round kind) = [] := by
  refine List.eq_nil_iff_forall_not_mem.2 fun armed asks => ?_
  obtain ⟨-, kind, real⟩ := mem_armingsOf_scheduling asks
  exact real (other _ kind)

/-- A vote arms nothing. If it is a precommit, a timer fired for it. -/
theorem arms_of_casting {s : Setup} {w : World} {input : Input} {m : Machine}
    {hash : BlockHash} {es : List Effect} (kind : VoteKind)
    (asks : ballotsOf es = ballotsOf (Machine.casting s w m.round hash kind))
    (silent : armingsOf es = armingsOf (Machine.casting s w m.round hash kind))
    (fired : kind = .precommit →
      input = .timer ⟨s.scope.height, m.round, .precommitWait hash⟩
        ∨ input = .timer ⟨s.scope.height, m.round, .prevote⟩ ∧ hash = .nil) :
    Arms s input m es where
  armed armed arms := by
    have none_ : armingsOf (Machine.casting s w m.round hash kind) = [] :=
      filterMap_casting s (fun _ => rfl) w m.round hash kind
    rw [silent, none_] at arms
    cases arms
  fired ballot signed precommit := by
    rw [asks] at signed
    rcases ballotsOf_casting s w m.round hash kind
      with empty | ⟨cast, one, here, voted, same⟩
    · rw [empty] at signed
      cases signed
    · rw [one] at signed
      rw [List.mem_singleton.1 signed] at precommit ⊢
      unfold FiredFor
      rw [here, voted]
      exact ⟨rfl, fired (same.symm.trans precommit)⟩

/-- What is armed or precommitted for a block was locked before. -/
structure LocksFirst (asked : List Effect) : Prop where
  armed : ∀ armed ∈ armingsOf asked, armed ∈ locksOf asked
  precommits : ∀ ballot ∈ ballotsOf asked,
    ballot.kind = .precommit → ballot.hash ≠ .nil →
    (ballot.round, ballot.hash) ∈ locksOf asked

/-- What was locked stays so. A timer that fires was armed before, so the block it
precommits was locked. -/
theorem LocksFirst.keeps {s : Setup} {input : Input} {m : Machine}
    {asked before es : List Effect} (h : LocksFirst asked)
    (own : ∀ timer, input = .timer timer → Scheduled before timer)
    (past : before <+: asked) (arms : Arms s input m es) :
    LocksFirst (asked ++ es) := by
  have old : ∀ {lock}, lock ∈ locksOf asked → lock ∈ locksOf (asked ++ es) := by
    intro lock told
    rw [locksOf_append]
    exact List.mem_append_left _ told
  have new : ∀ {lock}, lock ∈ locksOf es → lock ∈ locksOf (asked ++ es) := by
    intro lock told
    rw [locksOf_append]
    exact List.mem_append_right _ told
  constructor
  case armed =>
    intro armed asks
    unfold armingsOf at asks
    rw [List.filterMap_append] at asks
    rcases List.mem_append.1 asks with earlier | now
    · exact old (h.armed armed earlier)
    · exact new (arms.armed armed now)
  case precommits =>
    intro ballot signed precommit real
    rw [ballotsOf_append] at signed
    rcases List.mem_append.1 signed with earlier | now
    · exact old (h.precommits ballot earlier precommit real)
    · rcases (arms.fired ballot now precommit).2 with fired | ⟨-, none_⟩
      · obtain ⟨delay, scheduled⟩ := own _ fired
        exact old (h.armed _
          (mem_armingsOf ⟨delay, past.subset scheduled⟩ rfl real))
      · exact absurd none_ real

section

variable [Crypto] {s : Setup} {w : World} {input : Input}

/-- To open a round arms no precommit. -/
theorem armingsOf_opening (m : Machine) (round : Round) :
    armingsOf (Machine.opening s w m round).2 = [] :=
  filterMap_opening s w m round (armingsOf_scheduling_eq_nil nofun)
    (fun _ _ => rfl) (fun _ => rfl) (fun _ => rfl)

/-- Every act arms only what it locks, and precommits only what was armed. -/
theorem Act.arms {m m' : Machine} {es : List Effect}
    (act : Act s w input m es m') :
    Arms s input m es := by
  cases act with
  | judge => exact arms_of_silent [] rfl rfl
  | count => exact arms_of_silent [] rfl rfl
  | claim claim =>
    exact arms_of_silent _ (filterMap_answering (fun _ => rfl) _)
      (filterMap_answering (fun _ => rfl) _)
  | passOn holdings votes =>
    exact arms_of_silent _ (filterMap_forward (fun _ => rfl) votes)
      (filterMap_forward (fun _ => rfl) votes)
  | takeUp => exact arms_of_silent [] rfl rfl
  | beginRound round log cause moved =>
    exact arms_of_silent _ (armingsOf_opening _ round)
      (ballotsOf_opening s w _ round)
  | prevote => exact arms_of_casting .prevote rfl rfl nofun
  | prevoteNothing => exact arms_of_casting .prevote rfl rfl nofun
  | precommit hash step fired =>
    exact arms_of_casting .precommit rfl rfl fun _ => Or.inl fired
  | precommitNothing step fired =>
    exact arms_of_casting .precommit rfl rfl fun _ => Or.inr ⟨fired, rfl⟩
  | lock proposal pinned step held pins unseen majority valid marked seen =>
    constructor
    case armed =>
      intro armed asks
      have tells : (m.round, pinned.hash) ∈ locksOf
          (marked.scheduling s m.round (.precommitWait pinned.hash)
            ++ [.emit (.quorumReached m.round pinned.hash .prevote)]) := by
        rw [locksOf_append]
        exact List.mem_append_right _ List.mem_cons_self
      -- only the timer arms anything, the event does not
      have asks : armed ∈ armingsOf
          (marked.scheduling s m.round (.precommitWait pinned.hash)) := by
        unfold armingsOf at asks
        rw [List.filterMap_append] at asks
        exact (List.mem_append.1 asks).resolve_right nofun
      obtain ⟨here, kind, -⟩ := mem_armingsOf_scheduling asks
      obtain ⟨round, hash⟩ := armed
      cases here
      cases kind
      exact tells
    case fired =>
      intro ballot signed
      rw [ballotsOf_append, ballotsOf_scheduling] at signed
      cases signed
  | remember => exact arms_of_silent [] rfl rfl
  | discard => exact arms_of_silent [_] rfl rfl
  | wait kind waits =>
    refine arms_of_silent _ (armingsOf_scheduling_eq_nil ?_)
      (ballotsOf_scheduling s m _ _)
    intro hash awaited
    cases waits with
    | prevotes => cases awaited
    | precommits => cases awaited
    -- a majority for nothing is precommitted as nothing
    | nothing =>
      cases awaited
      rfl
  | decideBlock proposal pinned started undecided held pins majority valid
      pinning decided =>
    exact arms_of_silent _ (armingsOf_scheduling_eq_nil (m := pinning) nofun)
      (ballotsOf_scheduling s pinning _ _)
  | finish => exact arms_of_silent [_] rfl rfl
  | complete => exact arms_of_silent [_, _] rfl rfl
  | report => exact arms_of_silent [_] rfl rfl

-- =============================================================== lives

variable {admits : Life → Input → Prop} {l : Life}

/-- With its own timers only, a machine locks what it precommits. -/
theorem Reachable.locksFirst (h : Reachable s ownTimers l) :
    LocksFirst l.asked := by
  refine Leads.keeps (P := fun _ _ asked => LocksFirst asked) ?_
    (fun _ held => held) h ⟨nofun, nofun⟩
  intro l w input m m' es asked own past act held
  exact held.keeps own past act.arms

-- =========================================================== decisions

/-- What a decision rests on: a majority of precommits of its round, and a
proposal of its block that was given, under the block's own hash and of this
height. -/
structure Decides (s : Setup) (given : List Input) (m : Machine) (d : Pinned) :
    Prop where
  majority : m.precommitMajority? d.round = some d.hash
  hash_eq : d.block.hash = d.hash
  height_eq : d.block.height = s.scope.height
  offered : ∃ proposal, .message (.proposal proposal) ∈ given
    ∧ proposal.body.block = d.block

/-- What all decisions of a machine rest on, with the record they are read
off. -/
structure Decided (s : Setup) (given : List Input) (m : Machine) : Prop where
  sound : m.log.Sound s.scope (Heard given) (Offered s given)
  decides : ∀ d, m.decision = some d → Decides s given m d

/-- What is given later takes nothing from what a decision rests on. -/
theorem Decided.more {given : List Input} {m : Machine} (h : Decided s given m)
    (input : Input) : Decided s (given ++ [input]) m where
  sound := log_sound_append h.sound [input]
  decides d decided := by
    have rests := h.decides d decided
    obtain ⟨proposal, offered, block⟩ := rests.offered
    exact { rests with
      offered := ⟨proposal, List.mem_append_left _ offered, block⟩ }

/-- A decision is kept, or made now on the proposal held and its majority. -/
theorem Decided.keeps {given : List Input} {m m' : Machine} {es : List Effect}
    (h : Decided s (given ++ [input]) m) (act : Act s w input m es m') :
    Decided s (given ++ [input]) m' := by
  have grows := act.log_keeps.grows
  constructor
  case sound => exact act.log_sound h.sound
  case decides =>
    intro d decided
    have kept : m'.decision = m.decision → Decides s (given ++ [input]) m' d := by
      intro same
      have rests := h.decides d (same ▸ decided)
      exact { rests with majority := grows.precommitMajority rests.majority }
    cases act.concludes with
    | goesOn decision => exact kept decision
    | begins _ decision => exact kept decision
    | completes _ _ _ decision => exact kept decision
    | decides proposal pinned held majority pins _ _ now =>
      rw [now, pins] at decided
      cases decided
      obtain ⟨given, m₀, faultless⟩ := offered_of_proposal? h.sound held
      obtain ⟨hash, height⟩ := block_of_proposalFault? faultless
      exact ⟨grows.precommitMajority majority, hash, height, proposal, given, rfl⟩

/-- Whatever a machine is given, its decision rests on that. -/
theorem Reachable.decided (h : Reachable s admits l) :
    Decided s l.given l.machine := by
  refine Leads.keeps (P := fun given m _ => Decided s given m) ?_ ?_ h
    ⟨HeightLog.sound_start s.scope _ _, nofun⟩
  · intro l w input m m' es asked _ _ act held
    exact held.keeps act
  · intro given m asked input held
    exact held.more input

/-- So a decision has all that it needs. -/
theorem Reachable.decides (h : Reachable s admits l) {d : Pinned}
    (decided : l.machine.decision = some d) :
    Decides s l.given l.machine d :=
  h.decided.decides d decided

end

end Quorum
