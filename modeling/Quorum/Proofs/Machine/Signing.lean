/-
A machine signs nothing twice.

Whatever a machine is given, it signs at most one prevote and at most one
precommit a round and at most one proposal a round, its votes go forward
from round to round, and within a round the prevote comes first.

# The invariant

Votes are ordered by their round and, in one round, by the step they
belong to. Seen that way the votes a machine signed are strictly
ascending, and none of them is past where the machine is now
(`SignsForward`). An act either leaves the machine's place alone or moves
it forward inside the round, or signs one vote for a step that lies
between the old place and the new, or begins a later round. That is all
`Act.moves` says, and the invariant is kept by each of the three.

The one arithmetical point is the round after a round without a decision:
adding one wraps at the largest round, but the log refuses to move back,
so a round that does begin is a later one.
-/
import Quorum.Proofs.Machine.Recorded

namespace Quorum

-- ===================================================== what was signed

/-- The ballot of a vote that is signed and sent. -/
def Effect.ballot? : Effect → Option Ballot
  | .publish (.vote vote) => some vote.body
  | _ => none

/-- The offer of a proposal that is signed and sent. -/
def Effect.offer? : Effect → Option Offer
  | .publish (.proposal proposal) => some proposal.body
  | _ => none

/-- The ballots among effects, first one first. -/
def ballotsOf (asked : List Effect) : List Ballot :=
  asked.filterMap Effect.ballot?

/-- The offers among effects, first one first. -/
def offersOf (asked : List Effect) : List Offer := asked.filterMap Effect.offer?

/-- The ballots cast so far. -/
def Life.ballots (l : Life) : List Ballot := ballotsOf l.asked

/-- The offers made so far. -/
def Life.offers (l : Life) : List Offer := offersOf l.asked

/-- What is signed later comes later. -/
theorem ballotsOf_append (asked es : List Effect) :
    ballotsOf (asked ++ es) = ballotsOf asked ++ ballotsOf es :=
  List.filterMap_append

theorem offersOf_append (asked es : List Effect) :
    offersOf (asked ++ es) = offersOf asked ++ offersOf es :=
  List.filterMap_append

/-- The step in which votes of a kind are cast. -/
def VoteKind.step : VoteKind → Step
  | .null => .idle
  | .prevote => .prevote
  | .precommit => .precommit

-- ======================================================= what acts sign

section Views

variable {α : Type} {view : Effect → Option α} (s : Setup)

/-- What shows nothing adds nothing to what showed. -/
theorem filterMap_append_of_nil {asked es : List Effect}
    (silent : es.filterMap view = []) :
    (asked ++ es).filterMap view = asked.filterMap view := by
  rw [List.filterMap_append, silent, List.append_nil]

/-- Where timers do not show, arming shows nothing. -/
theorem filterMap_scheduling
    (blind : ∀ timer delay, view (.schedule timer delay) = none) (m : Machine)
    (round : Round) (kind : TimerKind) :
    (m.scheduling s round kind).filterMap view = [] := by
  unfold Machine.scheduling
  split
  · rfl
  · exact List.filterMap_cons_none (blind _ _)

/-- Where votes do not show, casting one shows nothing. -/
theorem filterMap_casting (blind : ∀ vote, view (.publish (.vote vote)) = none)
    (w : World) (round : Round) (hash : BlockHash) (kind : VoteKind) :
    (Machine.casting s w round hash kind).filterMap view = [] := by
  unfold Machine.casting
  split
  · rfl
  · exact List.filterMap_cons_none (blind _)

/-- Where votes of others do not show, passing them on shows nothing. -/
theorem filterMap_forward (blind : ∀ vote, view (.forward vote) = none)
    (votes : List Vote) :
    (votes.map .forward).filterMap view = [] := by
  rw [List.filterMap_map]
  exact List.filterMap_eq_nil_iff.2 fun vote _ => blind vote

/-- Where holdings do not show, answering a claim shows nothing. -/
theorem filterMap_answering
    (blind : ∀ holdings, view (.publish (.holdings holdings)) = none)
    (answer : Except Fault (Option Holdings)) :
    (Machine.answering answer).filterMap view = [] := by
  unfold Machine.answering
  split
  · exact List.filterMap_cons_none (blind _)
  · rfl

/-- Where neither the timer for a proposal nor anything about proposals
shows, the opening of a round shows nothing. -/
theorem filterMap_opening [Crypto] (w : World) (m : Machine) (round : Round)
    (waits : (m.scheduling s round .propose).filterMap view = [])
    (proposed : ∀ validRound block,
      view (.emit (.blockProposed round validRound block)) = none)
    (failed : ∀ fault, view (.emit (.faultOccurred fault)) = none)
    (offered : ∀ proposal, view (.publish (.proposal proposal)) = none) :
    (Machine.opening s w m round).2.filterMap view = [] := by
  unfold Machine.opening
  split
  · split
    · rw [List.filterMap_cons_none (proposed _ _)]
      exact List.filterMap_cons_none (offered _)
    · rw [List.filterMap_cons_none (failed _)]
      exact waits
  · exact waits

end Views

/-- A timer is no vote. -/
theorem ballotsOf_scheduling (s : Setup) (m : Machine) (round : Round)
    (kind : TimerKind) :
    ballotsOf (m.scheduling s round kind) = [] :=
  filterMap_scheduling s (fun _ _ => rfl) m round kind

theorem offersOf_scheduling (s : Setup) (m : Machine) (round : Round)
    (kind : TimerKind) :
    offersOf (m.scheduling s round kind) = [] :=
  filterMap_scheduling s (fun _ _ => rfl) m round kind

/-- Casting signs one vote, or none where this validator has no power. -/
theorem ballotsOf_casting (s : Setup) (w : World) (round : Round)
    (hash : BlockHash) (kind : VoteKind) :
    ballotsOf (Machine.casting s w round hash kind) = []
      ∨ ∃ ballot : Ballot,
        ballotsOf (Machine.casting s w round hash kind) = [ballot]
        ∧ ballot.round = round ∧ ballot.hash = hash ∧ ballot.kind = kind := by
  unfold Machine.casting
  split
  · exact Or.inl rfl
  · exact Or.inr ⟨_, rfl, rfl, rfl, rfl⟩

-- =============================================================== moves

/-- How an act moves a machine through rounds and steps, and what it signs
on the way. -/
inductive Moves (m : Machine) (es : List Effect) (m' : Machine) : Prop
  /-- It signs nothing, and stays in the round. -/
  | silent (ballots : ballotsOf es = []) (offers : offersOf es = [])
      (round : m'.round = m.round) (log : m'.log.round = m.log.round)
      (step : m.step ≤ m'.step)
      (idle : m.step = .idle → m'.step = .idle)
  /-- It signs a vote of the round, and enters the step of that vote. -/
  | votes (ballot : Ballot) (ballots : ballotsOf es = [ballot])
      (offers : offersOf es = []) (round : m'.round = m.round)
      (log : m'.log.round = m.log.round)
      (here : ballot.round = m.round) (real : ballot.kind ≠ .null)
      (early : m.step < ballot.kind.step) (step : m'.step = ballot.kind.step)
      (started : m.step ≠ .idle)
  /-- It begins a round, and may sign an offer for it. -/
  | begins (ballots : ballotsOf es = [])
      (offers : offersOf es = []
        ∨ ∃ offer, offersOf es = [offer] ∧ offer.round = m'.round)
      (log : m'.log.round = m'.round) (forward : m.log.round ≤ m'.round)
      (later : m.step = .idle ∧ m'.round = 0
        ∨ m.round < m'.round ∨ m'.round = m.round + 1)
      (step : m'.step = .propose)

/-- A vote that is cast, or would be by a validator, is such a move. -/
theorem moves_of_casting {s : Setup} {w : World} {m m' : Machine}
    {hash : BlockHash} {es : List Effect} (kind : VoteKind)
    (asks : ballotsOf es = ballotsOf (Machine.casting s w m.round hash kind))
    (offers : offersOf es = offersOf (Machine.casting s w m.round hash kind))
    (round : m'.round = m.round) (log : m'.log.round = m.log.round)
    (real : kind ≠ .null) (early : m.step < kind.step)
    (step : m'.step = kind.step) (started : m.step ≠ .idle) :
    Moves m es m' := by
  have silent : offersOf (Machine.casting s w m.round hash kind) = [] :=
    filterMap_casting s (fun _ => rfl) w m.round hash kind
  rw [silent] at offers
  rcases ballotsOf_casting s w m.round hash kind
    with none_ | ⟨ballot, one, here, -, rfl⟩
  · refine .silent (asks.trans none_) offers round log ?_
      (fun idle => absurd idle started)
    rw [step]
    exact Nat.le_of_lt early
  · exact .votes ballot (asks.trans one) offers round log here real early
      step started

/-- What changes neither place nor log and signs nothing moves nowhere. -/
theorem moves_of_still {m : Machine} (m' : Machine) (es : List Effect)
    (ballots : ballotsOf es = []) (offers : offersOf es = [])
    (round : m'.round = m.round) (log : m'.log.round = m.log.round)
    (step : m'.step = m.step) : Moves m es m' :=
  .silent ballots offers round log (step ▸ Nat.le_refl _)
    (fun idle => step.trans idle)

/-- What differs only in the log moves nowhere. -/
theorem moves_of_relogs {m m' : Machine} {es : List Effect}
    (ballots : ballotsOf es = []) (offers : offersOf es = [])
    (relogs : m.Relogs m') : Moves m es m' := by
  obtain ⟨log, rfl, same, -⟩ := relogs
  exact moves_of_still _ es ballots offers rfl same rfl

/-- The last step is behind none. -/
theorem moves_of_ending {m : Machine} (m' : Machine) (es : List Effect)
    (ballots : ballotsOf es = []) (offers : offersOf es = [])
    (round : m'.round = m.round) (log : m'.log.round = m.log.round)
    (step : m'.step = .endCommit) (started : m.step ≠ .idle) :
    Moves m es m' := by
  refine .silent ballots offers round log ?_ (fun idle => absurd idle started)
  rw [step]
  cases m.step <;> decide

-- ======================================================== the invariant

/-- The machine is at this step of this round, or past it. -/
def Machine.Reached (m : Machine) (round : Round) (step : Step) : Prop :=
  round < m.round ∨ round = m.round ∧ step ≤ m.step

/-- What was reached stays reached as a machine goes forward. -/
theorem Machine.Reached.trans {m m' : Machine} {round : Round} {step : Step}
    (h : m.Reached round step) (h' : m'.Reached m.round m.step) :
    m'.Reached round step := by
  rcases h with before | ⟨rfl, early⟩
  · refine Or.inl ?_
    rcases h' with later | ⟨same, -⟩
    · grind
    · exact same ▸ before
  · exact h'.imp_right fun ⟨same, late⟩ => ⟨same, Nat.le_trans early late⟩

/-- One ballot comes before another: in an earlier round, or for an earlier
step of the same one. -/
def Ballot.Before (earlier later : Ballot) : Prop :=
  earlier.round < later.round
    ∨ earlier.round = later.round ∧ earlier.kind.step < later.kind.step

/-- What was signed is ascending, and nothing of it is past where the
machine is. -/
structure SignsForward (m : Machine) (asked : List Effect) : Prop where
  /-- The log moves with the machine. -/
  placed : m.log.round = m.round
  /-- A machine at rest has signed nothing. -/
  fresh : m.step = .idle →
    m.round = 0 ∧ ballotsOf asked = [] ∧ offersOf asked = []
  ballots : (ballotsOf asked).Pairwise Ballot.Before
  offers : (offersOf asked).Pairwise (·.round < ·.round)
  /-- Ballots are of this step at the latest. -/
  reached : ∀ ballot ∈ ballotsOf asked, m.Reached ballot.round ballot.kind.step
  /-- Offers are of this round at the latest. -/
  offered : ∀ offer ∈ offersOf asked, offer.round ≤ m.round
  /-- Votes that are signed are prevotes or precommits. -/
  real : ∀ ballot ∈ ballotsOf asked, ballot.kind ≠ .null

/-- A round begins as the first one, as a later one, or as the one that comes
next. -/
theorem Cause.later {s : Setup} {input : Input} {m : Machine} {round : Round}
    (cause : Cause s input m round) :
    m.step = .idle ∧ round = 0 ∨ m.round < round ∨ round = m.round + 1 := by
  cases cause with
  | start told idle first => exact Or.inl ⟨idle, first⟩
  | follow message given of_round started undecided later ahead =>
    exact Or.inr (Or.inl later)
  | next kind fired ends ended undecided after => exact Or.inr (Or.inr after)

/-- Where the next round is not behind, the addition did not wrap around. -/
theorem lt_next_of_le {round : Round} (forward : round ≤ round + 1) :
    round < round + 1 := by
  grind

/-- A round that begins is a later one, or the first: had the addition wrapped, the
log would have had to move back. -/
theorem SignsForward.begins_later {m : Machine} {asked : List Effect} {round : Round}
    (held : SignsForward m asked) (forward : m.log.round ≤ round)
    (later : m.step = .idle ∧ round = 0 ∨ m.round < round ∨ round = m.round + 1) :
    m.step = .idle ∧ round = 0 ∨ m.round < round := by
  rw [held.placed] at forward
  rcases later with first | later | after
  · exact Or.inl first
  · exact Or.inr later
  · rw [after] at forward ⊢
    exact Or.inr (lt_next_of_le forward)

/-- None of the three moves goes back. -/
theorem SignsForward.forward {m m' : Machine} {asked es : List Effect}
    (held : SignsForward m asked) (moves : Moves m es m') :
    m'.Reached m.round m.step := by
  cases moves with
  | silent ballots offers round log step idle => exact Or.inr ⟨round.symm, step⟩
  | votes ballot ballots offers round log here real early step started =>
    exact Or.inr ⟨round.symm, step ▸ Nat.le_of_lt early⟩
  | begins ballots offers log forward later step =>
    rcases held.begins_later forward later with ⟨idle, first⟩ | later
    · exact Or.inr ⟨(held.fresh idle).1.trans first.symm, idle ▸ Nat.zero_le _⟩
    · exact Or.inl later

/-- Signing the next ballot keeps ballots ascending. -/
theorem ballots_ascend_snoc {asked : List Effect} {m : Machine}
    {ballot : Ballot} (held : SignsForward m asked)
    (here : ballot.round = m.round) (early : m.step < ballot.kind.step) :
    (ballotsOf asked ++ [ballot]).Pairwise Ballot.Before := by
  refine List.pairwise_append.2 ⟨held.ballots, List.pairwise_singleton _ _, ?_⟩
  intro earlier signed later last
  rw [List.mem_singleton.1 last]
  rcases held.reached earlier signed with before | ⟨same, step⟩
  · exact Or.inl (here ▸ before)
  · exact Or.inr ⟨same.trans here.symm, Nat.lt_of_le_of_lt step early⟩

/-- At most one offer for a later round keeps offers ascending. -/
theorem offers_ascend {asked es : List Effect} {round : Round}
    (ascending : (offersOf asked).Pairwise (·.round < ·.round))
    (behind : ∀ offer ∈ offersOf asked, offer.round < round)
    (offers : offersOf es = []
      ∨ ∃ offer, offersOf es = [offer] ∧ offer.round = round) :
    (offersOf (asked ++ es)).Pairwise (·.round < ·.round)
      ∧ ∀ offer ∈ offersOf (asked ++ es), offer.round ≤ round := by
  rw [offersOf_append]
  rcases offers with none_ | ⟨last, one, here⟩
  · rw [none_, List.append_nil]
    exact ⟨ascending, fun offer signed => UInt32.le_of_lt (behind offer signed)⟩
  · rw [one]
    constructor
    · refine List.pairwise_append.2 ⟨ascending, List.pairwise_singleton _ _, ?_⟩
      intro earlier signed offer new
      rw [List.mem_singleton.1 new, here]
      exact behind earlier signed
    · intro offer signed
      rcases List.mem_append.1 signed with earlier | new
      · exact UInt32.le_of_lt (behind offer earlier)
      · rw [List.mem_singleton.1 new, here]
        exact UInt32.le_refl _

/-- Each of the three moves keeps it. -/
theorem SignsForward.keeps {m m' : Machine} {asked es : List Effect}
    (held : SignsForward m asked) (moves : Moves m es m') :
    SignsForward m' (asked ++ es) := by
  have went := held.forward moves
  cases moves with
  | silent ballots offers round log step idle =>
    have sameBallots : ballotsOf (asked ++ es) = ballotsOf asked :=
      filterMap_append_of_nil ballots
    have sameOffers : offersOf (asked ++ es) = offersOf asked :=
      filterMap_append_of_nil offers
    constructor
    case placed => rw [log, round, held.placed]
    case fresh =>
      intro resting
      rw [round, sameBallots, sameOffers]
      refine held.fresh ?_
      -- nothing is before rest, so what rests now rested before
      rw [resting] at step
      cases stepped : m.step with
      | idle => rfl
      | _ => rw [stepped] at step; exact absurd step (by decide)
    case ballots => rw [sameBallots]; exact held.ballots
    case offers => rw [sameOffers]; exact held.offers
    case reached =>
      rw [sameBallots]
      exact fun ballot signed => (held.reached ballot signed).trans went
    case offered => rw [sameOffers, round]; exact held.offered
    case real => rw [sameBallots]; exact held.real
  | votes ballot ballots offers round log here real early step started =>
    have moreBallots :
        ballotsOf (asked ++ es) = ballotsOf asked ++ [ballot] := by
      rw [ballotsOf_append, ballots]
    have sameOffers : offersOf (asked ++ es) = offersOf asked :=
      filterMap_append_of_nil offers
    constructor
    case placed => rw [log, round, held.placed]
    case fresh =>
      intro resting
      -- nothing is before rest, and a vote is cast from somewhere before its own step
      rw [step] at resting
      rw [resting] at early
      exact absurd early (Nat.not_lt_zero _)
    case ballots => rw [moreBallots]; exact ballots_ascend_snoc held here early
    case offers => rw [sameOffers]; exact held.offers
    case reached =>
      intro cast signed
      rw [moreBallots] at signed
      rcases List.mem_append.1 signed with earlier | last
      · exact (held.reached cast earlier).trans went
      · rw [List.mem_singleton.1 last]
        exact Or.inr ⟨here.trans round.symm, step ▸ Nat.le_refl _⟩
    case offered => rw [sameOffers, round]; exact held.offered
    case real =>
      intro cast signed
      rw [moreBallots] at signed
      rcases List.mem_append.1 signed with earlier | last
      · exact held.real cast earlier
      · exact List.mem_singleton.1 last ▸ real
  | begins ballots offers log forward later step =>
    have sameBallots : ballotsOf (asked ++ es) = ballotsOf asked :=
      filterMap_append_of_nil ballots
    have begun := held.begins_later forward later
    have behind : ∀ offer ∈ offersOf asked, offer.round < m'.round := by
      intro offer signed
      -- the first round begins with nothing signed, any other is behind all that was
      rcases begun with ⟨idle, -⟩ | later
      · rw [(held.fresh idle).2.2] at signed
        cases signed
      · have offered := held.offered offer signed
        grind
    have ascend := offers_ascend held.offers behind offers
    constructor
    case placed => exact log
    case fresh =>
      intro resting
      rw [step] at resting
      cases resting
    case ballots => rw [sameBallots]; exact held.ballots
    case offers => exact ascend.1
    case reached =>
      rw [sameBallots]
      exact fun ballot signed => (held.reached ballot signed).trans went
    case offered => exact ascend.2
    case real => rw [sameBallots]; exact held.real

/-- Two ballots are not of one round and kind. -/
def Ballot.Apart (first second : Ballot) : Prop :=
  ¬(first.round = second.round ∧ first.kind = second.kind)

instance : Std.Symm Ballot.Apart :=
  ⟨fun _ _ apart same => apart ⟨same.1.symm, same.2.symm⟩⟩

/-- Of two ballots one of which is before the other, the round or the kind
differs. -/
theorem Ballot.Before.apart {earlier later : Ballot}
    (before : earlier.Before later) :
    earlier.Apart later := by
  intro same
  obtain ⟨round, kind⟩ := same
  rcases before with before | ⟨-, before⟩
  · grind
  · rw [kind] at before
    exact Nat.lt_irrefl _ before

/-- Of each round and kind there is at most one ballot. -/
theorem SignsForward.ballot_unique {m : Machine} {asked : List Effect}
    (h : SignsForward m asked) {ballot ballot' : Ballot}
    (signed : ballot ∈ ballotsOf asked) (signed' : ballot' ∈ ballotsOf asked)
    (round : ballot.round = ballot'.round) (kind : ballot.kind = ballot'.kind) :
    ballot = ballot' := by
  by_contra other
  exact (h.ballots.imp Ballot.Before.apart).forall signed signed' other
    ⟨round, kind⟩

/-- Of ascending elements at most one has a property that no two of them
share. -/
theorem length_filter_le_one {α : Type} {R : α → α → Prop} {p : α → Bool}
    {xs : List α} (ascending : xs.Pairwise R)
    (apart : ∀ x y, p x = true → p y = true → ¬R x y) :
    (xs.filter p).length ≤ 1 := by
  cases kept : xs.filter p with
  | nil => exact Nat.zero_le 1
  | cons x rest =>
    cases rest with
    | nil => exact Nat.le_refl 1
    | cons y rest =>
      have within := ascending.filter p
      rw [kept] at within
      have px : p x = true := (List.mem_filter.1 (kept ▸ List.mem_cons_self)).2
      have py : p y = true :=
        (List.mem_filter.1 (kept ▸ List.mem_cons_of_mem _ List.mem_cons_self)).2
      exact absurd ((List.pairwise_cons.1 within).1 y List.mem_cons_self)
        (apart x y px py)

-- ================================================================ acts

variable [Crypto] {s : Setup} {w : World} {input : Input}

/-- No vote is cast when a round is opened. -/
theorem ballotsOf_opening (s : Setup) (w : World) (m : Machine)
    (round : Round) :
    ballotsOf (Machine.opening s w m round).2 = [] :=
  filterMap_opening s w m round (ballotsOf_scheduling s m round .propose)
    (fun _ _ => rfl) (fun _ => rfl) (fun _ => rfl)

/-- The opening of a round signs at most one offer, of that round. -/
theorem offersOf_opening (s : Setup) (w : World) (m : Machine) (round : Round) :
    offersOf (Machine.opening s w m round).2 = []
      ∨ ∃ offer : Offer, offersOf (Machine.opening s w m round).2 = [offer]
        ∧ offer.round = round := by
  have waits := offersOf_scheduling s m round .propose
  unfold Machine.opening
  split
  · split
    · exact Or.inr ⟨_, rfl, rfl⟩
    · exact Or.inl waits
  · exact Or.inl waits

/-- Every act is one of the three moves. -/
theorem Act.moves {m m' : Machine} {es : List Effect}
    (act : Act s w input m es m') :
    Moves m es m' := by
  cases act with
  | judge => exact moves_of_still _ [] rfl rfl rfl rfl rfl
  | count vote given sound =>
    exact moves_of_still _ [] rfl rfl rfl
      (HeightLog.round_addVote s.scope m.log vote) rfl
  | claim claim =>
    exact moves_of_relogs (filterMap_answering (fun _ => rfl) _)
      (filterMap_answering (fun _ => rfl) _)
      (Machine.addClaim_relogs s w m claim)
  | passOn holdings votes =>
    exact moves_of_still _ _ (filterMap_forward (fun _ => rfl) votes)
      (filterMap_forward (fun _ => rfl) votes) rfl rfl rfl
  | takeUp => exact moves_of_still _ [] rfl rfl rfl rfl rfl
  | beginRound round log cause moved =>
    obtain ⟨forward, here⟩ := HeightLog.round_setRound moved
    obtain ⟨opened, same, round_eq, -⟩ := Machine.opening_relogs s w
      { m with log := log, round := round, step := .propose } round
    rw [same]
    exact .begins (ballotsOf_opening s w _ round)
      (offersOf_opening s w _ round) (round_eq.trans here) forward cause.later rfl
  | prevote proposal step held ripe =>
    exact moves_of_casting .prevote rfl rfl rfl rfl (by decide)
      (by rw [step]; decide) rfl (by rw [step]; decide)
  | prevoteNothing step fired =>
    exact moves_of_casting .prevote rfl rfl rfl rfl (by decide)
      (by rw [step]; decide) rfl (by rw [step]; decide)
  | precommit hash step fired =>
    -- a timer may precommit before the prevote was cast
    refine moves_of_casting .precommit rfl rfl rfl rfl (by decide) ?_ rfl ?_
    · rcases step with step | step <;> rw [step] <;> decide
    · rcases step with step | step <;> rw [step] <;> decide
  | precommitNothing step fired =>
    exact moves_of_casting .precommit rfl rfl rfl rfl (by decide)
      (by rw [step]; decide) rfl (by rw [step]; decide)
  | lock proposal pinned step held pins unseen majority valid marked seen =>
    obtain ⟨log, after, round⟩ := Machine.locked_eq seen
    rw [after]
    refine moves_of_still _ _ ?_ ?_ rfl round rfl
    · rw [ballotsOf_append, ballotsOf_scheduling]
      rfl
    · rw [offersOf_append, offersOf_scheduling]
      rfl
  | remember => exact moves_of_still _ [] rfl rfl rfl rfl rfl
  | discard => exact moves_of_still _ [_] rfl rfl rfl rfl rfl
  | wait kind waits =>
    exact moves_of_relogs (ballotsOf_scheduling s m _ _)
      (offersOf_scheduling s m _ _)
      (Machine.armed_relogs m m.round kind.slot)
  | decideBlock proposal pinned started undecided held pins majority valid
      pinning decided =>
    obtain ⟨log, after, round⟩ := Machine.decided_eq decided
    rw [after]
    exact moves_of_still _ _ (ballotsOf_scheduling s pinning _ _)
      (offersOf_scheduling s pinning _ _) rfl round rfl
  | finish kind started unfinished fired ends =>
    exact moves_of_ending _ [_] rfl rfl rfl rfl rfl started
  | complete kind decision certificate started unfinished fired ends decided =>
    exact moves_of_ending _ [_, _] rfl rfl rfl rfl rfl started
  | report => exact moves_of_still _ [_] rfl rfl rfl rfl rfl

-- =============================================================== lives

/-- It holds as long as the machine lives, whatever it is given. -/
theorem Reachable.signsForward {admits : Life → Input → Prop} {l : Life}
    (h : Reachable s admits l) : SignsForward l.machine l.asked := by
  refine Leads.keeps (P := fun _ m asked => SignsForward m asked) ?_
    (fun _ held => held) h ?_
  · intro l w input m m' es asked _ _ act held
    exact held.keeps act.moves
  · exact ⟨rfl, fun _ => ⟨rfl, rfl, rfl⟩, .nil, .nil, nofun, nofun, nofun⟩

/-- Whatever a machine is given, from rest on and in whatever world: of
each kind it signs at most one vote a round, and at most one offer a
round; the rounds of its votes never go down; and it signs no prevote of a
round after a precommit of that round. -/
theorem signs_once_in_order (s : Setup) (turns : List (World × Input)) :
    (∀ round kind, ((Life.after s turns).ballots.filter fun ballot =>
        ballot.round = round ∧ ballot.kind = kind).length ≤ 1)
      ∧ (∀ round, ((Life.after s turns).offers.filter fun offer =>
        offer.round = round).length ≤ 1)
      ∧ (Life.after s turns).ballots.Pairwise
        (fun earlier later => earlier.round ≤ later.round)
      ∧ (Life.after s turns).ballots.Pairwise (fun earlier later =>
        earlier.round = later.round → earlier.kind = .precommit →
        later.kind ≠ .prevote) := by
  have held := (reachable_after s turns).signsForward
  refine ⟨fun round kind => ?_, fun round => ?_, ?_, ?_⟩
  · refine length_filter_le_one held.ballots
      fun earlier later first second before => ?_
    obtain ⟨rfl, rfl⟩ := of_decide_eq_true first
    obtain ⟨round, kind⟩ := of_decide_eq_true second
    exact before.apart ⟨round.symm, kind.symm⟩
  · refine length_filter_le_one held.offers
      fun earlier later first second before => ?_
    rw [of_decide_eq_true first, of_decide_eq_true second] at before
    grind
  · refine held.ballots.imp fun {earlier later} before => ?_
    unfold Ballot.Before at before
    grind
  · refine held.ballots.imp
      fun {earlier later} before same precommit prevote => ?_
    rcases before with before | ⟨-, before⟩
    · grind
    · rw [precommit, prevote] at before
      exact absurd before (by decide)

end Quorum
