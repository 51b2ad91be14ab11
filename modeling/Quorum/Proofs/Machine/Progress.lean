/-
Progress is forward only, and is told of as it is made.

Where a machine is among its rounds and steps is a pair (`Machine.place?`). An act
leaves it alone and tells of no round and no step, or it takes the machine to a
later place and tells of that, and of the round where that is a new one
(`Advances`). So what was told is ascending, and ends with where the machine is;
and of the rounds told of, each belongs to an entry of its proposing step, so
they are ascending because the entries are.

A step that is entered in the same round is a later one by the guard of its entry. A
round that begins is a later one because the log would not move back, whatever made
it begin (`SignsForward.begins_later`).
-/
import Quorum.Proofs.Machine.Moving

namespace Quorum

-- ================================================ statement vocabulary

/-- The round and the step that an effect tells the beginning of. -/
def Effect.entry? : Effect → Option (Round × Step)
  | .emit (.stepChanged _ round step) => some (round, step)
  | _ => none

/-- The steps begun among effects, with their rounds, first one first. -/
def entriesOf (asked : List Effect) : List (Round × Step) :=
  asked.filterMap Effect.entry?

/-- The order of places: by round, and in one round by step. -/
def Earlier : Round × Step → Round × Step → Prop := Prod.Lex (· < ·) (· < ·)

/-- The round that a place is the beginning of. -/
def beginningAt? (place : Round × Step) : Option Round :=
  if place.2 = .propose then some place.1 else none

/-- Where a machine is; nowhere, as long as it rests. -/
def Machine.place? (m : Machine) : Option (Round × Step) :=
  if m.step = .idle then none else some (m.round, m.step)

-- =========================================================== single acts

/-- What is told later comes later. -/
theorem entriesOf_append (asked es : List Effect) :
    entriesOf (asked ++ es) = entriesOf asked ++ entriesOf es :=
  List.filterMap_append

/-- A timer begins no step. -/
theorem entriesOf_scheduling (s : Setup) (m : Machine) (round : Round)
    (kind : TimerKind) : entriesOf (m.scheduling s round kind) = [] :=
  filterMap_scheduling s (fun _ _ => rfl) m round kind

/-- A vote alone begins none. -/
theorem entriesOf_casting (s : Setup) (w : World) (round : Round)
    (hash : BlockHash) (kind : VoteKind) :
    entriesOf (Machine.casting s w round hash kind) = [] :=
  filterMap_casting s (fun _ => rfl) w round hash kind

/-- Entering the step of prevotes is told of once. -/
theorem entriesOf_prevoting (s : Setup) (w : World) (round : Round)
    (hash : BlockHash) :
    entriesOf (Machine.prevoting s w round hash) = [(round, .prevote)] :=
  congrArg ((round, Step.prevote) :: ·) (entriesOf_casting s w round hash .prevote)

/-- Entering the step of precommits likewise. -/
theorem entriesOf_precommitting (s : Setup) (w : World) (round : Round)
    (hash : BlockHash) :
    entriesOf (Machine.precommitting s w round hash) = [(round, .precommit)] :=
  congrArg ((round, Step.precommit) :: ·) (entriesOf_casting s w round hash .precommit)

/-- That the proposing step begins is told before the round is opened. -/
theorem entriesOf_opening [Crypto] (s : Setup) (w : World) (m : Machine)
    (round : Round) : entriesOf (Machine.opening s w m round).2 = [] :=
  filterMap_opening s w m round (entriesOf_scheduling s m round .propose)
    (fun _ _ => rfl) (fun _ => rfl) (fun _ => rfl)

/-- What an act means for the place of a machine, and what it tells of that. -/
inductive Advances (m : Machine) (es : List Effect) (m' : Machine) : Prop
  | stays (entries : entriesOf es = []) (beginnings : beginningsOf es = [])
      (round : m'.round = m.round) (step : m'.step = m.step)
  | goesOn (entries : entriesOf es = [(m'.round, m'.step)])
      (beginnings : beginningsOf es = [(m'.round, m'.step)].filterMap beginningAt?)
      (started : m'.step ≠ .idle) (later : Earlier (m.round, m.step) (m'.round, m'.step))

/-- What differs only in the log is in the same place. -/
theorem advances_of_relogs {m m' : Machine} {es : List Effect}
    (entries : entriesOf es = []) (beginnings : beginningsOf es = [])
    (relogs : m.Relogs m') : Advances m es m' := by
  obtain ⟨log, rfl, -⟩ := relogs
  exact .stays entries beginnings rfl rfl

/-- A later step of the same round, that is not the first one. -/
theorem advances_to {m m' : Machine} {es : List Effect} (next : Step)
    (entries : entriesOf es = [(m.round, next)]) (beginnings : beginningsOf es = [])
    (real : next ≠ .propose) (round : m'.round = m.round) (step : m'.step = next)
    (early : m.step < next) : Advances m es m' := by
  subst step
  have silent : beginningAt? (m'.round, m'.step) = none := if_neg real
  refine .goesOn (round ▸ entries) ?_ (fun idle => ?_) ?_
  · rw [beginnings, List.filterMap_cons_none silent]
    rfl
  · rw [idle] at early
    exact absurd early (Nat.not_lt_zero _)
  · rw [round]
    exact .right _ early

/-- Before the end there is still the end to come. -/
theorem lt_endCommit {step : Step} (unfinished : step ≠ .endCommit) :
    step < .endCommit := by
  cases step with
  | endCommit => exact absurd rfl unfinished
  | _ => decide

/-- Of two proposing steps the later one is of a later round. -/
theorem lt_of_beginningAt? {place place' : Round × Step}
    (later : Earlier place place') {round round' : Round}
    (first : beginningAt? place = some round)
    (second : beginningAt? place' = some round') : round < round' := by
  unfold beginningAt? at first second
  split at first
  case isFalse => cases first
  case isTrue proposing =>
    split at second
    case isFalse => cases second
    case isTrue proposing' =>
      cases first
      cases second
      cases later with
      | left _ _ forward => exact forward
      | right _ forward =>
        cases proposing
        cases proposing'
        exact absurd forward (Nat.lt_irrefl _)

section

variable {s : Setup} {w : World} {m m' : Machine} {es asked : List Effect}

-- ========================================================= the invariant

/-- What is reached lies before every later place. -/
theorem Machine.Reached.earlier {round : Round} {step : Step} {place : Round × Step}
    (h : m.Reached round step) (later : Earlier (m.round, m.step) place) :
    Earlier (round, step) place := by
  rcases h with before | ⟨rfl, early⟩
  · cases later with
    | left _ _ forward => exact .left _ _ (UInt32.lt_trans before forward)
    | right _ _ => exact .left _ _ before
  · cases later with
    | left _ _ forward => exact .left _ _ forward
    | right _ forward => exact .right _ (Nat.lt_of_le_of_lt early forward)

/-- A place before where the machine is has been reached. -/
theorem Machine.reached_of_earlier {round : Round} {step : Step}
    (h : Earlier (round, step) (m.round, m.step)) : m.Reached round step := by
  cases h with
  | left _ _ before => exact Or.inl before
  | right _ early => exact Or.inr ⟨rfl, Nat.le_of_lt early⟩

/-- What was told is ascending, and ends with where the machine is. -/
structure Progresses (m : Machine) (asked : List Effect) : Prop where
  ascends : (entriesOf asked).Pairwise Earlier
  last : (entriesOf asked).getLast? = m.place?
  /-- No place is told of that the machine has not reached. -/
  reached : ∀ place ∈ entriesOf asked, m.Reached place.1 place.2
  /-- Rounds are told of where their proposing step is. -/
  beginnings : beginningsOf asked = (entriesOf asked).filterMap beginningAt?

/-- At first nothing was told, and the machine is nowhere. -/
theorem progresses_initial (s : Setup) : Progresses (Machine.initial s) [] :=
  ⟨.nil, rfl, nofun, rfl⟩

/-- A place that is later than all before it may follow. -/
theorem Progresses.keeps (h : Progresses m asked) (advances : Advances m es m') :
    Progresses m' (asked ++ es) := by
  cases advances with
  | stays entries beginnings round step =>
    have same : entriesOf (asked ++ es) = entriesOf asked :=
      filterMap_append_of_nil entries
    have told : beginningsOf (asked ++ es) = beginningsOf asked :=
      filterMap_append_of_nil beginnings
    constructor
    case ascends => exact same ▸ h.ascends
    case last =>
      rw [same, h.last, Machine.place?, Machine.place?, round, step]
    case reached =>
      rw [same]
      unfold Machine.Reached
      rw [round, step]
      exact h.reached
    case beginnings => rw [told, same, h.beginnings]
  | goesOn entries beginnings started later =>
    have more : entriesOf (asked ++ es) = entriesOf asked ++ [(m'.round, m'.step)] := by
      rw [entriesOf_append, entries]
    have before : ∀ place ∈ entriesOf asked, Earlier place (m'.round, m'.step) :=
      fun place told => (h.reached place told).earlier later
    constructor
    case ascends =>
      rw [more, List.pairwise_append]
      -- the new place is behind all that were told of
      refine ⟨h.ascends, List.pairwise_singleton _ _, fun place told last here => ?_⟩
      rw [List.mem_singleton.1 here]
      exact before place told
    case last =>
      rw [more, List.getLast?_concat, Machine.place?, if_neg started]
    case reached =>
      intro place told
      rw [more] at told
      rcases List.mem_append.1 told with old | new
      · exact Machine.reached_of_earlier (before place old)
      · rw [List.mem_singleton.1 new]
        exact Or.inr ⟨rfl, Nat.le_refl _⟩
    case beginnings =>
      rw [beginningsOf_append, beginnings, h.beginnings, more, List.filterMap_append]

end

-- ================================================================= acts

variable [Crypto] {s : Setup} {w : World} {input : Input} {m m' : Machine}
  {es asked : List Effect}

/-- Every act leaves the place of a machine alone, or takes it to a later one. -/
theorem Act.advances (act : Act s w input m es m') (signs : SignsForward m asked) :
    Advances m es m' := by
  cases act with
  | judge => exact .stays rfl rfl rfl rfl
  | count => exact .stays rfl rfl rfl rfl
  | claim claim =>
    exact advances_of_relogs (filterMap_answering (fun _ => rfl) _)
      (filterMap_answering (fun _ => rfl) _) (Machine.addClaim_relogs s w m claim)
  | passOn holdings votes =>
    exact .stays (filterMap_forward (fun _ => rfl) votes)
      (filterMap_forward (fun _ => rfl) votes) rfl rfl
  | takeUp => exact .stays rfl rfl rfl rfl
  | beginRound round log cause moved =>
    have told := plainly_opening s w
      { m with log := log, round := round, step := .propose } round
    have silent := entriesOf_opening s w
      { m with log := log, round := round, step := .propose } round
    obtain ⟨opened, same, -⟩ := Machine.opening_relogs s w
      { m with log := log, round := round, step := .propose } round
    rw [same]
    refine .goesOn (congrArg ((round, Step.propose) :: ·) silent)
      (congrArg (round :: ·) told.beginnings) nofun ?_
    have later := signs.begins_later (HeightLog.round_setRound moved).1 cause.later
    -- the first round begins where the machine rests in it, any other is a later one
    rcases later with ⟨idle, first⟩ | later
    · show Earlier (m.round, m.step) (round, .propose)
      rw [(signs.fresh idle).1, idle, first]
      exact .right _ (by decide)
    · exact .left _ _ later
  | prevote proposal step held ripe =>
    exact advances_to .prevote (entriesOf_prevoting s w _ _)
      (plainly_prevoting s w _ _).beginnings (by decide) rfl rfl (by rw [step]; decide)
  | prevoteNothing step fired =>
    exact advances_to .prevote (entriesOf_prevoting s w _ _)
      (plainly_prevoting s w _ _).beginnings (by decide) rfl rfl (by rw [step]; decide)
  | precommit hash step fired =>
    refine advances_to .precommit (entriesOf_precommitting s w _ _)
      (plainly_precommitting s w _ _).beginnings (by decide) rfl rfl ?_
    rcases step with step | step <;> rw [step] <;> decide
  | precommitNothing step fired =>
    exact advances_to .precommit (entriesOf_precommitting s w _ _)
      (plainly_precommitting s w _ _).beginnings (by decide) rfl rfl (by rw [step]; decide)
  | lock proposal pinned step held pins unseen majority valid marked seen =>
    obtain ⟨log, after, -⟩ := Machine.locked_eq seen
    rw [after]
    refine .stays ?_ ?_ rfl rfl
    · rw [entriesOf_append, entriesOf_scheduling]
      rfl
    · rw [beginningsOf_append, (plainly_scheduling s marked _ _).beginnings]
      rfl
  | remember => exact .stays rfl rfl rfl rfl
  | discard => exact .stays rfl rfl rfl rfl
  | wait kind waits =>
    exact advances_of_relogs (entriesOf_scheduling s m _ _)
      (plainly_scheduling s m _ _).beginnings (Machine.armed_relogs m m.round kind.slot)
  | decideBlock proposal pinned started undecided held pins majority valid
      pinning decided =>
    obtain ⟨log, after, -⟩ := Machine.decided_eq decided
    rw [after]
    exact .stays (entriesOf_scheduling s pinning _ _)
      (plainly_scheduling s pinning _ _).beginnings rfl rfl
  | finish kind started unfinished =>
    exact advances_to .endCommit rfl rfl (by decide) rfl rfl (lt_endCommit unfinished)
  | complete kind decision certificate started unfinished =>
    exact advances_to .endCommit rfl rfl (by decide) rfl rfl (lt_endCommit unfinished)
  | report => exact .stays rfl rfl rfl rfl

-- =============================================================== lives

/-- It holds as long as the machine lives, whatever it is given. -/
theorem Reachable.progresses {admits : Life → Input → Prop} {l : Life}
    (h : Reachable s admits l) : Progresses l.machine l.asked := by
  have kept := Leads.keeps
    (P := fun _ m asked => SignsForward m asked ∧ Progresses m asked)
    (fun _ _ act held =>
      ⟨held.1.keeps act.moves, held.2.keeps (act.advances held.1)⟩)
    (fun _ held => held) h ?_
  · exact kept.2
  · exact ⟨⟨rfl, fun _ => ⟨rfl, rfl, rfl⟩, .nil, .nil, nofun, nofun, nofun⟩,
      progresses_initial s⟩

/-- Whatever a machine is given, from rest on and in whatever world, forged timers
among it: the steps that it tells of ascend, by round and in one round by step; the
rounds that it tells of ascend; the last step told of is the one that it is in, in
the round that it is in; and its record is in the same round. -/
theorem progress_is_forward (s : Setup) (turns : List (World × Input)) :
    (entriesOf (Life.after s turns).asked).Pairwise Earlier
      ∧ (beginningsOf (Life.after s turns).asked).Pairwise (· < ·)
      ∧ (entriesOf (Life.after s turns).asked).getLast?
        = (Life.after s turns).machine.place?
      ∧ (Life.after s turns).machine.log.round = (Life.after s turns).machine.round := by
  have start := reachable_after s turns
  have held := start.progresses
  refine ⟨held.ascends, ?_, held.last, start.signsForward.placed⟩
  rw [held.beginnings]
  refine List.Pairwise.filterMap _ (fun place place' later round first round' second => ?_)
    held.ascends
  exact lt_of_beginningAt? later first second

end Quorum
