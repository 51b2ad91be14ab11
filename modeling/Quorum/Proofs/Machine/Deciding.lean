/-
No decision is overdue.

A block is decided by a rule that runs when a message was taken in, and at no
other time. That is enough: once an input is handled, a machine that has not
decided does not hold a valid proposal with the majority of precommits
(`Machine.Timely`). Votes and proposals come with messages only, and what else
an input does brings the two no nearer. A round that begins could, if its
proposal were there already and its precommits too. But proposals are taken up
for the current round only, and rounds go up, so a round begins without one
(`Machine.Onward`).

The exception is the first round. Its proposal may come before the start, and
that is why a start looks for a decision as well.
-/
import Quorum.Proofs.Machine.Refusing
import Quorum.Proofs.Machine.Resting

namespace Quorum

-- ================================================ statement vocabulary

/-- Where a machine is among its rounds: the log is there with it, and no
later round has a proposal. -/
structure Machine.Onward (m : Machine) : Prop where
  placed : m.log.round = m.round
  ahead : ∀ round, m.round < round → (m.log.getOrFresh round).proposal = none

/-- A started machine that has not decided holds no valid proposal with the
majority of precommits. -/
def Machine.Timely (s : Setup) (w : World) (m : Machine) : Prop :=
  m.step ≠ .idle → m.decision = none → ∀ p, m.proposal? = some p →
    m.verdict s w p.body.hash p.body.block = true →
    m.precommitMajority? m.round ≠ some p.body.hash

/-- Where nothing but evidence and unused rounds is new, no decision is. -/
theorem Machine.Timely.congr {s : Setup} {w : World} {m m' : Machine}
    (timely : m.Timely s w)
    (round : m'.round = m.round) (step : m'.step = m.step)
    (decision : m'.decision = m.decision) (verdicts : m'.verdicts = m.verdicts)
    (reads : ∀ r, m'.log.getOrFresh r = m.log.getOrFresh r) :
    m'.Timely s w := by
  intro started undecided p held valid
  rw [step] at started
  rw [decision] at undecided
  rw [Machine.proposal?_eq, round, reads, ← Machine.proposal?_eq] at held
  rw [Machine.precommitMajority?_eq_record, round, reads,
    ← Machine.precommitMajority?_eq_record]
  refine timely started undecided p held ?_
  unfold Machine.verdict at valid ⊢
  rw [verdicts] at valid
  exact valid

-- ================================================================ onward

/-- At first there is no proposal at all. -/
theorem Machine.onward_initial (s : Setup) : (Machine.initial s).Onward where
  placed := rfl
  ahead round _ := by rw [getOrFresh_initial]; rfl

/-- A machine goes to no earlier round. -/
theorem Machine.Onward.round_le {m m' : Machine} {es : List Effect}
    (onward : m.Onward) (moves : Moves m es m') : m.round ≤ m'.round := by
  cases moves with
  | silent _ _ round => exact round ▸ UInt32.le_refl _
  | votes _ _ _ round => exact round ▸ UInt32.le_refl _
  | begins _ _ _ forward => exact onward.placed ▸ forward

-- ========================================================== deciding

namespace Work

variable {s : Setup} {w : World}

/-- What is decided on is the decision. -/
theorem decideOn_decision (k : Work) (pinned : Pinned) :
    (k.decideOn s pinned).machine.decision = some pinned := by
  obtain ⟨log, same, -⟩ := Machine.armed_relogs
    { k.machine with decision := some pinned } pinned.round .endCommitWait
  rw [decideOn, arm_eq]
  exact congrArg (·.decision) same

/-- The rule that decides leaves no decision overdue. -/
theorem decideRule_timely (k : Work) :
    (k.decideRule s w).1.machine.Timely s w := by
  unfold decideRule
  split
  case h_1 none_ =>
    intro _ _ p held
    cases none_.symm.trans held
  case h_2 proposal found =>
    dsimp only
    split
    case isFalse other =>
      intro _ _ p held _
      cases found.symm.trans held
      exact other
    case isTrue majority =>
      rw [judge_eq]
      split
      case isTrue valid =>
        intro _ undecided
        cases (decideOn_decision _ _).symm.trans undecided
      case isFalse invalid =>
        intro _ _ p held valid
        cases found.symm.trans held
        rw [Machine.verdict_judged] at valid
        exact absurd valid invalid

end Work

/-- What does not decide leaves undecided what was undecided. -/
theorem Concludes.undecided {s : Setup} {w : World} {input : Input}
    {m m' : Machine} {es : List Effect} (h : Concludes s w input m es m')
    (undecided : m'.decision = none) : m.decision = none := by
  cases h with
  | goesOn decision => exact decision.symm.trans undecided
  | begins _ decision => exact decision.symm.trans undecided
  | decides _ _ _ _ _ _ _ decided => cases decided.symm.trans undecided
  | completes _ _ _ decision => exact decision.symm.trans undecided

section

variable [Crypto] {s : Setup} {w : World} {input : Input} {m m' : Machine}
  {es : List Effect}

/-- A proposal is taken up for the current round only, and rounds go up. -/
theorem Act.onward (act : Act s w input m es m') (onward : m.Onward) :
    m'.Onward := by
  have later := onward.round_le act.moves
  constructor
  case placed =>
    cases act.moves with
    | silent _ _ round log => rw [log, round, onward.placed]
    | votes _ _ _ round log => rw [log, round, onward.placed]
    | begins _ _ log => exact log
  case ahead =>
    intro round behind
    have behind : m.round < round := UInt32.lt_of_le_of_lt later behind
    cases act.places round with
    | same reads => rw [reads, onward.ahead round behind]
    | taken proposal given sound here => exact absurd here.symm (UInt32.ne_of_lt behind)
    | gone _ _ _ _ _ _ _ none_ => exact none_

-- =============================================================== timely

/-- All that an act forgets or adds about verdicts is the verdict on the
proposal held. -/
theorem Act.verdicts_cases (act : Act s w input m es m') :
    m'.verdicts = m.verdicts
      ∨ ∃ p, m.proposal? = some p
        ∧ m'.verdicts = (m.judged s w p.body.hash p.body.block).verdicts := by
  cases act with
  | judge proposal held => exact Or.inr ⟨proposal, held, rfl⟩
  | claim claim =>
    obtain ⟨log, same, -⟩ := Machine.addClaim_relogs s w m claim
    rw [same]
    exact Or.inl rfl
  | beginRound round log cause moved =>
    obtain ⟨opened, same, -⟩ := Machine.opening_relogs s w
      { m with log := log, round := round, step := .propose } round
    rw [same]
    exact Or.inl rfl
  | prevote proposal step held ripe => exact Or.inr ⟨proposal, held, rfl⟩
  | lock proposal pinned step held pins unseen majority valid marked seen =>
    obtain ⟨log, after, -⟩ := Machine.locked_eq seen
    rw [after, pins]
    exact Or.inr ⟨proposal, held, rfl⟩
  | remember proposal pinned step held pins =>
    rw [pins]
    exact Or.inr ⟨proposal, held, rfl⟩
  | wait kind waits =>
    obtain ⟨log, same, -⟩ := Machine.armed_relogs m m.round kind.slot
    rw [same]
    exact Or.inl rfl
  | decideBlock proposal pinned started undecided held pins majority valid
      pinning decided =>
    obtain ⟨log, after, -⟩ := Machine.decided_eq decided
    rw [after, pins]
    exact Or.inr ⟨proposal, held, rfl⟩
  | _ => exact Or.inl rfl

/-- No act changes the verdict on the proposal held. -/
theorem Act.verdict_eq (act : Act s w input m es m') {p : Proposal}
    (held : m.proposal? = some p) :
    m'.verdict s w p.body.hash p.body.block
      = m.verdict s w p.body.hash p.body.block := by
  rcases act.verdicts_cases with same | ⟨p', held', judged⟩
  · unfold Machine.verdict
    rw [same]
  · cases held.symm.trans held'
    rw [← Machine.verdict_judged s w m]
    unfold Machine.verdict
    rw [judged]

/-- Nothing but a start starts a machine. -/
theorem Act.started (act : Act s w input m es m') (told : input ≠ .start)
    (started : m'.step ≠ .idle) : m.step ≠ .idle := by
  intro idle
  cases act.moves with
  | silent _ _ _ _ _ resting => exact started (resting idle)
  | votes _ _ _ _ _ _ _ _ _ before => exact before idle
  | begins _ _ _ _ _ step =>
    rcases act.of_propose step with ⟨before, -⟩ | ⟨round, log, cause, -⟩
    · cases before.symm.trans idle
    · cases cause with
      | start start => exact told start
      | follow _ _ _ before => exact before idle
      | next _ _ _ ended => cases ended.symm.trans idle

/-- What has no decision had none before. -/
theorem Acts.undecided (acts : Acts s w input m es m')
    (none_ : m'.decision = none) : m.decision = none :=
  acts.keeps_machine (P := fun m' => m'.decision = none → m.decision = none)
    (fun act before none_ => before (act.concludes.undecided none_)) id none_

/-- What keeps a decision from being overdue: no vote, no proposal and no start
comes. -/
structure Still (input : Input) : Prop where
  started : input ≠ .start
  votes : ∀ vote, input ≠ .message (.vote vote)
  proposals : ∀ p, input ≠ .message (.proposal p)

/-- Without a vote, a proposal or a start, what was not overdue is not. -/
theorem Act.timely (act : Act s w input m es m') (still : Still input)
    (onward : m.Onward) (timely : m.Timely s w) : m'.Timely s w := by
  intro started undecided p held valid
  have started := act.started still.started started
  have undecided := act.concludes.undecided undecided
  cases act.rewrites with
  | counts vote given => exact absurd given (still.votes vote)
  | takesUp proposal given => exact absurd given (still.proposals proposal)
  -- a proposal that was dropped is not held
  | drops proposal majority step held' other real differs same log =>
    have gone : (m'.log.getOrFresh m'.round).proposal = none := by
      rw [log, same, HeightLog.getOrFresh_put, if_pos]
      · rfl
      · exact (HeightLog.round_getOrFresh _ _).symm
    rw [Machine.proposal?_eq, gone] at held
    cases held
  | marks marked =>
    rw [Machine.proposal?_eq, (marked m'.round).proposal] at held
    rw [Machine.precommitMajority?_eq_record,
      (marked m'.round).precommits.majority]
    by_cases same : m'.round = m.round
    · rw [same] at held ⊢
      rw [← Machine.proposal?_eq] at held
      rw [← Machine.precommitMajority?_eq_record]
      rw [act.verdict_eq held] at valid
      exact timely started undecided p held valid
    · -- the round began, and it has no proposal yet
      have later : m.round < m'.round :=
        UInt32.lt_of_le_of_ne (onward.round_le act.moves) (Ne.symm same)
      rw [onward.ahead _ later] at held
      cases held

-- =========================================================== whole inputs

namespace Work

theorem Reaches.onward {k k' : Work} (reaches : Reaches s w input k k')
    (onward : k.machine.Onward) : k'.machine.Onward := by
  obtain ⟨es, -, acts⟩ := reaches
  exact acts.keeps_machine (fun act held => act.onward held) onward

/-- And so for all that is done in between. -/
theorem Reaches.timely {k k' : Work} (reaches : Reaches s w input k k')
    (still : Still input) (onward : k.machine.Onward)
    (timely : k.machine.Timely s w) : k'.machine.Timely s w := by
  obtain ⟨es, -, acts⟩ := reaches
  have kept := acts.keeps_machine (P := fun m => m.Onward ∧ m.Timely s w)
    (fun act held => ⟨act.onward held.1, act.timely still held.1 held.2⟩)
    ⟨onward, timely⟩
  exact kept.2

/-- A list of votes held in a round. Like a vote it has a machine look at that round,
and it brings neither a vote nor a proposal. -/
def lookAt (s : Setup) (round : Round) : Message :=
  .holdings ⟨⟨s.scope.height, round, .nil, 0, s.signer.address, .null, []⟩, []⟩

/-- To follow others into a round needs no vote and no proposal. -/
theorem followRule_timely {k : Work} (round : Round)
    (started : k.machine.step ≠ .idle) (undecided : k.machine.decision = none)
    (onward : k.machine.Onward) (timely : k.machine.Timely s w) :
    (k.followRule s w round).1.machine.Timely s w := by
  have reaches : Reaches s w (.message (lookAt s round)) k
      (k.followRule s w round).1 := followRule_reaches rfl started undecided
  exact reaches.timely ⟨nofun, nofun, nofun⟩ onward timely

/-- Whatever was recorded, after this no decision is overdue. -/
theorem advance_timely {k : Work} (round : Round) (onward : k.machine.Onward) :
    (k.advance s w round).1.machine.Timely s w := by
  have timely := decideRule_timely k (s := s) (w := w)
  cases advance_advanced s w .start k round with
  | off free same =>
    rw [same]
    exact fun started undecided => (free.elim started (· undecided)).elim
  | decides _ _ same =>
    rw [same]
    exact timely
  | follows k' reaches rests started undecided same =>
    rw [same]
    rw [rests] at timely
    exact followRule_timely round started undecided (reaches.onward onward) timely

/-- A round that is not behind can be gone to. -/
theorem startRound_onward {k : Work} {round : Round} (onward : k.machine.Onward)
    (forward : k.machine.round ≤ round) :
    (k.startRound s w round).2 = .ok ()
      ∧ ∃ log, (k.startRound s w round).1.machine
        = { k.machine with log := log, round := round, step := .propose } := by
  have forward : k.machine.log.round ≤ round := onward.placed.symm ▸ forward
  obtain ⟨log, moved⟩ := HeightLog.exists_setRound forward
  unfold startRound
  rw [moved]
  refine ⟨rfl, ?_⟩
  show ∃ log, (openRound s w _ round).machine = _
  rw [openRound_eq s w _ round rfl]
  obtain ⟨opened, same, -⟩ := Machine.opening_relogs s w
    { k.machine with log := log, round := round, step := .propose } round
  exact ⟨opened, same⟩

/-- To look for a decision, and then to follow others, fails with nothing: a
round that is ahead is there to go to. -/
theorem advance_ok {k : Work} (round : Round) (onward : k.machine.Onward) :
    (k.advance s w round).2 = .ok () := by
  cases advance_advanced s w .start k round with
  | off _ same => rw [same]; rfl
  | decides _ _ same => rw [same]; rfl
  | follows k' reaches _ _ _ same =>
    rw [same]
    unfold followRule
    split
    case isFalse => rfl
    case isTrue ahead =>
      exact (startRound_onward (reaches.onward onward) (UInt32.le_of_lt ahead.1)).1

/-- What goes on by acts and then looks for a decision leaves none overdue,
provided that there is none where it fails before. -/
theorem andThen_advance_timely {k : Work} {a : Attempt} (round : Round)
    (reaches : Reaches s w input k a.1) (onward : k.machine.Onward)
    (failed : ∀ fault, a.2 = .error fault → a.1.machine.Timely s w) :
    (a.andThen fun k => k.advance s w round).1.machine.Timely s w := by
  obtain ⟨k', result⟩ := a
  cases result with
  | error fault => exact failed fault rfl
  | ok _ => exact advance_timely round (reaches.onward onward)

/-- After a vote or a proposal the machine looks for a decision, and other messages
bring none nearer. -/
theorem takeMessage_timely {k : Work} (message : Message)
    (onward : k.machine.Onward) (timely : k.machine.Timely s w) :
    (k.takeMessage s w message).1.machine.Timely s w := by
  unfold takeMessage
  split
  case isTrue => exact timely
  case isFalse =>
    cases message with
    | proposal proposal =>
      refine andThen_advance_timely _ (addProposal_reaches rfl) onward ?_
      intro fault refused
      rw [addProposal_refused refused]
      exact timely
    | vote vote =>
      refine andThen_advance_timely _ (addVote_reaches rfl) onward ?_
      intro fault refused
      have leaves := addVote_refused refused
      cases leaves with
      | evidence evidence same =>
        rw [same]
        exact timely.congr rfl rfl rfl rfl fun _ => rfl
      | round opened absent opens mismatch same =>
        rw [same]
        exact timely.congr rfl rfl rfl rfl
          fun r => HeightLog.getOrFresh_openFor? opens r
    | claim claim =>
      exact (takeClaim_reaches rfl).timely ⟨nofun, nofun, nofun⟩ onward timely
    | holdings holdings =>
      exact (takeHoldings_reaches rfl).timely ⟨nofun, nofun, nofun⟩ onward timely

/-- After the start it looks as well, and a timer brings nothing. -/
theorem apply_timely {k : Work} (input : Input) (onward : k.machine.Onward)
    (timely : k.machine.Timely s w) :
    (k.apply s w input).1.machine.Timely s w := by
  cases input with
  | start =>
    show (k.start s w).1.machine.Timely s w
    unfold start
    split
    case isTrue => exact timely
    case isFalse idle =>
      rw [Decidable.not_not] at idle
      refine andThen_advance_timely 0
        (startRound_reaches (.start rfl idle rfl)) onward ?_
      intro fault refused
      rw [startRound_failed refused]
      exact timely
  | message message => exact takeMessage_timely message onward timely
  | timer timer =>
    exact (takeTimer_reaches rfl).timely ⟨nofun, nofun, nofun⟩ onward timely

end Work

/-- No input leaves a decision overdue, whatever it fails with. -/
theorem Machine.Timely.handle (timely : m.Timely s w) (onward : m.Onward)
    (input : Input) : (m.handle s w input).machine.Timely s w := by
  have applied := Work.apply_timely (k := Work.ofMachine m) input onward timely
  have reached : ((Work.ofMachine m).apply s w input).1.machine.Onward :=
    (Work.apply_reaches (Work.ofMachine m)).onward onward
  exact (Work.run_settles s w (Work.ofMachine m) input).timely
    ⟨nofun, nofun, nofun⟩ reached applied

/-- Whatever a machine was given, it is onward. -/
theorem Reachable.onward {admits : Life → Input → Prop} {l : Life}
    (h : Reachable s admits l) : l.machine.Onward :=
  Leads.keeps (P := fun _ m _ => m.Onward) (fun _ _ act held => act.onward held)
    (fun _ held => held) h (Machine.onward_initial s)

/-- What every act keeps of a machine that is onward holds whatever it was given. -/
theorem Reachable.keeps_onward {P : Machine → Prop} {admits : Life → Input → Prop}
    {l : Life} (h : Reachable s admits l)
    (step : ∀ {w input m m' es}, Act s w input m es m' → m.Onward → P m → P m')
    (start : P (Machine.initial s)) : P l.machine := by
  have kept := Leads.keeps (P := fun _ m _ => m.Onward ∧ P m)
    (fun _ _ act held => ⟨act.onward held.1, step act held.1 held.2⟩)
    (fun _ held => held) h ⟨Machine.onward_initial s, start⟩
  exact kept.2

end

end Quorum
