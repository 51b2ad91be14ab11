/-
A timer does something once, and in time.

A timer takes the machine out of the step that it waits in, and it is asked for
in its own round, when that step has come (`Timed`). Both the round and the step
only go forward. So when the timer is handled, either its time is over and it
does nothing, or it takes the machine past its last step; in both cases its time
is over from then on (`Machine.Passed`), however often it comes again.

A timer without effect is still an input that the rules are run after. That they
find nothing to do is not the timer's merit: between two inputs they rest, and
know the verdicts for which they rest (`Machine.handle_overdue`).
-/
import Quorum.Proofs.Machine.Limiting
import Quorum.Proofs.Machine.Moving
import Quorum.Proofs.Machine.Returning

namespace Quorum

-- ================================================ statement vocabulary

/-- The last step in which a timer does anything: the one that it guards. The two
kinds that guard none wait for a precommit, and for the end of the round. -/
def TimerKind.lastStep (kind : TimerKind) : Step :=
  kind.guarded?.getD <|
    match kind with
    | .endCommitWait => .precommit
    | _ => .prevote

/-- What watchers are told of a timer. -/
def Timer.report (timer : Timer) : List Effect :=
  (timer.kind.guarded?.map fun step =>
    .emit (.timerProcessed timer.round step)).toList

/-- To tell of a timer asks for none. -/
theorem Timer.timersOf_report (timer : Timer) : timersOf timer.report = [] := by
  unfold Timer.report
  cases timer.kind.guarded? <;> rfl

/-- Why a timer comes late after some turns. -/
inductive Late [Crypto] (s : Setup) (turns : List (World × Input)) (timer : Timer) :
    Prop
  | left (other : timer.round ≠ (Life.after s turns).machine.round)
  | passed (past : timer.kind.lastStep < (Life.after s turns).machine.step)
  /-- It was handled after it was scheduled, at any time since. -/
  | again (before after : List (World × Input)) (w : World)
      (earlier : turns = before ++ (w, .timer timer) :: after)
      (scheduled : Scheduled (Life.after s before).asked timer)

/-- The machine has left the round of a timer behind, or its last step. -/
def Machine.Passed (m : Machine) (round : Round) (kind : TimerKind) : Prop :=
  round < m.round ∨ round = m.round ∧ kind.lastStep < m.step

/-- A timer has no time in a machine that is past it, in another round, or before
its start. -/
def Machine.Overdue (m : Machine) (round : Round) (kind : TimerKind) : Prop :=
  round ≠ m.round ∨ m.step = .idle ∨ kind.lastStep < m.step

/-- Whoever is past a timer has no time for it. -/
theorem Machine.Passed.overdue {m : Machine} {round : Round} {kind : TimerKind}
    (h : m.Passed round kind) : m.Overdue round kind := by
  rcases h with before | ⟨-, past⟩
  · exact Or.inl (UInt32.ne_of_lt before)
  · exact Or.inr (Or.inr past)

/-- A machine that goes forward stays past what it has passed. -/
theorem Machine.Passed.later {m m' : Machine} {round : Round} {kind : TimerKind}
    (h : m.Passed round kind) (later : m'.Reached m.round m.step) :
    m'.Passed round kind := by
  rcases later with ahead | ⟨same, further⟩
  · refine Or.inl ?_
    rcases h with before | ⟨rfl, -⟩
    · exact UInt32.lt_trans before ahead
    · exact ahead
  · refine h.imp (fun before => same ▸ before) fun past => ?_
    exact ⟨past.1.trans same, Nat.lt_of_lt_of_le past.2 further⟩

-- ================================================================ expiring

section

variable {s : Setup} {w : World} {round : Round} {kind : TimerKind}

namespace Work

variable {k : Work}

/-- A precommit that comes late is not entered. -/
theorem enterPrecommit_overdue {hash : BlockHash}
    (late : round ≠ k.machine.round ∨ k.machine.step = .idle
      ∨ .prevote < k.machine.step) :
    k.enterPrecommit s w round hash = (k, false) :=
  if_pos (late.imp_left Ne.symm)

/-- One that comes in time is. -/
theorem enterPrecommit_step {hash : BlockHash} (here : k.machine.round = round)
    (step : k.machine.step = .prevote) :
    (k.enterPrecommit s w round hash).1.machine
      = { k.machine with step := .precommit } := by
  have early : ¬(k.machine.round ≠ round ∨ k.machine.step = .idle
      ∨ Step.precommit ≤ k.machine.step) := by
    rw [step]
    exact not_or.2 ⟨not_not.2 here, by decide⟩
  unfold enterPrecommit
  rw [if_neg early, castVote_eq]
  rfl

variable [Crypto]

/-- A round that is over does not end again. -/
theorem enterEndCommit_overdue
    (late : round ≠ k.machine.round ∨ k.machine.step = .idle
      ∨ .precommit < k.machine.step) :
    k.enterEndCommit s w round = k.done :=
  if_pos (late.imp Ne.symm (Or.imp_right step_eq_endCommit))

/-- Where a round ends, the machine is at its end, or in a later one. -/
theorem enterEndCommit_passes (placed : k.machine.log.round = k.machine.round)
    (here : k.machine.round = round) (started : k.machine.step ≠ .idle)
    (going : k.machine.step ≠ .endCommit) :
    round < (k.enterEndCommit s w round).1.machine.round
      ∨ round = (k.enterEndCommit s w round).1.machine.round
        ∧ .precommit < (k.enterEndCommit s w round).1.machine.step := by
  have ended : ∀ k' : Work, k'.machine = { k.machine with step := .endCommit } →
      round < k'.machine.round
        ∨ round = k'.machine.round ∧ .precommit < k'.machine.step := by
    intro k' same
    rw [same]
    exact Or.inr ⟨here.symm, (by decide : Step.precommit < .endCommit)⟩
  unfold enterEndCommit
  rw [if_neg (not_or.2 ⟨not_not.2 here, not_or.2 ⟨started, going⟩⟩)]
  split
  case h_1 =>
    rcases startRound_cases s w (k.setStep s .endCommit) (round + 1)
      with ⟨fault, same⟩ | ⟨log, moved, same⟩
    · rw [same]
      exact ended _ rfl
    · obtain ⟨forward, -⟩ := HeightLog.round_setRound moved
      have forward : k.machine.log.round ≤ round + 1 := forward
      obtain ⟨_, opened, -⟩ := Machine.opening_relogs s w
        { (k.setStep s .endCommit).machine with
          log := log, round := round + 1, step := .propose } (round + 1)
      rw [same]
      dsimp only [done]
      rw [opened]
      -- had the addition wrapped, the log would have had to move back
      rw [placed, here] at forward
      exact Or.inl (lt_next_of_le forward)
  case h_2 decision _ =>
    unfold complete
    split
    case h_1 => exact ended _ rfl
    case h_2 => split <;> exact ended _ rfl

/-- A timer that has no time does nothing. -/
theorem expire_overdue (late : k.machine.Overdue round kind) :
    k.expire s w round kind = k.done := by
  cases kind with
  | propose =>
    show (if k.machine.step = .propose then _ else k.done) = k.done
    split
    case isFalse => rfl
    case isTrue step =>
      have away : round ≠ k.machine.round := late.resolve_right fun off => by
        rw [step] at off
        exact absurd off (by decide)
      have stays : k.enterPrevote s w round .nil = (k, false) :=
        if_pos (Or.inl away.symm)
      rw [stays]
  | prevote =>
    show (if k.machine.step = .prevote then _ else k.done) = k.done
    split
    case isFalse => rfl
    case isTrue => rw [enterPrecommit_overdue late]
  | precommit => exact enterEndCommit_overdue late
  | precommitWait hash =>
    show (k.enterPrecommit s w round hash).1.done = k.done
    rw [enterPrecommit_overdue late]
  | endCommitWait => exact enterEndCommit_overdue late

/-- A timer that comes in time takes the machine past its last step. -/
theorem expire_passes (placed : k.machine.log.round = k.machine.round)
    (here : k.machine.round = round) (due : kind.firstStep ≤ k.machine.step)
    (early : ¬kind.lastStep < k.machine.step) :
    (k.expire s w round kind).1.machine.Passed round kind := by
  have between : ∀ {first last step : Step}, first ≤ step → ¬last < step →
      first = last → step = last := by
    intro first last step
    cases first <;> cases last <;> cases step <;> decide
  have ends : .propose ≤ k.machine.step → ¬.precommit < k.machine.step →
      k.machine.step ≠ .idle ∧ k.machine.step ≠ .endCommit := by
    cases k.machine.step <;> decide
  cases kind with
  -- each kind is met in its own step, which its time leaves as the only one
  | propose =>
    have step : k.machine.step = .propose := between due early rfl
    subst here
    show (if k.machine.step = .propose then _ else k.done).1.machine.Passed _ _
    rw [if_pos step]
    dsimp only [done]
    rw [enterPrevote_of_propose s w k .nil step]
    exact Or.inr ⟨rfl, (by decide : Step.propose < .prevote)⟩
  | prevote =>
    have step : k.machine.step = .prevote := between due early rfl
    show (if k.machine.step = .prevote then _ else k.done).1.machine.Passed _ _
    rw [if_pos step]
    unfold Machine.Passed
    dsimp only [done]
    rw [enterPrecommit_step here step]
    exact Or.inr ⟨here.symm, (by decide : Step.prevote < .precommit)⟩
  | precommit =>
    obtain ⟨started, going⟩ := ends due early
    exact enterEndCommit_passes placed here started going
  | precommitWait hash =>
    have step : k.machine.step = .prevote := between due early rfl
    show (k.enterPrecommit s w round hash).1.machine.Passed _ _
    unfold Machine.Passed
    rw [enterPrecommit_step here step]
    exact Or.inr ⟨here.symm, (by decide : Step.prevote < .precommit)⟩
  | endCommitWait =>
    obtain ⟨started, going⟩ := ends due early
    exact enterEndCommit_passes placed here started going

/-- To tell of a timer leaves the machine. -/
theorem machine_takeTimer {timer : Timer} (ours : timer.height = s.scope.height) :
    (k.takeTimer s w timer).1.machine
      = (k.expire s w timer.round timer.kind).1.machine := by
  unfold takeTimer
  rw [if_neg (not_not.2 ours)]
  unfold Attempt.andThen
  split
  case h_1 => rfl
  case h_2 =>
    dsimp only [done]
    unfold reportTimer
    split <;> rfl

/-- A timer of this height that has no time is told of, and that is all. -/
theorem takeTimer_overdue {timer : Timer} (ours : timer.height = s.scope.height)
    (late : k.machine.Overdue timer.round timer.kind) :
    k.takeTimer s w timer
      = (⟨k.machine, k.effects ++ timer.report⟩, .ok ()) := by
  unfold takeTimer
  rw [if_neg (not_not.2 ours), expire_overdue late]
  unfold Timer.report
  show ((k.reportTimer timer).done) = _
  unfold reportTimer
  split
  case h_1 step guards =>
    rw [guards]
    rfl
  case h_2 none_ =>
    rw [none_]
    dsimp only [Option.map_none, Option.toList_none]
    rw [List.append_nil]
    rfl

end Work

-- ============================================================ told in order

/-- Timers are asked for in the round that was begun last. -/
structure Timed (s : Setup) (m : Machine) (asked : List Effect) : Prop where
  begun : (beginningsOf asked).getLast? = m.currentRound?
  timers : ∀ before timer delay after,
    asked = before ++ .schedule timer delay :: after →
      timer.height = s.scope.height
        ∧ (beginningsOf before).getLast? = some timer.round
  /-- No timer is asked for before its time. -/
  reached : ∀ timer ∈ timersOf asked, m.Reached timer.round timer.kind.firstStep

variable {input : Input} {m m' : Machine} {es asked : List Effect}

/-- What stands between other effects is among them. -/
theorem mem_timersOf_of_split {timer : Timer} {delay : UInt64}
    {before after : List Effect} :
    timer ∈ timersOf (before ++ .schedule timer delay :: after) :=
  mem_timersOf.2 ⟨delay, by simp⟩

/-- And what is among them stands somewhere. -/
theorem exists_split {timer : Timer} (asks : timer ∈ timersOf asked) :
    ∃ before delay after, asked = before ++ .schedule timer delay :: after := by
  obtain ⟨delay, asks⟩ := mem_timersOf.1 asks
  obtain ⟨before, after, split⟩ := List.append_of_mem asks
  exact ⟨before, delay, after, split⟩

/-- What is asked for in a list and more is asked for in one of the two. -/
theorem append_split {effect : Effect} {before after : List Effect}
    (split : asked ++ es = before ++ effect :: after) :
    (∃ rest, asked = before ++ effect :: rest)
      ∨ ∃ first, before = asked ++ first ∧ es = first ++ effect :: after := by
  rcases List.append_eq_append_iff.1 split with ⟨first, same, here⟩ | ⟨rest, same, here⟩
  · exact Or.inr ⟨first, same, here⟩
  · cases rest with
    | nil => exact Or.inr ⟨[], by simpa using same.symm, here.symm⟩
    | cons head rest =>
      obtain ⟨rfl, -⟩ := List.cons.inj here
      exact Or.inl ⟨rest, same⟩

variable [Crypto]

/-- A timer that an act asks for is of the round that the machine is in then. -/
theorem Act.of_asked (act : Act s w input m es m') (started : m'.step ≠ .idle)
    {timer : Timer} (asks : timer ∈ timersOf es) :
    timer.height = s.scope.height ∧ timer.round = m'.round
      ∧ timer.kind.firstStep ≤ m'.step := by
  cases act.timing with
  | still silent =>
    rw [silent] at asks
    cases asks
  | arms kind due _ one =>
    rw [one, List.mem_singleton] at asks
    rw [asks]
    exact ⟨rfl, rfl, due started⟩

/-- An act that begins a round asks for its timers after that. -/
theorem Act.begun_before (act : Act s w input m es m') {before after : List Effect}
    {timer : Timer} {delay : UInt64}
    (split : es = before ++ .schedule timer delay :: after) :
    beginningsOf before = beginningsOf es := by
  have parts : beginningsOf es = beginningsOf before ++ beginningsOf after := by
    rw [split]
    exact beginningsOf_append before (.schedule timer delay :: after)
  rcases act.begins_cases with ⟨rest, -, asks, quiet, -⟩ | ⟨quiet, -⟩
  · cases before with
    | nil => cases asks.symm.trans split
    | cons first before =>
      obtain ⟨-, same⟩ := List.cons.inj (asks.symm.trans split)
      rw [same] at quiet
      have none_ : beginningsOf before ++ beginningsOf after = [] :=
        (beginningsOf_append before (.schedule timer delay :: after)).symm.trans quiet
      rw [parts, (List.append_eq_nil_iff.1 none_).2, List.append_nil]
  · rw [quiet] at parts ⊢
    exact (List.append_eq_nil_iff.1 parts.symm).1

/-- The round begun last is the one that the machine is in after an act. -/
theorem Timed.last (timed : Timed s m asked) (act : Act s w input m es m')
    (started : m'.step ≠ .idle) :
    (beginningsOf asked ++ beginningsOf es).getLast? = some m'.round := by
  rcases act.begins_cases with ⟨rest, -, asks, quiet, -⟩ | ⟨quiet, same, stays⟩
  · have tells : beginningsOf es = m'.round :: beginningsOf rest := by
      rw [asks]
      rfl
    rw [tells, quiet, List.getLast?_concat]
  · rw [quiet, List.append_nil, timed.begun]
    unfold Machine.currentRound?
    rw [if_neg (stays started), same]

/-- An act asks for its timer behind the round that it is in. -/
theorem Timed.keeps (timed : Timed s m asked) (act : Act s w input m es m')
    (started : m'.step ≠ .idle) (forward : m'.Reached m.round m.step) :
    Timed s m' (asked ++ es) := by
  have last := timed.last act started
  constructor
  case begun =>
    unfold Machine.currentRound?
    rw [beginningsOf_append, last, if_neg started]
  case timers =>
    intro before timer delay after split
    rcases append_split split with ⟨rest, earlier⟩ | ⟨first, rfl, now⟩
    · exact timed.timers before timer delay rest earlier
    · have asks : timer ∈ timersOf es := now ▸ mem_timersOf_of_split
      obtain ⟨height, round, -⟩ := act.of_asked started asks
      rw [beginningsOf_append, act.begun_before now, last, round]
      exact ⟨height, rfl⟩
  case reached =>
    intro timer asks
    rw [timersOf_append] at asks
    rcases List.mem_append.1 asks with earlier | now
    · exact (timed.reached timer earlier).trans forward
    · obtain ⟨-, round, due⟩ := act.of_asked started now
      exact Or.inr ⟨round, due⟩

-- ============================================================ from the start

/-- The steps that acts enter are in order, so the machine only goes forward. -/
theorem Acts.forward (acts : Acts s w input m es m') (signs : SignsForward m asked) :
    SignsForward m' (asked ++ es) ∧ m'.Reached m.round m.step := by
  refine acts.keeps
    (P := fun m' asked => SignsForward m' asked ∧ m'.Reached m.round m.step)
    (fun act held => ?_) ⟨signs, Or.inr ⟨rfl, Nat.le_refl _⟩⟩
  exact ⟨held.1.keeps act.moves, held.2.trans (held.1.forward act.moves)⟩

/-- What acts make of a machine that has started. -/
theorem Acts.timed (acts : Acts s w input m es m') (started : m.step ≠ .idle)
    (signs : SignsForward m asked) (timed : Timed s m asked) :
    m'.step ≠ .idle ∧ SignsForward m' (asked ++ es) ∧ Timed s m' (asked ++ es) := by
  refine acts.keeps
    (P := fun m asked => m.step ≠ .idle ∧ SignsForward m asked ∧ Timed s m asked)
    (fun act held => ?_) ⟨started, signs, timed⟩
  obtain ⟨started, signs, timed⟩ := held
  have goes := act.moves.started started
  exact ⟨goes, signs.keeps act.moves, timed.keeps act goes (signs.forward act.moves)⟩

/-- Whatever part of an input was worked off, its timers were asked for in time. -/
theorem Work.Reaches.timed {k k' : Work} (reaches : Work.Reaches s w input k k')
    (started : k.machine.step ≠ .idle)
    (signs : SignsForward k.machine (asked ++ k.effects))
    (timed : Timed s k.machine (asked ++ k.effects)) :
    Timed s k'.machine (asked ++ k'.effects) := by
  obtain ⟨es, more, acts⟩ := reaches
  rw [more, ← List.append_assoc]
  exact (acts.timed started signs timed).2.2

/-- What the start does after beginning its round is done by acts. -/
theorem Work.goes_on (k : Work) :
    Work.Reaches s w .start k ((k.done.andThen fun k => k.advance s w 0).andThen
      fun k => k.settle s w).1 :=
  ((Work.Reaches.refl k).andThen fun _ => Work.advance_zero_reaches).andThen
    fun _ => Work.settle_reaches _

/-- The start begins a round, and all else is done in it. -/
theorem Timed.start (timed : Timed s m asked) (signs : SignsForward m asked)
    (idle : m.step = .idle) :
    Timed s (m.handle s w .start).machine (asked ++ (m.handle s w .start).effects) := by
  have run : (Work.ofMachine m).run s w .start
      = (((Work.ofMachine m).startRound s w 0).andThen
          fun k => k.advance s w 0).andThen fun k => k.settle s w := by
    have off : ¬(Work.ofMachine m).machine.step ≠ .idle := not_not.2 idle
    unfold Work.run Work.apply
    dsimp only
    unfold Work.start
    rw [if_neg off]
  show Timed s ((Work.ofMachine m).run s w .start).1.machine
    (asked ++ ((Work.ofMachine m).run s w .start).1.effects)
  rw [run]
  rcases Work.startRound_cases s w (Work.ofMachine m) 0
    with ⟨fault, same⟩ | ⟨log, moved, same⟩
  -- a round that cannot be begun leaves the machine at rest
  · rw [same]
    show Timed s m (asked ++ [])
    rw [List.append_nil]
    exact timed
  · rw [same]
    have act : Act s w .start m _ _ :=
      .beginRound m 0 log (.start rfl idle rfl) moved
    have goes : (Machine.opening s w
        { m with log := log, round := 0, step := .propose } 0).1.step ≠ .idle := by
      obtain ⟨_, opened, -⟩ := Machine.opening_relogs s w
        { m with log := log, round := 0, step := .propose } 0
      rw [opened]
      exact Step.noConfusion
    have begun := timed.keeps act goes (signs.forward act.moves)
    exact (Work.goes_on _).timed goes (signs.keeps act.moves) begun

namespace Work

variable {k : Work}

/-- A machine at rest does not advance. -/
theorem advance_idle (idle : k.machine.step = .idle) (round : Round) :
    timersOf (k.advance s w round).1.effects = timersOf k.effects := by
  unfold advance
  rw [if_pos (Or.inl idle)]
  rfl

/-- What is handled before the start asks for no timer. -/
theorem apply_idle (idle : k.machine.step = .idle) (told : input ≠ .start) :
    timersOf (k.apply s w input).1.effects = timersOf k.effects := by
  cases input with
  | start => exact absurd rfl told
  | timer timer =>
    show timersOf (k.takeTimer s w timer).1.effects = _
    by_cases ours : timer.height = s.scope.height
    · rw [takeTimer_overdue ours (Or.inr (Or.inl idle))]
      exact filterMap_append_of_nil timer.timersOf_report
    · exact congrArg (fun a : Attempt => timersOf a.1.effects) (if_pos ours)
  | message message =>
    -- nothing that a message does at rest comes to a timer
    show timersOf (k.takeMessage s w message).1.effects = _
    unfold takeMessage
    split
    case isTrue => rfl
    case isFalse =>
      cases message with
      | proposal p =>
        dsimp only
        unfold addProposal
        split
        case h_1 => rfl
        case h_2 => exact advance_idle (by exact idle) _
      | vote vote =>
        dsimp only
        unfold addVote
        split
        case h_1 => rfl
        case h_2 =>
          dsimp only
          split
          case h_1 fault _ => cases fault <;> rfl
          case h_2 => exact advance_idle (by exact idle) _
      | claim claim =>
        show timersOf (k.takeClaim s w claim).1.effects = _
        unfold takeClaim
        dsimp only
        split
        case h_1 => rfl
        case h_2 => rfl
        case h_3 => exact filterMap_append_of_nil rfl
      | holdings holdings =>
        show timersOf (k.takeHoldings s holdings).1.effects = _
        unfold takeHoldings
        split
        case h_1 => rfl
        case h_2 votes _ =>
          rw [foldl_forward]
          exact filterMap_append_of_nil (filterMap_forward (fun _ => rfl) votes)

end Work

/-- Nothing but the start starts a machine. -/
theorem Acts.idle (acts : Acts s w input m es m') (told : input ≠ .start)
    (idle : m.step = .idle) : m'.step = .idle :=
  acts.keeps_machine (P := fun m => m.step = .idle)
    (fun act idle => by_contra fun started => act.started told started idle) idle

/-- Before the start no timer is asked for, and no round is begun. -/
theorem Machine.handle_idle (idle : m.step = .idle) (told : input ≠ .start) :
    timersOf (m.handle s w input).effects = []
      ∧ beginningsOf (m.handle s w input).effects = [] := by
  constructor
  · obtain ⟨_, -, acts⟩ : Work.Reaches s w input (Work.ofMachine m)
        ((Work.ofMachine m).apply s w input).1 := Work.apply_reaches _
    have resting := acts.idle told idle
    have silent := Work.apply_idle (s := s) (w := w) (k := Work.ofMachine m) idle told
    show timersOf ((Work.ofMachine m).run s w input).1.effects = []
    unfold Work.run Attempt.andThen
    split
    case h_1 => exact silent
    case h_2 =>
      dsimp only
      unfold Work.settle
      rw [if_pos resting]
      exact silent
  · refine List.eq_nil_iff_forall_not_mem.2 fun round begun => ?_
    obtain ⟨_, here, before, cause⟩ :=
      (m.handle_acts s w input).cause_of_beginning begun
    have resting := before.idle told idle
    cases cause with
    | start start => exact told start
    | follow _ _ _ started => exact started resting
    | next _ _ _ ended => cases ended.symm.trans resting

/-- At rest nothing but the start asks for timers, and after it every act asks for
its own in time. -/
theorem Timed.handle (timed : Timed s m asked) (signs : SignsForward m asked)
    (w : World) (input : Input) :
    Timed s (m.handle s w input).machine (asked ++ (m.handle s w input).effects) := by
  by_cases idle : m.step = .idle
  · by_cases told : input = .start
    · subst told
      exact timed.start signs idle
    · obtain ⟨silent, quiet⟩ := Machine.handle_idle (s := s) (w := w) idle told
      have resting := (m.handle_acts s w input).idle told idle
      have same : timersOf (asked ++ (m.handle s w input).effects) = timersOf asked :=
        filterMap_append_of_nil silent
      constructor
      case begun =>
        rw [beginningsOf_append, quiet, List.append_nil, timed.begun]
        unfold Machine.currentRound?
        rw [if_pos idle, if_pos resting]
      case timers =>
        intro before timer delay after split
        rcases append_split split with ⟨rest, earlier⟩ | ⟨first, -, now⟩
        · exact timed.timers before timer delay rest earlier
        · have asks : timer ∈ timersOf (m.handle s w input).effects :=
            now ▸ mem_timersOf_of_split
          rw [silent] at asks
          cases asks
      case reached =>
        rw [same]
        exact fun timer asks =>
          (timed.reached timer asks).trans ((m.handle_acts s w input).forward signs).2
  · exact ((m.handle_acts s w input).timed idle signs timed).2.2

/-- At any moment of a life, timers are of the rounds that they were asked for
in. -/
theorem timed_after (s : Setup) (turns : List (World × Input)) :
    Timed s (Life.after s turns).machine (Life.after s turns).asked := by
  induction turns using List.reverseRecOn with
  | nil => exact ⟨rfl, fun before _ _ _ split => by simp [Life.after, Life.run,
      Life.initial] at split, nofun⟩
  | append_singleton turns turn ih =>
    rw [Life.after_snoc]
    exact ih.handle (reachable_after s turns).signsForward turn.1 turn.2

-- ================================================================== again

/-- A timer that was scheduled and is handled has no time afterwards. -/
theorem Timed.passed (timed : Timed s m asked) (signs : SignsForward m asked)
    {timer : Timer} (scheduled : timer ∈ timersOf asked) (w : World) :
    (m.handle s w (.timer timer)).machine.Passed timer.round timer.kind := by
  obtain ⟨before, delay, after, split⟩ := exists_split scheduled
  obtain ⟨ours, -⟩ := timed.timers before timer delay after split
  have applied : ((Work.ofMachine m).takeTimer s w timer).1.machine.Passed
      timer.round timer.kind := by
    rw [Work.machine_takeTimer ours]
    by_cases past : m.Passed timer.round timer.kind
    · rw [Work.expire_overdue past.overdue]
      exact past
    · obtain ⟨here, due⟩ := (timed.reached timer scheduled).resolve_left
        fun before => past (Or.inl before)
      exact Work.expire_passes signs.placed here.symm due fun late =>
        past (Or.inr ⟨here, late⟩)
  obtain ⟨es, -, acts⟩ : Work.Reaches s w (.timer timer) (Work.ofMachine m)
      ((Work.ofMachine m).apply s w (.timer timer)).1 := Work.apply_reaches _
  obtain ⟨es', -, settles⟩ := Work.run_settles s w (Work.ofMachine m) (.timer timer)
  exact applied.later (settles.forward (acts.forward signs).1).2

/-- However many turns were taken since a scheduled timer was handled, it has no
time any more. -/
theorem passed_again {before after : List (World × Input)} {timer : Timer}
    (scheduled : Scheduled (Life.after s before).asked timer) (w : World) :
    (Life.after s (before ++ (w, .timer timer) :: after)).machine.Passed
      timer.round timer.kind := by
  have start : Reachable s anything (Life.after s before) := reachable_after s before
  have passed := (timed_after s before).passed start.signsForward
    (mem_timersOf.2 scheduled) w
  have leads : Leads s anything ((Life.after s before).next s w (.timer timer))
      (Life.after s (before ++ (w, .timer timer) :: after)) := by
    rw [Life.after_append]
    exact leads_run s _ after fun _ _ _ => trivial
  exact passed.later (leads.reached (.next w (.timer timer) start trivial))

-- =============================================================== no effect

/-- After a timer that has no time, the rules find nothing to do. -/
theorem Machine.handle_overdue {timer : Timer}
    (rest : m.step ≠ .idle → m.AtRest s w) (informed : m.Informed)
    (ours : timer.height = s.scope.height)
    (late : m.Overdue timer.round timer.kind) :
    m.handle s w (.timer timer) = ⟨m, timer.report, .ok ()⟩ := by
  have applied : (Work.ofMachine m).apply s w (.timer timer)
      = (⟨m, timer.report⟩, .ok ()) :=
    Work.takeTimer_overdue ours late
  have settled : (⟨m, timer.report⟩ : Work).settle s w
      = (⟨m, timer.report⟩, .ok ()) := by
    unfold Work.settle
    split
    case isTrue => rfl
    case isFalse started =>
      obtain ⟨left, limit⟩ := Work.passLimit_eq_succ s
      rw [limit]
      unfold Work.passes
      rw [Work.pass_of_informed (rest started) informed]
      rfl
  have run : (Work.ofMachine m).run s w (.timer timer)
      = (⟨m, timer.report⟩, .ok ()) := by
    unfold Work.run
    rw [applied]
    exact settled
  unfold Machine.handle
  rw [run]

/-- Timers are one-shot, and late ones are inert. Take any turns. No slot of a round
was scheduled twice in them, and each timer that was scheduled is of this height and
of the round that had begun last by then, which is the one that the machine was in.
If no turn failed fatally, and the world thinks of blocks as it did all along, then
to handle a scheduled timer that comes late, or once more, leaves the machine as it
is, and asks for nothing but to tell of that timer. -/
theorem timers_fire_once (s : Setup) (turns : List (World × Input)) :
    ((timersOf (Life.after s turns).asked).map Timer.place).Nodup
    ∧ (beginningsOf (Life.after s turns).asked).getLast?
      = (Life.after s turns).machine.currentRound?
    ∧ (∀ before timer delay after,
      (Life.after s turns).asked = before ++ .schedule timer delay :: after →
        timer.height = s.scope.height
          ∧ (beginningsOf before).getLast? = some timer.round)
    ∧ ∀ w timer, Unchanging w turns → (Life.initial s).unbroken s turns = true →
      Scheduled (Life.after s turns).asked timer → Late s turns timer →
      (Life.after s turns).machine.handle s w (.timer timer)
        = ⟨(Life.after s turns).machine, timer.report, .ok ()⟩ := by
  have timed := timed_after s turns
  refine ⟨(reachable_after s turns).armedOnce.once, timed.begun, timed.timers, ?_⟩
  intro w timer unchanging unbroken scheduled late
  obtain ⟨before, delay, after, split⟩ :=
    exists_split (mem_timersOf.2 scheduled)
  obtain ⟨ours, -⟩ := timed.timers before timer delay after split
  have overdue : (Life.after s turns).machine.Overdue timer.round timer.kind := by
    cases late with
    | left other => exact Or.inl other
    | passed past => exact Or.inr (Or.inr past)
    | again before after w earlier scheduled =>
      rw [earlier]
      exact (passed_again scheduled w).overdue
  exact Machine.handle_overdue (atRest_after turns unchanging unbroken)
    (informed_after turns unbroken) ours overdue

end

-- =============================================================== examples

open scoped Plain

namespace Plain

/-- The timer for prevotes of the first of four validators, which has locked the
empty block. -/
def prevoteTimer : Timer := ⟨1, 0, .prevote⟩

/-- The timer fires, and it precommits nothing. -/
def firedTurns : List (World × Input) := lockTurns ++ [(world, .timer prevoteTimer)]

end Plain

open Plain in
/-- When that timer fires again, it is told of, and that is all. -/
theorem timers_fire_once_of_prevote :
    Unchanging world firedTurns
      ∧ (Life.initial (setup (address 1))).unbroken (setup (address 1)) firedTurns
        = true
      ∧ Scheduled (Life.after (setup (address 1)) firedTurns).asked prevoteTimer
      ∧ Late (setup (address 1)) firedTurns prevoteTimer
      ∧ (Life.after (setup (address 1)) firedTurns).machine.step = .precommit
      ∧ (Life.after (setup (address 1)) firedTurns).machine.handle (setup (address 1))
          world (.timer prevoteTimer)
        = ⟨(Life.after (setup (address 1)) firedTurns).machine,
            [.emit (.timerProcessed 0 .prevote)], .ok ()⟩
      ∧ ∃ before delay after, (Life.after (setup (address 1)) firedTurns).asked
          = before ++ .schedule prevoteTimer delay :: after
        ∧ (beginningsOf before).getLast? = some 0 := by
  have unchanging : Unchanging world firedTurns :=
    unchanging_of_world (by simp [firedTurns, lockTurns, offer, votes, vote])
  have unbroken : (Life.initial (setup (address 1))).unbroken (setup (address 1))
      firedTurns = true := by
    decide +kernel
  have scheduled : Scheduled (Life.after (setup (address 1)) firedTurns).asked
      prevoteTimer := by
    decide +kernel
  have early : Scheduled (Life.after (setup (address 1)) lockTurns).asked
      prevoteTimer := by
    decide +kernel
  have late : Late (setup (address 1)) firedTurns prevoteTimer :=
    .again lockTurns [] world rfl early
  have step : (Life.after (setup (address 1)) firedTurns).machine.step = .precommit := by
    decide +kernel
  obtain ⟨-, -, timers, inert⟩ := timers_fire_once (setup (address 1)) firedTurns
  obtain ⟨before, delay, after, split⟩ := exists_split (mem_timersOf.2 scheduled)
  exact ⟨unchanging, unbroken, scheduled, late, step,
    inert world prevoteTimer unchanging unbroken scheduled late, before, delay, after,
    split, (timers before prevoteTimer delay after split).2⟩

end Quorum
