/-
A refused end of a round ends it all the same.

A block is validated once more before it is handed over, and the chain may
have changed its mind since it was decided. Then the timer that ends the
round is refused. That is the only refusal a timer can meet, and it comes
too late to leave no trace: the step is the end of the round by then, and
nothing else is changed (`Machine.handle_timer_refused`).

The step is what tells a machine that its round is over, and from the end of
a round there are two ways on. One is the next round, which a decided machine
never begins. The other is handing over, which asks for a step before the end.
So a machine that was refused once stays where it is for good, whatever comes
and however the chain answers from then on (`Leads.of_ended`).
-/
import Quorum.Proofs.Machine.Finality
import Quorum.Proofs.Machine.Refusing

namespace Quorum

-- ========================================================== the refusal

/-- Where what comes next does not fail like this, the failure came before. -/
theorem Attempt.eq_of_failed {a : Attempt} {next : Work → Attempt}
    {fault : Fault} {p : Fault → Prop} (rest : ∀ k, (next k).FailsWith p)
    (failed : (a.andThen next).2 = .error fault) (other : ¬p fault) :
    a.andThen next = a ∧ a.2 = .error fault := by
  obtain ⟨k, result⟩ := a
  cases result with
  | error earlier => exact ⟨rfl, failed⟩
  | ok _ => exact absurd (rest k fault failed) other

/-- A timer at which the round of the machine ends. -/
structure EndsRound (s : Setup) (m : Machine) (timer : Timer) : Prop where
  started : m.step ≠ .idle
  unfinished : m.step ≠ .endCommit
  height : timer.height = s.scope.height
  round : timer.round = m.round
  ends : timer.kind = .precommit ∨ timer.kind = .endCommitWait

/-- Why the timer that ends a decided round is refused. -/
structure RefusedEnd (s : Setup) (w : World) (m : Machine) (timer : Timer)
    (fault : Fault) (d : Pinned) : Prop extends EndsRound s m timer where
  decided : m.decision = some d
  invalid : ∃ why, w.validate d.block = .error why ∧ fault = .block why

section

variable [Crypto] {s : Setup} {w : World} {fault : Fault}

/-- Where the end of a round fails, the step is changed, and nothing else. -/
theorem Work.enterEndCommit_failed {k : Work} {round : Round}
    (failed : (k.enterEndCommit s w round).2 = .error fault) :
    k.machine.round = round ∧ k.machine.step ≠ .idle
      ∧ k.machine.step ≠ .endCommit
      ∧ (k.enterEndCommit s w round).1 = k.setStep s .endCommit := by
  unfold enterEndCommit at failed ⊢
  split
  case isTrue off =>
    rw [if_pos off] at failed
    cases failed
  case isFalse going =>
    rw [if_neg going] at failed
    rw [not_or, not_or, Decidable.not_not] at going
    obtain ⟨here, started, unfinished⟩ := going
    refine ⟨here, started, unfinished, ?_⟩
    split
    case h_1 undecided =>
      rw [undecided] at failed
      dsimp only at failed ⊢
      exact startRound_failed failed
    case h_2 d decided =>
      rw [decided] at failed
      dsimp only at failed ⊢
      unfold complete at failed ⊢
      split
      case h_1 => rfl
      case h_2 accepted =>
        rw [accepted] at failed
        dsimp only at failed
        split
        case h_1 => rfl
        case h_2 certificate found =>
          rw [found] at failed
          cases failed

/-- No timer fails but one that ends the round. -/
theorem Work.takeTimer_failed {k : Work} {timer : Timer}
    (failed : (k.takeTimer s w timer).2 = .error fault) :
    EndsRound s k.machine timer
      ∧ (k.takeTimer s w timer).1 = k.setStep s .endCommit := by
  obtain ⟨height, round, kind⟩ := timer
  unfold takeTimer at failed ⊢
  dsimp only at failed ⊢
  split
  case isTrue off =>
    rw [if_pos off] at failed
    cases failed
  case isFalse ours =>
    rw [if_neg ours] at failed
    rw [Decidable.not_not] at ours
    -- telling of the timer fails with nothing, so it failed before
    obtain ⟨whole, failed⟩ := Attempt.eq_of_failed (p := fun _ => False)
      (fun k => .done (k.reportTimer _)) failed id
    have ended : ∀ (_ : kind = .precommit ∨ kind = .endCommitWait)
        (_ : k.expire s w round kind = k.enterEndCommit s w round),
        EndsRound s k.machine ⟨height, round, kind⟩
          ∧ (k.expire s w round kind).1 = k.setStep s .endCommit := by
      intro ends same
      rw [same] at failed ⊢
      obtain ⟨here, started, unfinished, after⟩ := enterEndCommit_failed failed
      exact ⟨⟨started, unfinished, ours, here.symm, ends⟩, after⟩
    rw [whole]
    cases kind with
    | propose =>
      unfold expire at failed
      dsimp only at failed
      split at failed <;> cases failed
    | prevote =>
      unfold expire at failed
      dsimp only at failed
      split at failed <;> cases failed
    | precommit => exact ended (Or.inl rfl) rfl
    | precommitWait hash => cases failed
    | endCommitWait => exact ended (Or.inr rfl) rfl

/-- A refused timer leaves a machine at the end of its round, and as it was
otherwise. -/
theorem Machine.handle_timer_refused {m : Machine} {timer : Timer}
    (failed : (m.handle s w (.timer timer)).result = .error fault)
    (rejects : fault.isRejection = true) :
    (∃ d, RefusedEnd s w m timer fault d)
      ∧ (m.handle s w (.timer timer)).machine = { m with step := .endCommit }
      ∧ (m.handle s w (.timer timer)).effects
        = [.emit (.stepChanged s.scope.height m.round .endCommit)] := by
  obtain ⟨whole, refused⟩ := Attempt.eq_of_rejected
    (fun k => Work.settle_fails k) failed rejects
  obtain ⟨ends, after⟩ := Work.takeTimer_failed refused
  have why : ∃ d, RefusedEnd s w m timer fault d := by
    rcases Work.takeTimer_fails _ _ fault refused with back | uncompleted
    · have fatal := back.ofRules.isRejection
      rw [rejects] at fatal
      cases fatal
    · cases uncompleted with
      | invalid d decided why invalid =>
        exact ⟨d, ends, decided, why, invalid, rfl⟩
      | uncertified => cases rejects
  have left : ((Work.ofMachine m).run s w (.timer timer)).1
      = (Work.ofMachine m).setStep s .endCommit := by
    unfold Work.run
    rw [whole]
    exact after
  exact ⟨why, congrArg Work.machine left, congrArg Work.effects left⟩

end

-- ===================================================== after the refusal

/-- A decided machine at the end of its round does nothing more with it. -/
theorem Concludes.of_ended {s : Setup} {w : World} {input : Input}
    {m m' : Machine} {es : List Effect} (h : Concludes s w input m es m') {d : Pinned}
    (decided : m.decision = some d) (ended : m.step = .endCommit) :
    m'.decision = some d ∧ m'.step = .endCommit ∧ m'.round = m.round
      ∧ completionsOf es = [] := by
  have started : m.step ≠ .idle := by
    rw [ended]
    decide
  obtain ⟨stays, round, later, -⟩ := h.of_decided decided started
  rw [ended] at later
  refine ⟨stays, step_eq_endCommit later, round, ?_⟩
  exact h.completion_cases.resolve_right fun ⟨_, _, _, unfinished, _⟩ => unfinished ended

section

variable [Crypto] {s : Setup}

/-- And so it stays, whatever is given to it. -/
theorem Leads.of_ended {admits : Life → Input → Prop} {l l' : Life}
    (leads : Leads s admits l l') {d : Pinned}
    (decided : l.machine.decision = some d)
    (ended : l.machine.step = .endCommit) :
    l'.machine.decision = some d ∧ l'.machine.step = .endCommit
      ∧ l'.machine.round = l.machine.round
      ∧ completionsOf l'.asked = completionsOf l.asked := by
  refine Leads.keeps (P := fun _ m asked => m.decision = some d
      ∧ m.step = .endCommit ∧ m.round = l.machine.round
      ∧ completionsOf asked = completionsOf l.asked)
    ?_ (fun _ kept => kept) leads ⟨decided, ended, rfl, rfl⟩
  intro l₀ w input m m' es asked _ _ act kept
  obtain ⟨pinned, last, same, handed⟩ := kept
  obtain ⟨pinned', last', same', none_⟩ := act.concludes.of_ended pinned last
  exact ⟨pinned', last', same'.trans same,
    (filterMap_append_of_nil none_).trans handed⟩

/-- Whatever a machine was given, a timer of it is refused for one reason only:
it ends the round, and the decided block is not valid any more. The refusal
does not leave the machine as it was: it is at the end of its round from then
on. There it stays, in that round and with that decision, whatever is given to
it and however the world answers, and it never hands over the block. -/
theorem refused_timer_ends_height (s : Setup) (turns : List (World × Input))
    (w : World) (timer : Timer) {fault : Fault}
    (failed : ((Life.after s turns).machine.handle s w (.timer timer)).result
      = .error fault)
    (rejects : fault.isRejection = true) :
    ∃ d, RefusedEnd s w (Life.after s turns).machine timer fault d
      ∧ ((Life.after s turns).machine.handle s w (.timer timer)).machine
        = { (Life.after s turns).machine with step := .endCommit }
      ∧ ∀ more : List (World × Input),
        (Life.after s (turns ++ (w, .timer timer) :: more)).machine.step
            = .endCommit
          ∧ (Life.after s (turns ++ (w, .timer timer) :: more)).machine.round
            = (Life.after s turns).machine.round
          ∧ (Life.after s (turns ++ (w, .timer timer) :: more)).machine.decision
            = some d
          ∧ completionsOf
            (Life.after s (turns ++ (w, .timer timer) :: more)).asked = [] := by
  obtain ⟨⟨d, why⟩, after, asked⟩ := Machine.handle_timer_refused failed rejects
  refine ⟨d, why, after, fun more => ?_⟩
  have first : completionsOf (Life.after s turns).asked = [] :=
    (reachable_after s turns).concluded.completed.resolve_right
      fun before => why.unfinished before.1
  have refused : completionsOf
      ((Life.after s turns).next s w (.timer timer)).asked = [] := by
    refine (filterMap_append_of_nil ?_).trans first
    rw [asked]
    rfl
  have leads : Leads s anything ((Life.after s turns).next s w (.timer timer))
      (Life.after s (turns ++ (w, .timer timer) :: more)) := by
    rw [Life.after_append]
    exact leads_run s _ more fun _ _ _ => trivial
  have machine : ((Life.after s turns).next s w (.timer timer)).machine
      = { (Life.after s turns).machine with step := .endCommit } := after
  obtain ⟨decided, ended, round, handed⟩ := leads.of_ended
    ((congrArg (·.decision) machine).trans why.decided)
    (congrArg (·.step) machine)
  exact ⟨ended, round.trans (congrArg (·.round) machine), decided,
    handed.trans refused⟩

end

open scoped Plain

namespace Plain

/-- The first of four validators decides the empty block. -/
def decidedTurns : List (World × Input) := finishing.dropLast

/-- A world that takes no block. -/
def refusing : World :=
  { world with validate := fun block => .error (.rejected block.hash) }

/-- The block is due, and is not taken. -/
def refusedEnd : World × Input := (refusing, .timer ⟨1, 0, .endCommitWait⟩)

/-- Why not. -/
def rejectedFault : Fault := .block (.rejected (block 0).hash)

/-- What the machine makes of that. -/
def refusedOutcome : Outcome :=
  (Life.after (setup (address 1)) decidedTurns).machine.handle (setup (address 1))
    refusedEnd.1 refusedEnd.2

/-- Timers that would end the round, in a world that takes every block. -/
def tooLate : List (World × Input) := [timer 0 .endCommitWait, timer 0 .precommit]

end Plain

open Plain in
/-- A refused timer does change the machine, and afterwards the block is not
handed over to a world that takes it, as it would have been before. -/
theorem refused_timer_spends_end :
    Reachable (setup (address 1)) ownTimers
        (Life.after (setup (address 1)) decidedTurns)
      ∧ ownTimers (Life.after (setup (address 1)) decidedTurns) refusedEnd.2
      ∧ refusedOutcome.result = .error rejectedFault
      ∧ rejectedFault.isRejection = true
      ∧ (Life.after (setup (address 1)) decidedTurns).machine.step = .prevote
      ∧ refusedOutcome.machine.step = .endCommit
      ∧ (completionsOf (Life.after (setup (address 1))
        (decidedTurns ++ tooLate)).asked).map (·.1) = [block 0]
      ∧ completionsOf (Life.after (setup (address 1))
        (decidedTurns ++ refusedEnd :: tooLate)).asked = [] := by
  have start : Reachable (setup (address 1)) ownTimers
      (Life.after (setup (address 1)) decidedTurns) :=
    leads_run _ _ _ fun turn given =>
      ownTimers_of_untimed (by revert turn; decide)
  refine ⟨start, ?_, ?_, rfl, ?_, ?_, ?_, ?_⟩
  all_goals decide +kernel

open Plain in
/-- That machine never hands over its block. -/
theorem refused_timer_ends_height_of_decided :
    refusedOutcome.result = .error rejectedFault
      ∧ rejectedFault.isRejection = true
      ∧ refusedOutcome.machine
        = { (Life.after (setup (address 1)) decidedTurns).machine with
          step := .endCommit }
      ∧ ∀ more, completionsOf (Life.after (setup (address 1))
        (decidedTurns ++ refusedEnd :: more)).asked = [] := by
  have failed : refusedOutcome.result = .error rejectedFault := by
    decide +kernel
  obtain ⟨d, -, after, ever⟩ := refused_timer_ends_height (setup (address 1))
    decidedTurns refusing ⟨1, 0, .endCommitWait⟩ failed rfl
  exact ⟨failed, rfl, after, fun more => (ever more).2.2.2⟩

end Quorum
