/-
Handling an input is a sequence of acts.

One lemma for each function of the machine, from the single votes up to
the handling of an input: whatever the function does to the work, acts
lead there. What a function checks before it acts becomes the guard of
the act, so `handle_acts` at the end carries everything that is known of
a machine's steps, and no proof about runs opens a function again.
-/
import Quorum.Proofs.Machine.Act

namespace Quorum.Work

-- ============================================================== votes

/-- After the start and before the prevote there is the proposal. -/
theorem step_eq_propose {step : Step} (started : step ≠ .idle)
    (early : ¬Step.prevote ≤ step) : step = .propose := by
  revert started early
  cases step <;> decide

/-- Between the start and the precommit there are two steps. -/
theorem step_eq_propose_or_prevote {step : Step} (started : step ≠ .idle)
    (early : ¬Step.precommit ≤ step) : step = .propose ∨ step = .prevote := by
  revert started early
  cases step <;> decide

/-- From the proposing step a prevote of the round is cast. -/
theorem enterPrevote_of_propose (s : Setup) (w : World) (k : Work)
    (hash : BlockHash) (step : k.machine.step = .propose) :
    (k.enterPrevote s w k.machine.round hash).1
      = ⟨{ k.machine with step := .prevote },
          k.effects ++ Machine.prevoting s w k.machine.round hash⟩ := by
  have early : ¬(k.machine.round ≠ k.machine.round ∨ Step.propose = .idle
      ∨ Step.prevote ≤ Step.propose) := by
    intro off
    rcases off with away | idle | late
    · exact away rfl
    · exact Step.noConfusion idle
    · exact absurd late (by decide)
  unfold enterPrevote
  rw [step, if_neg early, castVote_eq]
  simp only [emit, ask, setStep, update, Machine.prevoting, List.append_assoc,
    List.cons_append, List.nil_append]

/-- On a proposal the block's verdict and the lock say which one it is. -/
theorem prevoteOn_of_propose (s : Setup) (w : World) (k : Work) (offer : Offer)
    (step : k.machine.step = .propose) :
    (k.prevoteOn s w offer).1
      = ⟨{ k.machine.judged s w offer.hash offer.block with step := .prevote },
          k.effects ++ Machine.prevoting s w k.machine.round
            (k.machine.prevoteHash s w offer)⟩ :=
  enterPrevote_of_propose s w
    ⟨k.machine.judged s w offer.hash offer.block, k.effects⟩
    (k.machine.prevoteHash s w offer) step

/-- A prevote is cast only from the proposing step of its round. -/
theorem enterPrevote_cases (s : Setup) (w : World) (k : Work) (round : Round)
    (hash : BlockHash) :
    (k.enterPrevote s w round hash).1 = k
      ∨ k.machine.round = round ∧ k.machine.step = .propose := by
  unfold enterPrevote
  split
  case isTrue => exact Or.inl rfl
  case isFalse early =>
    rw [not_or, not_or, Decidable.not_not] at early
    obtain ⟨here, started, early⟩ := early
    exact Or.inr ⟨here, step_eq_propose started early⟩

/-- A precommit is cast only before the precommitting step of its round. -/
theorem enterPrecommit_cases (s : Setup) (w : World) (k : Work) (round : Round)
    (hash : BlockHash) :
    (k.enterPrecommit s w round hash).1 = k
      ∨ k.machine.round = round
        ∧ (k.machine.step = .propose ∨ k.machine.step = .prevote)
        ∧ (k.enterPrecommit s w round hash).1
          = ⟨{ k.machine with step := .precommit },
              k.effects ++ Machine.precommitting s w k.machine.round hash⟩ := by
  unfold enterPrecommit
  split
  case isTrue => exact Or.inl rfl
  case isFalse early =>
    rw [not_or, not_or, Decidable.not_not] at early
    obtain ⟨here, started, early⟩ := early
    refine Or.inr ⟨here, step_eq_propose_or_prevote started early, ?_⟩
    rw [castVote_eq, ← here]
    simp only [emit, ask, setStep, update, Machine.precommitting,
      List.append_assoc, List.cons_append, List.nil_append]

/-- Votes passed on one by one are asked for in order, and the machine stays. -/
theorem foldl_forward (votes : List Vote) (k : Work) :
    votes.foldl forward k = ⟨k.machine, k.effects ++ votes.map .forward⟩ := by
  induction votes generalizing k with
  | nil => exact congrArg (Work.mk k.machine) (List.append_nil k.effects).symm
  | cons vote votes ih =>
    rw [List.foldl_cons, ih]
    simp [forward, ask]

/-- A decision rule that decides nothing leaves all but verdicts. -/
theorem decideRule_judges (s : Setup) (w : World) (k : Work)
    (h : (k.decideRule s w).2 = false) :
    ∃ verdicts, (k.decideRule s w).1.machine
      = { k.machine with verdicts := verdicts } := by
  unfold decideRule at h ⊢
  split
  case h_1 => exact ⟨_, rfl⟩
  case h_2 proposal held =>
    rw [held] at h
    dsimp only at h ⊢
    split
    case isFalse => exact ⟨_, rfl⟩
    case isTrue majority =>
      rw [if_pos majority] at h
      split
      case isFalse => exact ⟨_, rfl⟩
      case isTrue valid =>
        rw [if_pos valid] at h
        exact Bool.noConfusion h

/-- So it is as able to follow others into a round as it was before. -/
theorem decideRule_undecided (s : Setup) (w : World) (k : Work)
    (h : (k.decideRule s w).2 = false) :
    (k.decideRule s w).1.machine.step = k.machine.step
      ∧ (k.decideRule s w).1.machine.decision = k.machine.decision := by
  obtain ⟨verdicts, same⟩ := decideRule_judges s w k h
  rw [same]
  exact ⟨rfl, rfl⟩

-- ============================================================= rounds

variable [Crypto] {s : Setup} {w : World} {input : Input}

/-- A round that is opened by its proposer has a proposal, and any other
has the timer for one. -/
theorem openRound_eq (s : Setup) (w : World) (k : Work) (round : Round)
    (here : k.machine.round = round) :
    k.openRound s w round
      = ⟨(Machine.opening s w { k.machine with step := .propose } round).1,
          k.effects ++ .emit (.roundStarted s.scope.height round)
            :: .emit (.stepChanged s.scope.height round .propose)
            :: (Machine.opening s w
              { k.machine with step := .propose } round).2⟩ := by
  have entered :
      (k.emit (.roundStarted s.scope.height round)).setStep s .propose
      = ⟨{ k.machine with step := .propose }, k.effects
          ++ [.emit (.roundStarted s.scope.height round),
            .emit (.stepChanged s.scope.height round .propose)]⟩ := by
    simp [emit, ask, setStep, update, here]
  unfold openRound Machine.opening
  rw [entered]
  dsimp only
  split
  · unfold proposeBlock
    dsimp only
    cases blockToPropose s w { k.machine with step := .propose } with
    | error fault =>
      dsimp only
      rw [arm_eq]
      simp [emit, ask, TimerKind.slot]
    | ok offered => simp [emit, ask, publish]
  · rw [arm_eq]
    simp [TimerKind.slot]

/-- A round is begun, or the log does not go there. -/
theorem startRound_cases (s : Setup) (w : World) (k : Work) (round : Round) :
    (∃ fault, k.startRound s w round = k.fail fault)
      ∨ ∃ log, k.machine.log.setRound round = .ok log
        ∧ k.startRound s w round = Work.done
          ⟨(Machine.opening s w
              { k.machine with log := log, round := round, step := .propose } round).1,
            k.effects ++ .emit (.roundStarted s.scope.height round)
              :: .emit (.stepChanged s.scope.height round .propose)
              :: (Machine.opening s w { k.machine with
                log := log, round := round, step := .propose } round).2⟩ := by
  unfold startRound
  split
  case h_1 fault _ => exact Or.inl ⟨fault, rfl⟩
  case h_2 log moved =>
    refine Or.inr ⟨log, moved, ?_⟩
    rw [openRound_eq s w _ round rfl]
    rfl

/-- Whoever has a cause to begin a round gets there by an act, or stays. -/
theorem startRound_reaches {k : Work} {round : Round}
    (cause : Cause s input k.machine round) :
    Reaches s w input k (k.startRound s w round).1 := by
  rcases startRound_cases s w k round with ⟨fault, same⟩ | ⟨log, moved, same⟩
  · rw [same]
    exact .refl k
  · rw [same]
    exact .of_act (.beginRound k.machine round log cause moved) rfl rfl

/-- The rule to follow checks what its cause needs: the round is later, and a third
is ahead. -/
theorem followRule_reaches {k : Work} {message : Message}
    (given : input = .message message) (started : k.machine.step ≠ .idle)
    (undecided : k.machine.decision = none) :
    Reaches s w input k (k.followRule s w message.round).1 := by
  unfold followRule
  split
  case isTrue ahead =>
    exact startRound_reaches
      (.follow message given rfl started undecided ahead.1 ahead.2)
  case isFalse => exact .refl k

-- ========================================================== decisions

/-- A block is decided, or at most judged. -/
theorem decideRule_reaches {k : Work} (started : k.machine.step ≠ .idle)
    (undecided : k.machine.decision = none) :
    Reaches s w input k (k.decideRule s w).1 := by
  unfold decideRule
  split
  case h_1 => exact .refl k
  case h_2 proposal held =>
    dsimp only
    split
    case isFalse => exact .refl k
    case isTrue majority =>
      split
      case isFalse =>
        exact .of_act (.judge k.machine proposal held) rfl (List.append_nil _).symm
      case isTrue valid =>
        refine .of_act (.decideBlock k.machine proposal _ started undecided
          held rfl majority valid _ rfl) ?_ ?_
        · show (decideOn s _ _).machine = _
          rw [decideOn, arm_eq]
          rfl
        · show (decideOn s _ _).effects = _
          rw [decideOn, arm_eq, judge_eq]
          simp [emit, ask, update]

/-- What comes of looking for a decision, and then for others to follow. -/
inductive Advanced (s : Setup) (w : World) (input : Input) (round : Round) (k : Work)
    (a : Attempt) : Prop
  /-- Before the start nothing does, nor once a block is decided. -/
  | off (free : k.machine.step = .idle ∨ k.machine.decision ≠ none) (same : a = k.done)
  /-- A block is decided. -/
  | decides (reaches : Reaches s w input k (k.decideRule s w).1)
      (decided : (k.decideRule s w).2 = true) (same : a = (k.decideRule s w).1.done)
  /-- There is none to decide, and the machine goes on in the same round. -/
  | follows (k' : Work) (reaches : Reaches s w input k k')
      (rests : k.decideRule s w = (k', false)) (started : k'.machine.step ≠ .idle)
      (undecided : k'.machine.decision = none) (same : a = k'.followRule s w round)

theorem advance_advanced (s : Setup) (w : World) (input : Input) (k : Work)
    (round : Round) : Advanced s w input round k (k.advance s w round) := by
  unfold advance
  split
  case isTrue off =>
    refine .off (off.imp_right fun decided undecided => ?_) rfl
    rw [undecided] at decided
    cases decided
  case isFalse going =>
    rw [not_or] at going
    obtain ⟨started, going⟩ := going
    have undecided : k.machine.decision = none := by simpa using going
    have reaches : Reaches s w input k (k.decideRule s w).1 :=
      decideRule_reaches started undecided
    dsimp only
    split
    case isTrue decided => exact .decides reaches decided rfl
    case isFalse rests =>
      have rests : (k.decideRule s w).2 = false := by simpa using rests
      have left := decideRule_undecided s w k rests
      exact .follows _ reaches (Prod.ext rfl rests)
        (fun idle => started (left.1.symm.trans idle)) (left.2.trans undecided) rfl

/-- What advances decides, and where nothing is decided may follow others
into their round. -/
theorem advance_reaches_of_follow {k : Work} {round : Round}
    (follows : ∀ k' : Work,
      k'.machine.step ≠ .idle → k'.machine.decision = none →
      Reaches s w input k' (k'.followRule s w round).1) :
    Reaches s w input k (k.advance s w round).1 := by
  cases advance_advanced s w input k round with
  | off _ same => exact same ▸ .refl k
  | decides reaches _ same => exact same ▸ reaches
  | follows k' reaches _ started undecided same =>
    exact same ▸ reaches.trans (follows k' started undecided)

/-- With a message the cause to follow is the message. -/
theorem advance_reaches {k : Work} {message : Message}
    (given : input = .message message) :
    Reaches s w input k (k.advance s w message.round).1 :=
  advance_reaches_of_follow fun _ started undecided =>
    followRule_reaches given started undecided

/-- Round 0 is ahead of no round, so a start only begins it and decides. -/
theorem advance_zero_reaches {k : Work} :
    Reaches s w input k (k.advance s w 0).1 := by
  refine advance_reaches_of_follow fun k' _ _ => ?_
  unfold followRule
  rw [if_neg fun ahead => absurd ahead.1 (Nat.not_lt_zero _)]
  exact .refl k'

-- ============================================================== rules

/-- A proposal that is ripe is prevoted on. -/
theorem prevoteRule_reaches (k : Work) :
    Reaches s w input k (k.prevoteRule s w).1 := by
  unfold prevoteRule
  split
  case isFalse => exact .refl k
  case isTrue step =>
    split
    case h_1 => exact .refl k
    case h_2 proposal held =>
      split
      case isFalse => exact .refl k
      case isTrue ripe =>
        have cast := prevoteOn_of_propose s w k proposal.body step
        exact .of_act (.prevote k.machine proposal step held ripe)
          (congrArg Work.machine cast) (congrArg Work.effects cast)

/-- To arm a timer is an act wherever there is a reason to wait. -/
theorem arm_reaches {k : Work} {kind : TimerKind}
    (waits : Waits s k.machine kind) :
    Reaches s w input k (k.arm s k.machine.round kind).1 := by
  rw [arm_eq]
  exact .of_act (.wait k.machine kind waits) rfl rfl

/-- The rule to wait for prevotes arms its timer. -/
theorem prevoteWaitRule_reaches (k : Work) :
    Reaches s w input k (k.prevoteWaitRule s).1 := by
  unfold prevoteWaitRule
  split
  case isFalse => exact .refl k
  case isTrue many => exact arm_reaches (.prevotes many.1 many.2)

/-- The rule to wait for precommits arms its timer. -/
theorem precommitWaitRule_reaches (k : Work) :
    Reaches s w input k (k.precommitWaitRule s).1 := by
  unfold precommitWaitRule
  split
  case isFalse => exact .refl k
  case isTrue many => exact arm_reaches (.precommits many)

/-- The step decides whether a block with a majority is locked or only
remembered. -/
theorem lockRule_reaches (k : Work) :
    Reaches s w input k (k.lockRule s w).1 := by
  unfold lockRule
  split
  case isFalse => exact .refl k
  case isTrue step =>
    split
    case h_1 => exact .refl k
    case h_2 proposal held =>
      dsimp only
      split
      case isFalse => exact .refl k
      case isTrue fresh =>
        have unseen :
            (k.machine.log.getOrFresh k.machine.round).quorumSeen = false := by
          simpa using fresh.1
        rw [judge_eq]
        dsimp only
        split
        case isFalse =>
          exact .of_act (.judge k.machine proposal held) rfl (List.append_nil _).symm
        case isTrue valid =>
          -- a machine that has precommitted must not lock any more, but it remembers
          rcases step with step | step
          · refine .of_act (.lock k.machine proposal _ step held rfl unseen
              fresh.2 valid _ rfl) ?_ ?_
            · simp [actOnQuorum, updateRound, update, lock, Machine.judged,
                Machine.sawQuorum, step, arm_eq, emit, ask, TimerKind.slot]
            · simp [actOnQuorum, updateRound, update, lock, Machine.judged,
                Machine.sawQuorum, step, arm_eq, emit, ask]
          · refine .of_act (.remember k.machine proposal _ step held rfl unseen
              fresh.2 valid) ?_ ?_
            · simp [actOnQuorum, updateRound, update, Machine.judged,
                Machine.sawQuorum, step]
            · simp [actOnQuorum, updateRound, update, Machine.judged, step]

/-- A majority for nothing arms a timer, and one for another block drops the
proposal. -/
theorem otherMajorityRule_reaches (k : Work) :
    Reaches s w input k (k.otherMajorityRule s).1 := by
  unfold otherMajorityRule
  split
  case isFalse => exact .refl k
  case isTrue step =>
    split
    case h_1 => exact .refl k
    case h_2 majority other =>
      split
      case isTrue none_ =>
        have none_ : majority = .nil := by simpa [BlockHash.isNil] using none_
        subst none_
        exact arm_reaches (.nothing step other)
      case isFalse real =>
        split
        case h_1 => exact .refl k
        case h_2 proposal held =>
          split
          case isTrue => exact .refl k
          case isFalse differs =>
            exact .of_act (.discard k.machine proposal majority step held other
              (by simpa using real) differs) rfl rfl

/-- A pass is its five rules. -/
theorem pass_reaches (k : Work) : Reaches s w input k (k.pass s w).1 := by
  unfold pass
  dsimp only
  exact (prevoteRule_reaches k).trans <| (prevoteWaitRule_reaches _).trans <|
    (lockRule_reaches _).trans <| (otherMajorityRule_reaches _).trans <|
      precommitWaitRule_reaches _

/-- However many passes are left, each of them is made of acts. -/
theorem passes_reaches (limit left : Nat) (k : Work) :
    Reaches s w input k (passes s w limit left k).1 := by
  induction left generalizing k with
  | zero => exact .refl k
  | succ left ih =>
    unfold passes
    dsimp only
    split
    · exact (pass_reaches k).trans (ih _)
    · dsimp only [done]
      exact pass_reaches k

/-- The rules are run by acts, and before the start not at all. -/
theorem settle_reaches (k : Work) : Reaches s w input k (k.settle s w).1 := by
  unfold settle
  split
  · exact .refl k
  · exact passes_reaches _ _ k

-- ============================================================== timers

/-- Where a decided round ends, the block is handed over or the round only
ends. -/
theorem complete_reaches {k : Work} {kind : TimerKind} {decision : Pinned}
    (started : k.machine.step ≠ .idle) (unfinished : k.machine.step ≠ .endCommit)
    (fired : input = .timer ⟨s.scope.height, k.machine.round, kind⟩)
    (ends : kind = .precommit ∨ kind = .endCommitWait)
    (decided : k.machine.decision = some decision) :
    Reaches s w input k ((k.setStep s .endCommit).complete s w decision).1 := by
  have finishes : Reaches s w input k (k.setStep s .endCommit) :=
    .of_act (.finish k.machine kind started unfinished fired ends) rfl rfl
  unfold complete
  split
  case h_1 => exact finishes
  case h_2 accepted =>
    split
    case h_1 => exact finishes
    case h_2 certificate certified =>
      refine .of_act (.complete k.machine kind decision certificate started
        unfinished fired ends decided accepted certified) rfl ?_
      show (k.effects ++ [_]) ++ [_] = _
      rw [List.append_assoc]
      rfl

/-- A round ends in time or not at all. What follows depends on whether there is a
decision. -/
theorem enterEndCommit_reaches {k : Work} {round : Round} {kind : TimerKind}
    (fired : input = .timer ⟨s.scope.height, round, kind⟩)
    (ends : kind = .precommit ∨ kind = .endCommitWait) :
    Reaches s w input k (k.enterEndCommit s w round).1 := by
  unfold enterEndCommit
  split
  case isTrue => exact .refl k
  case isFalse going =>
    rw [not_or, not_or, Decidable.not_not] at going
    obtain ⟨rfl, started, unfinished⟩ := going
    split
    case h_1 undecided =>
      have finishes : Reaches s w input k (k.setStep s .endCommit) :=
        .of_act (.finish k.machine kind started unfinished fired ends) rfl rfl
      exact finishes.trans
        (startRound_reaches (.next kind fired ends rfl undecided rfl))
    case h_2 decision decided =>
      exact complete_reaches started unfinished fired ends decided

/-- Each kind of timer ends its own step, where the machine is still in it. -/
theorem expire_reaches {k : Work} {timer : Timer} (fired : input = .timer timer)
    (height : timer.height = s.scope.height) :
    Reaches s w input k (k.expire s w timer.round timer.kind).1 := by
  obtain ⟨timerHeight, round, kind⟩ := timer
  dsimp only at height ⊢
  subst height
  cases kind with
  | propose =>
    show Reaches s w input k (if k.machine.step = .propose then
      (k.enterPrevote s w round .nil).1.done else k.done).1
    split
    case isFalse => exact .refl k
    case isTrue step =>
      rcases enterPrevote_cases s w k round .nil with same | ⟨here, -⟩
      · rw [same]
        exact .refl k
      · subst here
        have cast := enterPrevote_of_propose s w k .nil step
        exact .of_act (.prevoteNothing k.machine step fired)
          (congrArg Work.machine cast) (congrArg Work.effects cast)
  | prevote =>
    show Reaches s w input k (if k.machine.step = .prevote then
      (k.enterPrecommit s w round .nil).1.done else k.done).1
    split
    case isFalse => exact .refl k
    case isTrue step =>
      rcases enterPrecommit_cases s w k round .nil with same | ⟨here, -, cast⟩
      · rw [same]
        exact .refl k
      · subst here
        exact .of_act (.precommitNothing k.machine step fired)
          (congrArg Work.machine cast) (congrArg Work.effects cast)
  | precommit => exact enterEndCommit_reaches fired (Or.inl rfl)
  | precommitWait hash =>
    show Reaches s w input k (k.enterPrecommit s w round hash).1
    rcases enterPrecommit_cases s w k round hash with same | ⟨here, step, cast⟩
    · rw [same]
      exact .refl k
    · subst here
      exact .of_act (.precommit k.machine hash step fired)
        (congrArg Work.machine cast) (congrArg Work.effects cast)
  | endCommitWait => exact enterEndCommit_reaches fired (Or.inr rfl)

/-- A timer is worked off and then reported. -/
theorem takeTimer_reaches {k : Work} {timer : Timer}
    (fired : input = .timer timer) :
    Reaches s w input k (k.takeTimer s w timer).1 := by
  unfold takeTimer
  split
  case isTrue => exact .refl k
  case isFalse ours =>
    rw [Decidable.not_not] at ours
    refine (expire_reaches fired ours).andThen fun _ => ?_
    show Reaches s w input _ (reportTimer _ timer)
    unfold reportTimer
    split
    case h_1 step guards =>
      exact .of_act (.report _ timer step fired guards) rfl rfl
    case h_2 => exact .refl _

-- ============================================================ messages

/-- A proposal that nothing speaks against is taken up. -/
theorem addProposal_reaches {k : Work} {proposal : Proposal}
    (given : input = .message (.proposal proposal)) :
    Reaches s w input k (k.addProposal s proposal).1 := by
  unfold addProposal
  split
  case h_1 => exact .refl k
  case h_2 sound =>
    exact .of_act (.takeUp k.machine proposal given sound) rfl
      (List.append_nil _).symm

/-- A vote with a sound signature is counted or refused in its round, which is one
act. -/
theorem addVote_reaches {k : Work} {vote : Vote}
    (given : input = .message (.vote vote)) :
    Reaches s w input k (k.addVote s w vote).1 := by
  unfold addVote
  split
  case h_1 => exact .refl k
  case h_2 sound =>
    have act := Act.count (w := w) k.machine vote given sound
    dsimp only
    split
    case h_1 fault refused =>
      rw [refused] at act
      -- only a conflict leaves anything behind: the evidence of it
      refine .of_act act ?_ ?_
      · cases fault <;> simp [convict, fail, update, Machine.convictions]
      · cases fault <;> simp [convict, fail, update]
    case h_2 counted =>
      rw [counted] at act
      refine .of_act act ?_ (List.append_nil _).symm
      simp [done, update, Machine.convictions]

/-- A claim is looked at in one act, its answer included. -/
theorem takeClaim_reaches {k : Work} {claim : Claim}
    (given : input = .message (.claim claim)) :
    Reaches s w input k (k.takeClaim s w claim).1 := by
  have act := Act.claim (s := s) (w := w) k.machine claim given
  unfold takeClaim
  dsimp only
  split
  case h_1 fault refused =>
    rw [refused] at act
    exact .of_act act rfl (List.append_nil _).symm
  case h_2 unanswered =>
    rw [unanswered] at act
    exact .of_act act rfl (List.append_nil _).symm
  case h_3 holdings answered =>
    rw [answered] at act
    exact .of_act act rfl rfl

/-- A list of held votes is answered in one act, or refused. -/
theorem takeHoldings_reaches {k : Work} {holdings : Holdings}
    (given : input = .message (.holdings holdings)) :
    Reaches s w input k (k.takeHoldings s holdings).1 := by
  unfold takeHoldings
  split
  case h_1 => exact .refl k
  case h_2 votes missed =>
    refine .of_act (.passOn k.machine holdings votes given missed) ?_ ?_
    · rw [foldl_forward]
      rfl
    · rw [foldl_forward]
      rfl

/-- A message does what its kind does, and then may advance the machine. -/
theorem takeMessage_reaches {k : Work} {message : Message}
    (given : input = .message message) :
    Reaches s w input k (k.takeMessage s w message).1 := by
  unfold takeMessage
  split
  case isTrue => exact .refl k
  case isFalse =>
    cases message with
    | proposal proposal =>
      exact (addProposal_reaches given).andThen fun _ => advance_reaches given
    | vote vote =>
      exact (addVote_reaches given).andThen fun _ => advance_reaches given
    | claim claim => exact takeClaim_reaches given
    | holdings holdings => exact takeHoldings_reaches given

-- ======================================================= a whole input

/-- A start begins round 0, if there was none before. -/
theorem start_reaches {k : Work} (told : input = .start) :
    Reaches s w input k (k.start s w).1 := by
  unfold start
  split
  case isTrue => exact .refl k
  case isFalse idle =>
    rw [Decidable.not_not] at idle
    exact (startRound_reaches (.start told idle rfl)).andThen fun _ =>
      advance_zero_reaches

/-- Applying an input is a matter of its kind. -/
theorem apply_reaches (k : Work) :
    Reaches s w input k (k.apply s w input).1 := by
  cases input with
  | start => exact start_reaches rfl
  | message message => exact takeMessage_reaches rfl
  | timer timer => exact takeTimer_reaches rfl

end Quorum.Work

namespace Quorum

/-- Handling an input is nothing but acts, one after the other. -/
theorem Machine.handle_acts [Crypto] (s : Setup) (w : World) (m : Machine)
    (input : Input) :
    Acts s w input m (m.handle s w input).effects
      (m.handle s w input).machine := by
  have run : Work.Reaches s w input (Work.ofMachine m)
      ((Work.ofMachine m).run s w input).1 :=
    (Work.apply_reaches _).andThen fun _ => Work.settle_reaches _
  obtain ⟨es, asked, acts⟩ := run
  have asked : (m.handle s w input).effects = es :=
    asked.trans (List.nil_append es)
  rw [asked]
  exact acts

end Quorum
