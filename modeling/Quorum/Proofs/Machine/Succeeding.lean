/-
After a round that decides nothing comes the next one.

The timer that ends such a round is the one input at which a machine counts rounds:
it goes to its own plus one. That is a later round than its own, and the log, which
is where the machine is, lets it go there. The timer finds something to end, too,
because a machine does not stay at the end of an undecided round
(`Machine.EndsLast`). And in the next round nothing waits for the rules to stumble
over: no proposal was taken up for a round ahead, and no timer armed for one
(`Machine.Unarmed`). So a first pass over the rules arms one timer at most, and a
second one has nothing to do. Whoever allows for one pass only does not let the
rules find that out.

The largest round has none after it. One more is the first round, and the log does
not go back there. A machine gets that far by following votes, which may be of any
round.
-/
import Quorum.Proofs.Machine.Convicting
import Quorum.Proofs.Machine.Limiting
import Quorum.Proofs.Machine.OneShot

namespace Quorum

-- ================================================ statement vocabulary

/-- The largest round. -/
def lastRound : Round := 4294967295

/-- A machine does not stay at the end of an undecided round, unless that is the
last one. -/
def Machine.EndsLast (m : Machine) : Prop :=
  m.step = .endCommit → m.decision = none → m.round = lastRound

/-- No timer is armed for a later round. -/
def Machine.Unarmed (m : Machine) : Prop :=
  ∀ round, m.round < round → ∀ slot, (m.log.getOrFresh round).isArmed slot = false

/-- A machine goes to a round, and keeps its decision and the precommits there. -/
structure Machine.Enters (s : Setup) (m : Machine) (next : Round) (m' : Machine) :
    Prop where
  round : m'.round = next
  step : m'.step = .propose
  decision : m'.decision = m.decision
  precommits : m'.precommitsSomeTwoThirds s next = m.precommitsSomeTwoThirds s next

/-- It never was there before, and the rules of the round were not run yet. -/
structure Machine.Opens (s : Setup) (m : Machine) (next : Round) (m' : Machine) :
    Prop extends m.Enters s next m' where
  empty : m'.proposal? = none
  unarmed : (m'.log.getOrFresh next).isArmed .precommit = false

/-- What the rules come to in a round that was just begun: they do not settle where
a single pass is allowed for, and is spent on the timer for the precommits. -/
def Machine.outset (s : Setup) (m : Machine) (next : Round) : Except Fault Unit :=
  if s.settings.maxPasses.toNat ≤ 1 ∧ m.precommitsSomeTwoThirds s next = true then
    .error (.unsettled 1)
  else .ok ()

-- ================================================================= rounds

/-- A round that is not the last one is followed by a later one. -/
theorem toNat_succ {round : Round} (early : round ≠ lastRound) :
    (round + 1).toNat = round.toNat + 1 := by
  refine (toNat_next rfl fun first => early ?_).symm
  have wraps : round = 0 - 1 := by grind
  rw [wraps]
  rfl

theorem lt_succ {round : Round} (early : round ≠ lastRound) : round < round + 1 := by
  rw [UInt32.lt_iff_toNat_lt, toNat_succ early]
  exact Nat.lt_succ_self _

theorem Machine.unarmed_initial (s : Setup) : (Machine.initial s).Unarmed := by
  intro round _ slot
  rw [Machine.getOrFresh_initial]
  rfl

section

variable [Crypto] {s : Setup} {w : World} {input : Input} {m m' : Machine}
  {es : List Effect} {k k' : Work} {round : Round}

-- ================================================================== ahead

/-- An act arms timers in the round that it leaves the machine in. -/
theorem Act.unarmed (act : Act s w input m es m') (onward : m.Onward)
    (unarmed : m.Unarmed) : m'.Unarmed := by
  intro round later slot
  have before := unarmed round
    (UInt32.lt_of_le_of_lt (onward.round_le act.moves) later) slot
  cases act.timing with
  | still _ same => rw [same, before]
  | arms kind _ _ _ marks =>
    have away : ¬(round = m'.round ∧ slot = kind.slot) :=
      fun here => UInt32.ne_of_lt later here.1.symm
    rw [marks, before, decide_eq_false away]
    rfl

/-- Whatever a machine is given, no timer is armed for a later round. -/
theorem Reachable.unarmed {admits : Life → Input → Prop} {l : Life}
    (h : Reachable s admits l) : l.machine.Unarmed :=
  h.keeps_onward (fun act onward held => act.unarmed onward held)
    (Machine.unarmed_initial s)

-- ================================================================ opening

/-- The opening of a round arms no timer but the one for its proposal. -/
theorem Machine.isArmed_opening (s : Setup) (w : World) (m : Machine)
    (opened round : Round) {slot : TimerSlot} (other : slot ≠ .propose) :
    ((opening s w m opened).1.log.getOrFresh round).isArmed slot
      = (m.log.getOrFresh round).isArmed slot := by
  have armed : ((m.armed opened .propose).log.getOrFresh round).isArmed slot
      = (m.log.getOrFresh round).isArmed slot := by
    rw [isArmed_armed_eq, decide_eq_false fun here => other here.2, Bool.false_or]
  unfold opening
  split
  · split
    · rfl
    · exact armed
  · exact armed

omit [Crypto] in
/-- Marks do not tell how many precommits there are. -/
theorem Machine.precommitsSomeTwoThirds_of_marked
    (marked : (m.log.getOrFresh round).Marked (m'.log.getOrFresh round)) :
    m'.precommitsSomeTwoThirds s round = m.precommitsSomeTwoThirds s round := by
  rw [precommitsSomeTwoThirds_eq_record, precommitsSomeTwoThirds_eq_record]
  unfold Tally.someTwoThirds
  rw [marked.precommits.power]

/-- A later round begins without a proposal and without a timer for its
precommits. -/
theorem Machine.opens_opening {log : HeightLog} (onward : m.Onward) (unarmed : m.Unarmed)
    (later : m.round < round) (moved : m.log.setRound round = .ok log) :
    m.Opens s round (opening s w
      { m with log := log, round := round, step := .propose } round).1 := by
  have reads : log.getOrFresh round = m.log.getOrFresh round :=
    HeightLog.getOrFresh_setRound moved round
  have marked := marked_opening s w
    { m with log := log, round := round, step := .propose } round round
  have arms := isArmed_opening s w
    { m with log := log, round := round, step := .propose } round round
    (nofun : TimerSlot.precommit ≠ .propose)
  obtain ⟨opened, same, -⟩ := opening_relogs s w
    { m with log := log, round := round, step := .propose } round
  rw [same] at marked arms ⊢
  dsimp only at marked arms
  rw [reads] at marked arms
  constructor
  case toEnters => exact ⟨rfl, rfl, rfl, precommitsSomeTwoThirds_of_marked marked⟩
  case empty =>
    rw [proposal?_eq]
    exact marked.proposal.trans (onward.ahead round later)
  case unarmed => exact arms.trans (unarmed round later .precommit)

namespace Work

/-- A later round is there to go to. -/
theorem startRound_opens (onward : k.machine.Onward) (unarmed : k.machine.Unarmed)
    (later : k.machine.round < round) :
    (k.startRound s w round).2 = .ok ()
      ∧ k.machine.Opens s round (k.startRound s w round).1.machine := by
  have fine := (startRound_onward (s := s) (w := w) onward (UInt32.le_of_lt later)).1
  rcases startRound_cases s w k round with ⟨fault, same⟩ | ⟨log, moved, same⟩
  · rw [same] at fine
    cases fine
  · rw [same]
    exact ⟨rfl, Machine.opens_opening onward unarmed later moved⟩

-- ================================================================== rules

omit [Crypto] in
/-- Before anything is proposed there is one rule that may act. -/
theorem pass_of_empty (proposing : k.machine.step = .propose)
    (empty : k.machine.proposal? = none) : k.pass s w = k.precommitWaitRule s := by
  have other : ∀ step, step ≠ .propose → k.machine.step ≠ step :=
    fun _ apart same => apart (same.symm.trans proposing)
  have unripe : k.machine.Unripe := fun _ p held => by cases empty.symm.trans held
  have prevotes : k.prevoteWaitRule s = (k, false) :=
    if_neg fun due => other .prevote nofun due.1
  have locks : k.lockRule s w = (k, false) :=
    if_neg fun due => due.elim (other .prevote nofun) (other .precommit nofun)
  have opposes : k.otherMajorityRule s = (k, false) := if_neg (other .prevote nofun)
  unfold pass
  dsimp only
  rw [prevoteRule_of_unripe unripe]
  dsimp only
  rw [prevotes]
  dsimp only
  rw [locks]
  dsimp only
  rw [opposes]
  rfl

omit [Crypto] in
/-- It changes no more than a mark, and does so if there are precommits enough. -/
theorem precommitWaitRule_of_unarmed
    (unarmed : (k.machine.log.getOrFresh k.machine.round).isArmed .precommit = false) :
    (k.precommitWaitRule s).2 = k.machine.precommitsSomeTwoThirds s k.machine.round
      ∧ ((k.precommitWaitRule s).1.machine = k.machine
        ∨ (k.precommitWaitRule s).1.machine
          = k.machine.armed k.machine.round .precommit) := by
  unfold precommitWaitRule
  split
  case isFalse few => exact ⟨by simpa using few, Or.inl rfl⟩
  case isTrue many =>
    refine ⟨?_, Or.inr ?_⟩
    · rw [many]
      exact congrArg Prod.snd (if_neg (Bool.eq_false_iff.1 unarmed))
    · rw [arm_eq]
      rfl

/-- With the rules run, a round that was opened is entered. -/
theorem settle_opens {next : Round} (room : k.machine.Roomy)
    (opens : m.Opens s next k.machine) :
    (k.settle s w).2 = m.outset s next ∧ m.Enters s next (k.settle s w).1.machine := by
  have started : k.machine.step ≠ .idle := by
    rw [opens.step]
    decide
  have whole := pass_of_empty (s := s) (w := w) opens.step opens.empty
  have unarmed := opens.unarmed
  have precommits := opens.precommits
  rw [← opens.round] at unarmed precommits
  obtain ⟨acts, after⟩ := precommitWaitRule_of_unarmed (s := s) unarmed
  constructor
  · unfold Machine.outset
    rw [← opens.round, ← precommits, ← acts, ← whole]
    -- the timer counts as a change, and where a single pass is allowed for there is none
    -- left in which nothing changes
    by_cases enough : 2 ≤ s.settings.maxPasses.toNat
    · rw [settle_ok enough, if_neg fun single => by omega]
    · have single : passLimit s = 1 := by
        unfold passLimit
        omega
      unfold settle
      rw [if_neg started, single]
      unfold passes
      dsimp only
      split
      case isTrue again => rw [if_pos ⟨by omega, again⟩]; rfl
      case isFalse rests => rw [if_neg fun spent => rests spent.2]; rfl
  · rw [settle_eq_pass room, if_neg started, whole]
    rcases after with same | same
    · rw [same]
      exact opens.toEnters
    · have marked := Machine.marked_armed k.machine k.machine.round .precommit next
      obtain ⟨log, relogs, -⟩ := Machine.armed_relogs k.machine k.machine.round .precommit
      rw [same]
      rw [relogs] at marked ⊢
      exact ⟨opens.round, opens.step, opens.decision,
        (Machine.precommitsSomeTwoThirds_of_marked marked).trans opens.precommits⟩

end Work

/-- A round that is opened is entered, and no fault is met but that of the rules. -/
theorem Machine.run_opens {a : Attempt} {next : Round} (fine : a.2 = .ok ())
    (whole : (Work.ofMachine m).run s w input = a.andThen fun k => k.settle s w)
    (room : a.1.machine.Roomy) (opens : m'.Opens s next a.1.machine) :
    (m.handle s w input).result = m'.outset s next
      ∧ m'.Enters s next (m.handle s w input).machine := by
  unfold handle
  rw [whole, Attempt.andThen_of_ok fine]
  exact Work.settle_opens room opens

-- ========================================================= ends of rounds

namespace Work

/-- What no timer does that ends a round does not end it. -/
theorem Reaches.endsLast (reaches : Reaches s w input k k')
    (endless : ¬∃ round kind, input = .timer ⟨s.scope.height, round, kind⟩
      ∧ (kind = .precommit ∨ kind = .endCommitWait))
    (ends : k.machine.EndsLast) : k'.machine.EndsLast := by
  obtain ⟨es, -, acts⟩ := reaches
  refine acts.keeps_machine (fun act held ended undecided => ?_) ends
  rcases act.of_endCommit ended with ⟨before, same⟩ | timed
  · rw [same]
    exact held before (act.concludes.undecided undecided)
  · exact absurd timed endless

/-- From the end of its round a machine can go to the next one, where there is one. -/
theorem startNext_ok (onward : k.machine.Onward) (early : k.machine.round ≠ lastRound) :
    ((k.setStep s .endCommit).startRound s w (k.machine.round + 1)).2 = .ok () :=
  (startRound_onward (k := k.setStep s .endCommit) ⟨onward.placed, onward.ahead⟩
    (UInt32.le_of_lt (lt_succ early))).1

theorem enterEndCommit_endsLast (onward : k.machine.Onward) (ends : k.machine.EndsLast)
    (round : Round) : (k.enterEndCommit s w round).1.machine.EndsLast := by
  unfold enterEndCommit
  split
  case isTrue => exact ends
  case isFalse going =>
    rw [not_or, Decidable.not_not] at going
    obtain ⟨rfl, -⟩ := going
    split
    case h_1 =>
      -- nothing is decided, so the next round begins unless there is none
      have fine := startNext_ok (s := s) (w := w) onward
      rcases startRound_cases s w (k.setStep s .endCommit) (k.machine.round + 1)
        with ⟨fault, same⟩ | ⟨log, moved, same⟩
      · rw [same] at fine ⊢
        exact fun _ _ => Decidable.not_not.1 fun early => nomatch fine early
      · obtain ⟨opened, relogs, -⟩ := Machine.opening_relogs s w
          { (k.setStep s .endCommit).machine with
            log := log, round := k.machine.round + 1, step := .propose }
          (k.machine.round + 1)
        rw [same]
        dsimp only [done]
        rw [relogs]
        exact nofun
    case h_2 decision decided =>
      unfold complete
      repeat' split
      all_goals exact fun _ undecided => nomatch decided.symm.trans undecided

theorem apply_endsLast (onward : k.machine.Onward) (ends : k.machine.EndsLast) :
    (k.apply s w input).1.machine.EndsLast := by
  by_cases timed : ∃ round kind, input = .timer ⟨s.scope.height, round, kind⟩
      ∧ (kind = .precommit ∨ kind = .endCommitWait)
  · obtain ⟨round, kind, rfl, late⟩ := timed
    show (k.takeTimer s w _).1.machine.EndsLast
    rw [machine_takeTimer rfl]
    rcases late with rfl | rfl <;> exact enterEndCommit_endsLast onward ends round
  · exact (apply_reaches k).endsLast timed ends

end Work

theorem Machine.handle_endsLast (onward : m.Onward) (ends : m.EndsLast) :
    (m.handle s w input).machine.EndsLast := by
  refine (Work.run_settles s w (Work.ofMachine m) input).endsLast ?_
    (Work.apply_endsLast onward ends)
  rintro ⟨round, kind, fired, -⟩
  exact elsewhere_ne fired

/-- Whatever a machine is given, it does not stay at the end of an undecided round,
unless that is the last one. -/
theorem endsLast_after (s : Setup) (turns : List (World × Input)) :
    (Life.after s turns).machine.EndsLast := by
  induction turns using List.reverseRecOn with
  | nil => exact nofun
  | append_singleton turns turn ih =>
    rw [Life.after_snoc]
    exact Machine.handle_endsLast (reachable_after s turns).onward ih

-- ============================================================= regression

namespace Work

theorem start_forward (onward : k.machine.Onward)
    (fresh : k.machine.step = .idle → k.machine.round = 0) :
    (k.start s w).FailsWith fun fault => ¬Regression fault := by
  unfold start
  split
  case isTrue => exact .fail nofun
  case isFalse idle =>
    have first := fresh (Decidable.not_not.1 idle)
    have begins : Reaches s w .start k (k.startRound s w 0).1 :=
      startRound_reaches (.start rfl (Decidable.not_not.1 idle) rfl)
    exact .andThen (.of_ok (startRound_onward onward (first ▸ UInt32.le_refl _)).1)
      fun _ => .of_ok (advance_ok 0 (begins.onward onward))

/-- Before the last round there is no way back. -/
theorem apply_forward (onward : k.machine.Onward)
    (fresh : k.machine.step = .idle → k.machine.round = 0)
    (early : k.machine.round ≠ lastRound) :
    (k.apply s w input).FailsWith fun fault => ¬Regression fault := by
  cases input with
  | start => exact start_forward onward fresh
  | message message =>
    refine takeMessage_fails_of (fun fault refused back => ?_) (fun p given => ?_)
      fun vote given => ?_
    · cases refused.rejects.symm.trans back.ofRules.isRejection
    · subst given
      exact .of_ok (advance_ok _ ((addProposal_reaches (w := w) rfl).onward onward))
    · subst given
      exact .of_ok (advance_ok _ ((addVote_reaches rfl).onward onward))
  | timer timer =>
    refine takeTimer_fails_of (fun round => enterEndCommit_fails_of ?_ ?_) timer
    · rintro rfl
      exact .of_ok (startNext_ok onward early)
    · intro fault uncompleted back
      cases uncompleted <;> cases back

end Work

theorem Machine.handle_forward (onward : m.Onward)
    (fresh : m.step = .idle → m.round = 0) (early : m.round ≠ lastRound) {fault : Fault}
    (failed : (m.handle s w input).result = .error fault) : ¬Regression fault := by
  have fails : ((Work.ofMachine m).run s w input).FailsWith fun fault => ¬Regression fault := by
    refine .andThen (Work.apply_forward onward fresh early) fun _ =>
      (Work.settle_unsettled _).mono ?_
    rintro _ rfl
    exact nofun
  exact fails fault failed

-- ============================================================== next round

namespace Machine

/-- The timer that ends an undecided round asks for the next one. -/
theorem apply_precommit (started : m.step ≠ .idle) (going : m.step ≠ .endCommit)
    (undecided : m.decision = none) :
    (Work.ofMachine m).apply s w (.timer ⟨s.scope.height, m.round, .precommit⟩)
      = (((Work.ofMachine m).setStep s .endCommit).startRound s w (m.round + 1)).andThen
        fun k => (k.reportTimer ⟨s.scope.height, m.round, .precommit⟩).done := by
  have ended : (Work.ofMachine m).enterEndCommit s w m.round
      = ((Work.ofMachine m).setStep s .endCommit).startRound s w (m.round + 1) := by
    have going : ¬((Work.ofMachine m).machine.round ≠ m.round
        ∨ (Work.ofMachine m).machine.step = .idle
        ∨ (Work.ofMachine m).machine.step = .endCommit) := by
      rintro (away | idle | ended)
      · exact away rfl
      · exact started idle
      · exact going ended
    have undecided : (Work.ofMachine m).machine.decision = none := undecided
    unfold Work.enterEndCommit
    rw [if_neg going, undecided]
  show (Work.ofMachine m).takeTimer s w _ = _
  unfold Work.takeTimer
  rw [if_neg (not_not.2 rfl)]
  show ((Work.ofMachine m).enterEndCommit s w m.round).andThen _ = _
  rw [ended]

/-- There it leads, where there is a next one. -/
theorem handle_next (onward : m.Onward) (unarmed : m.Unarmed) (room : m.Roomy)
    (started : m.step ≠ .idle) (going : m.step ≠ .endCommit)
    (undecided : m.decision = none) (early : m.round ≠ lastRound) :
    (m.handle s w (.timer ⟨s.scope.height, m.round, .precommit⟩)).result
        = m.outset s (m.round + 1)
      ∧ m.Enters s (m.round + 1)
        (m.handle s w (.timer ⟨s.scope.height, m.round, .precommit⟩)).machine := by
  -- the step is the end of the round by then; neither the log nor the timers know
  have onward' : { m with step := .endCommit }.Onward := ⟨onward.placed, onward.ahead⟩
  obtain ⟨fine, opens⟩ := Work.startRound_opens (s := s) (w := w)
    (k := (Work.ofMachine m).setStep s .endCommit) onward' unarmed (lt_succ early)
  have applied : (Work.ofMachine m).apply s w
        (.timer ⟨s.scope.height, m.round, .precommit⟩)
      = ((((Work.ofMachine m).setStep s .endCommit).startRound s w (m.round + 1)).1.reportTimer
        ⟨s.scope.height, m.round, .precommit⟩).done :=
    (apply_precommit started going undecided).trans (Attempt.andThen_of_ok fine _)
  have roomy : ((Work.ofMachine m).apply s w
      (.timer ⟨s.scope.height, m.round, .precommit⟩)).1.machine.Roomy :=
    (Work.apply_reaches (Work.ofMachine m)).roomy room
  rw [applied] at roomy
  refine run_opens rfl (congrArg (Attempt.andThen · _) applied) roomy ?_
  exact ⟨⟨opens.round, opens.step, opens.decision, opens.precommits⟩, opens.empty,
    opens.unarmed⟩

/-- From the last round there is no next one to go to. -/
theorem handle_last (placed : m.log.round = m.round) (started : m.step ≠ .idle)
    (going : m.step ≠ .endCommit) (undecided : m.decision = none)
    (last : m.round = lastRound) :
    m.handle s w (.timer ⟨s.scope.height, m.round, .precommit⟩)
      = ⟨{ m with step := .endCommit },
        [.emit (.stepChanged s.scope.height m.round .endCommit)],
        .error (.roundRegression lastRound 0)⟩ := by
  -- one more than the last round is round 0, to which the log does not go back
  have back : ((Work.ofMachine m).setStep s .endCommit).machine.log.setRound (m.round + 1)
      = .error (.roundRegression lastRound 0) := by
    show m.log.setRound (m.round + 1) = _
    unfold HeightLog.setRound
    rw [placed, last]
    rfl
  have stays : ((Work.ofMachine m).setStep s .endCommit).startRound s w (m.round + 1)
      = ((Work.ofMachine m).setStep s .endCommit).fail (.roundRegression lastRound 0) := by
    unfold Work.startRound
    rw [back]
  have applied : (Work.ofMachine m).run s w
        (.timer ⟨s.scope.height, m.round, .precommit⟩)
      = ((Work.ofMachine m).setStep s .endCommit).fail (.roundRegression lastRound 0) := by
    unfold Work.run
    rw [apply_precommit started going undecided, stays]
    rfl
  unfold handle
  rw [applied]
  rfl

end Machine

-- ============================================================ following

/-- More than a third of the power in a later round is followed there. -/
theorem Work.advance_follows (started : k.machine.step ≠ .idle)
    (undecided : k.machine.decision = none) (empty : k.machine.proposal? = none)
    (later : k.machine.round < round)
    (third : k.machine.prevotesSomeThird s round = true) :
    k.advance s w round = k.startRound s w round := by
  have going : ¬(k.machine.step = .idle ∨ k.machine.decision.isSome = true) := by
    rw [undecided]
    exact fun off => off.elim started nofun
  have rests : k.decideRule s w = (k, false) := by
    unfold decideRule
    rw [empty]
  unfold advance
  rw [if_neg going, rests]
  show k.followRule s w round = k.startRound s w round
  unfold followRule
  rw [if_pos ⟨later, third⟩]

/-- With the vote that makes them more than a third, those in a later round are
followed there. -/
theorem Machine.handle_follows {vote : Vote} (onward : m.Onward) (unarmed : m.Unarmed)
    (room : m.Roomy) (sound : voteRefusal? s vote = none)
    (counted : (m.log.addVote s.scope vote).2 = .ok ()) (started : m.step ≠ .idle)
    (undecided : m.decision = none) (empty : m.proposal? = none)
    (later : m.round < vote.body.round)
    (third : { m with log := (m.log.addVote s.scope vote).1 }.prevotesSomeThird s
      vote.body.round = true) :
    { m with log := (m.log.addVote s.scope vote).1 }.Enters s vote.body.round
      (m.handle s w (.message (.vote vote))).machine := by
  generalize grown : (m.log.addVote s.scope vote).1 = log at third ⊢
  -- to count a vote is an act of its own, and what acts keep holds before it is followed
  have act := Act.count (w := w) m vote rfl sound
  rw [grown] at act
  have onward' := act.onward onward
  have unarmed' := act.unarmed onward unarmed
  have empty' : Machine.proposal? { m with log := log } = none := by
    have same := HeightLog.proposal_addVote s.scope m.log vote m.round
    rw [grown] at same
    rw [proposal?_eq] at empty ⊢
    exact same.trans empty
  have follows := Work.advance_follows (s := s) (w := w)
    (k := ⟨{ m with log := log }, []⟩) started undecided empty' later third
  obtain ⟨fine, opens⟩ := Work.startRound_opens (s := s) (w := w)
    (k := ⟨{ m with log := log }, []⟩) ⟨onward'.placed, onward'.ahead⟩ unarmed' later
  rw [← follows] at fine opens
  have reaches : Work.Reaches s w (aside s vote.body.round) ⟨{ m with log := log }, []⟩
      (Work.advance s w ⟨{ m with log := log }, []⟩ vote.body.round).1 :=
    Work.advance_reaches rfl
  have whole := run_of_counted (w := w) sound counted
  rw [grown] at whole
  exact (run_opens fine whole (reaches.roomy room) opens).2

/-- So it goes with a machine that was given whatever it may be before. -/
theorem Life.follows (turns : List (World × Input)) (w : World) (vote : Vote)
    (sound : Machine.voteRefusal? s vote = none)
    (counted : ((Life.after s turns).machine.log.addVote s.scope vote).2 = .ok ())
    (started : (Life.after s turns).machine.step ≠ .idle)
    (undecided : (Life.after s turns).machine.decision = none)
    (empty : (Life.after s turns).machine.proposal? = none)
    (later : (Life.after s turns).machine.round < vote.body.round)
    (third : { (Life.after s turns).machine with
      log := ((Life.after s turns).machine.log.addVote s.scope vote).1
      }.prevotesSomeThird s vote.body.round = true) :
    { (Life.after s turns).machine with
      log := ((Life.after s turns).machine.log.addVote s.scope vote).1
      }.Enters s vote.body.round
        (Life.after s (turns ++ [(w, Input.message (.vote vote))])).machine := by
  have start := reachable_after s turns
  rw [Life.after_snoc]
  exact Machine.handle_follows start.onward start.unarmed start.roomy sound counted started
    undecided empty later third

-- ================================================================= turns

/-- Take a machine that was given whatever it may be, in whatever world, and is not in
the last round. No input makes it fail for going back a round. If it runs and has not
decided, then there is a round after its own, and the timer that ends its own leads
there; and it fails with nothing then, unless a single pass is allowed for and more
than two thirds of the power have precommitted in that round already. -/
theorem next_round_exists (s : Setup) (turns : List (World × Input))
    (early : (Life.after s turns).machine.round ≠ lastRound) :
    (∀ w input current requested,
      ((Life.after s turns).machine.handle s w input).result
        ≠ .error (.roundRegression current requested))
      ∧ ((Life.after s turns).machine.step ≠ .idle →
        (Life.after s turns).machine.decision = none →
        ((Life.after s turns).machine.round + 1).toNat
            = (Life.after s turns).machine.round.toNat + 1
          ∧ ∀ w, ((Life.after s turns).machine.handle s w
                (.timer ⟨s.scope.height, (Life.after s turns).machine.round,
                  .precommit⟩)).result
              = (Life.after s turns).machine.outset s
                ((Life.after s turns).machine.round + 1)
            ∧ (Life.after s turns).machine.Enters s
                ((Life.after s turns).machine.round + 1)
              ((Life.after s turns).machine.handle s w
                (.timer ⟨s.scope.height, (Life.after s turns).machine.round,
                  .precommit⟩)).machine) := by
  have start := reachable_after s turns
  have onward := start.onward
  constructor
  · intro w input current requested failed
    exact Machine.handle_forward onward (fun idle => (start.signsForward.fresh idle).1)
      early failed (.back current requested)
  · intro started undecided
    have going : (Life.after s turns).machine.step ≠ .endCommit := fun ended =>
      early (endsLast_after s turns ended undecided)
    exact ⟨toNat_succ early, fun w =>
      Machine.handle_next onward start.unarmed start.roomy started going undecided early⟩

end

open scoped Plain

open Plain in
/-- A round that ends without a decision is followed by the next one. -/
theorem next_round_exists_of_fruitless :
    (Life.after (setup (address 1)) fruitlessTurns).machine.round ≠ lastRound
      ∧ (Life.after (setup (address 1)) fruitlessTurns).machine.precommitsSomeTwoThirds
        (setup (address 1)) 0 = true
      ∧ ((Life.after (setup (address 1)) fruitlessTurns).machine.handle
        (setup (address 1)) world (.timer ⟨1, 0, .precommit⟩)).result = .ok ()
      ∧ (Life.after (setup (address 1)) fruitlessTurns).machine.Enters
        (setup (address 1)) 1
        ((Life.after (setup (address 1)) fruitlessTurns).machine.handle
          (setup (address 1)) world (.timer ⟨1, 0, .precommit⟩)).machine := by
  have early : (Life.after (setup (address 1)) fruitlessTurns).machine.round
      ≠ lastRound := by decide +kernel
  have started : (Life.after (setup (address 1)) fruitlessTurns).machine.step
      ≠ .idle := by decide +kernel
  have undecided : (Life.after (setup (address 1)) fruitlessTurns).machine.decision
      = none := by decide +kernel
  have fine : (Life.after (setup (address 1)) fruitlessTurns).machine.outset
      (setup (address 1)) 1 = .ok () := by decide +kernel
  have here : (Life.after (setup (address 1)) fruitlessTurns).machine.round = 0 := by
    decide +kernel
  have next := ((next_round_exists (setup (address 1)) fruitlessTurns early).2 started
    undecided).2 world
  rw [here] at next
  exact ⟨early, by decide +kernel, next.1.trans fine, next.2⟩

namespace Plain

/-- Three of four validators precommit nothing in a round. -/
def nothings (round : Round) : List (World × Input) :=
  [2, 3, 4].map fun byte => vote byte round .nil .precommit

/-- Two rounds are over before the machine is started. -/
def overTurns : List (World × Input) := nothings 0 ++ nothings 1 ++ [(world, .start)]

/-- The last round is over before more than a third is there to be followed. -/
def farTurns : List (World × Input) :=
  (world, .start) :: vote 2 lastRound .nil .prevote :: nothings lastRound

/-- The second vote of those that are followed. -/
def callingVote : Vote := cast 3 lastRound .nil .prevote

/-- A machine is called to the last round. -/
def calledTurns : List (World × Input) := farTurns ++ [(world, Input.message (.vote callingVote))]

/-- The call was counted, and not followed yet. -/
def calledMachine : Machine :=
  { (Life.after (setup (address 1)) farTurns).machine with
    log := ((Life.after (setup (address 1)) farTurns).machine.log.addVote
      (setup (address 1)).scope callingVote).1 }

/-- The machine goes to the last round, which is over. It cannot be run to there, since
its log makes every round on the way. -/
theorem enters_called :
    calledMachine.Enters (setup (address 1)) lastRound
      (Life.after (setup (address 1)) calledTurns).machine := by
  have called : callingVote.body.round = lastRound := by decide +kernel
  have follows := Life.follows (s := setup (address 1)) farTurns world callingVote
    (by decide +kernel) (by decide +kernel) (by decide +kernel) (by decide +kernel)
    (by decide +kernel) (by decide +kernel) (by decide +kernel)
  rw [called] at follows
  unfold calledTurns calledMachine
  exact follows

end Plain

open Plain in
/-- The timer of an undecided round with enough precommits does not always lead to the
next one, and not always without a fault: not before the start, not where the next
round takes more passes than are allowed for, and not in the last round. -/
theorem next_round_missed :
    ((Life.after (setup (address 1)) (nothings 0)).machine.decision = none
        ∧ (Life.after (setup (address 1)) (nothings 0)).machine.precommitsSomeTwoThirds
          (setup (address 1)) 0 = true
        ∧ ((Life.after (setup (address 1)) (nothings 0)).machine.handle
          (setup (address 1)) world (.timer ⟨1, 0, .precommit⟩)).machine
          = (Life.after (setup (address 1)) (nothings 0)).machine)
      ∧ ((Life.after ((setup (address 1)).allowing 1) overTurns).machine.decision = none
        ∧ (Life.after ((setup (address 1)).allowing 1) overTurns).machine.currentRound?
          = some 0
        ∧ (Life.after ((setup (address 1)).allowing 1)
          overTurns).machine.precommitsSomeTwoThirds
          ((setup (address 1)).allowing 1) 0 = true
        ∧ ((Life.after ((setup (address 1)).allowing 1) overTurns).machine.handle
          ((setup (address 1)).allowing 1) world (.timer ⟨1, 0, .precommit⟩)).result
          = .error (.unsettled 1))
      ∧ ∃ turns, (Life.after (setup (address 1)) turns).machine.decision = none
        ∧ (Life.after (setup (address 1)) turns).machine.currentRound? = some lastRound
        ∧ (Life.after (setup (address 1)) turns).machine.precommitsSomeTwoThirds
          (setup (address 1)) lastRound = true
        ∧ ((Life.after (setup (address 1)) turns).machine.handle (setup (address 1))
          world (.timer ⟨1, lastRound, .precommit⟩)).result
          = .error (.roundRegression lastRound 0) := by
  refine ⟨⟨by decide +kernel, by decide +kernel, by decide +kernel⟩,
    ⟨by decide +kernel, by decide +kernel, by decide +kernel, by decide +kernel⟩,
    calledTurns, ?_⟩
  have enters := enters_called
  have undecided : (Life.after (setup (address 1)) calledTurns).machine.decision = none := by
    rw [enters.decision]
    decide +kernel
  have many : (Life.after (setup (address 1)) calledTurns).machine.precommitsSomeTwoThirds
      (setup (address 1)) lastRound = true := by
    rw [enters.precommits]
    decide +kernel
  have started : (Life.after (setup (address 1)) calledTurns).machine.step ≠ .idle := by
    rw [enters.step]
    decide
  have going : (Life.after (setup (address 1)) calledTurns).machine.step ≠ .endCommit := by
    rw [enters.step]
    decide
  have stuck := Machine.handle_last (s := setup (address 1)) (w := world)
    (reachable_after (setup (address 1)) calledTurns).onward.placed started going undecided
    enters.round
  have height : (setup (address 1)).scope.height = 1 := rfl
  rw [enters.round, height] at stuck
  refine ⟨undecided, ?_, many, congrArg Outcome.result stuck⟩
  unfold Machine.currentRound?
  rw [if_neg started, enters.round]

end Quorum
