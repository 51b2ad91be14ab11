/-
What the rules leave when they rest.

The five rules are run until a pass over them changes nothing. A rule that
changes nothing either had no reason to act, or acted before: its timer is
armed, its majority was seen. So what such a pass leaves is the sum of the
rules' guards, each of them off (`Machine.AtRest`).

One of the guards is off in any case. A proposal that can be prevoted on is
prevoted on by the first rule of the first pass, so even where the rules are
stopped before they rest, no such proposal is left waiting
(`Work.settle_unripe`).

The rules themselves read nothing of the input. As `Act` carries one, they
are followed at an input of another height, at which no other act is possible.
-/
import Quorum.Proofs.Machine.Evicting
import Quorum.Proofs.Machine.Finality
import Quorum.Proofs.Machine.Rewriting

namespace Quorum

-- ============================================================== verdicts

/-- What the world accepts is a matter of how it validates. -/
theorem Work.accepts_congr {s : Setup} {w w' : World}
    (same : w'.validate = w.validate) (block : Block) :
    accepts s w' block = accepts s w block := by
  unfold accepts
  rw [same]

namespace Machine

variable {s : Setup} {w w' : World} {m : Machine} {hash : BlockHash}
  {block : Block}

/-- To have judged a block does not change the verdict on it. -/
theorem verdict_judged (s : Setup) (w : World) (m : Machine) (hash : BlockHash)
    (block : Block) :
    (m.judged s w hash block).verdict s w hash block
      = m.verdict s w hash block := by
  unfold verdict judged VerdictCache.consult
  cases known : m.verdicts.get? hash with
  | some valid => simp [known]
  | none =>
    cases again : (m.verdicts.insert hash (Work.accepts s w block)).get? hash with
    | none => simp
    | some valid =>
      have same := VerdictCache.eq_of_get?_insert again
      simp [same]

/-- A verdict is that of the world on blocks, and nothing else of it. -/
theorem verdict_congr (same : w'.validate = w.validate) :
    m.verdict s w' hash block = m.verdict s w hash block := by
  unfold verdict
  rw [Work.accepts_congr same]

end Machine

-- =========================================================== rules alone

/-- An input that no act but those of the rules is of. -/
def elsewhere (s : Setup) : Input :=
  .timer ⟨s.scope.height + 1, 0, .endCommitWait⟩

/-- It is no timer of this height. -/
theorem elsewhere_ne {s : Setup} {round : Round} {kind : TimerKind} :
    elsewhere s ≠ .timer ⟨s.scope.height, round, kind⟩ := by
  intro same
  have height := congrArg Timer.height (Input.timer.inj same)
  have apart : s.scope.height + 1 ≠ s.scope.height := by grind
  exact apart height

/-- It begins no round. -/
theorem Cause.not_elsewhere {s : Setup} {m : Machine} {round : Round} :
    ¬Cause s (elsewhere s) m round := by
  intro cause
  cases cause with
  | start told => cases told
  | follow message given => cases given
  | next kind fired => exact elsewhere_ne fired

/-- Once an input is applied, the rules are all that follows. -/
theorem Work.run_settles [Crypto] (s : Setup) (w : World) (k : Work)
    (input : Input) :
    Reaches s w (elsewhere s) (k.apply s w input).1 (k.run s w input).1 := by
  unfold run Attempt.andThen
  split
  case h_1 => exact .refl _
  case h_2 => exact settle_reaches _

/-- No proposal that can be prevoted on waits in the proposing step. -/
def Machine.Unripe (m : Machine) : Prop :=
  m.step = .propose → ∀ p, m.proposal? = some p → Work.isRipe m p.body = false

/-- Whether a proposal can be prevoted on is read off the round and the
majorities. -/
theorem isRipe_congr {m m' : Machine} {offer : Offer} (round : m'.round = m.round)
    (majorities : ∀ r, m'.prevoteMajority? r = m.prevoteMajority? r) :
    Work.isRipe m' offer = Work.isRipe m offer := by
  unfold Work.isRipe
  rw [round]
  split
  · rfl
  · rw [majorities]

section

variable [Crypto] {s : Setup} {w : World} {input : Input} {m m' : Machine}
  {es : List Effect}

/-- What an act means for the step of a machine. -/
inductive Steps (s : Setup) (w : World) (input : Input) (m : Machine)
    (es : List Effect) (m' : Machine) : Prop
  | stays (step : m'.step = m.step) (round : m'.round = m.round)
  | begins (round : Round) (log : HeightLog) (cause : Cause s input m round)
      (moved : m.log.setRound round = .ok log)
      (after : m' = (Machine.opening s w
        { m with log := log, round := round, step := .propose } round).1)
      (asks : es = .emit (.roundStarted s.scope.height round)
        :: .emit (.stepChanged s.scope.height round .propose)
        :: (Machine.opening s w
          { m with log := log, round := round, step := .propose } round).2)
  | votes (voted : m'.step = .prevote ∨ m'.step = .precommit)
  | ends (kind : TimerKind) (ended : m'.step = .endCommit)
      (fired : input = .timer ⟨s.scope.height, m.round, kind⟩)
      (late : kind = .precommit ∨ kind = .endCommitWait)

/-- What differs only in the log is in the same step. -/
theorem steps_of_relogs (relogs : m.Relogs m') : Steps s w input m es m' := by
  obtain ⟨log, rfl, -⟩ := relogs
  exact .stays rfl rfl

/-- Each act stays in its step, enters one for a reason, or begins a round. -/
theorem Act.steps (act : Act s w input m es m') : Steps s w input m es m' := by
  cases act with
  | beginRound round log cause moved => exact .begins round log cause moved rfl rfl
  | claim claim => exact steps_of_relogs (Machine.addClaim_relogs s w m claim)
  | lock proposal pinned step held pins unseen majority valid marked seen =>
    obtain ⟨log, after, -⟩ := Machine.locked_eq seen
    rw [after]
    exact .stays rfl rfl
  | wait kind waits => exact steps_of_relogs (Machine.armed_relogs m m.round kind.slot)
  | decideBlock proposal pinned started undecided held pins majority valid
      pinning decided =>
    obtain ⟨log, after, -⟩ := Machine.decided_eq decided
    rw [after]
    exact .stays rfl rfl
  | prevote => exact .votes (Or.inl rfl)
  | prevoteNothing => exact .votes (Or.inl rfl)
  | precommit => exact .votes (Or.inr rfl)
  | precommitNothing => exact .votes (Or.inr rfl)
  | finish kind started unfinished fired ends => exact .ends kind rfl fired ends
  | complete kind decision certificate started unfinished fired ends =>
    exact .ends kind rfl fired ends
  | _ => exact .stays rfl rfl

/-- A machine is in the proposing step because it was there before, or because
it just began the round. -/
theorem Act.of_propose (act : Act s w input m es m') (here : m'.step = .propose) :
    m.step = .propose ∧ m'.round = m.round
      ∨ ∃ round log, Cause s input m round ∧ m.log.setRound round = .ok log
        ∧ m' = (Machine.opening s w
          { m with log := log, round := round, step := .propose } round).1
        ∧ es = .emit (.roundStarted s.scope.height round)
          :: .emit (.stepChanged s.scope.height round .propose)
          :: (Machine.opening s w
            { m with log := log, round := round, step := .propose } round).2 := by
  cases act.steps with
  | stays step round => exact Or.inl ⟨step.symm.trans here, round⟩
  | begins round log cause moved after asks =>
    exact Or.inr ⟨round, log, cause, moved, after, asks⟩
  | votes voted => rcases voted with voted | voted <;> cases voted.symm.trans here
  | ends kind ended => cases ended.symm.trans here

/-- It is at the end of its round because it was there before, or because of a timer
that ends the round. -/
theorem Act.of_endCommit (act : Act s w input m es m') (ended : m'.step = .endCommit) :
    m.step = .endCommit ∧ m'.round = m.round
      ∨ ∃ round kind, input = .timer ⟨s.scope.height, round, kind⟩
        ∧ (kind = .precommit ∨ kind = .endCommitWait) := by
  cases act.steps with
  | stays step round => exact Or.inl ⟨step.symm.trans ended, round⟩
  | begins round log cause moved after =>
    obtain ⟨opened, same, -⟩ := Machine.opening_relogs s w
      { m with log := log, round := round, step := .propose } round
    rw [after, same] at ended
    cases ended
  | votes voted => rcases voted with voted | voted <;> cases voted.symm.trans ended
  | ends kind _ fired late => exact Or.inr ⟨m.round, kind, fired, late⟩

/-- The rules bring no proposal, and no majority for one. -/
theorem Act.unripe (act : Act s w (elsewhere s) m es m') (unripe : m.Unripe) :
    m'.Unripe := by
  intro here p held
  rcases act.of_propose here with ⟨before, round⟩ | ⟨_, _, cause, -⟩
  · cases act.rewrites with
    | counts vote given => cases given
    | takesUp proposal given => cases given
    | drops proposal majority step =>
      rw [before] at step
      cases step
    | marks marked =>
      have majorities : ∀ r, m'.prevoteMajority? r = m.prevoteMajority? r := by
        intro r
        rw [Machine.prevoteMajority?_eq_record, Machine.prevoteMajority?_eq_record]
        exact (marked r).prevotes.majority
      rw [isRipe_congr round majorities]
      refine unripe before p ?_
      rw [Machine.proposal?_eq, round, (marked m.round).proposal] at held
      rw [Machine.proposal?_eq, held]
  · exact absurd cause Cause.not_elsewhere

end

-- =========================================================== single rules

/-- No rule has anything left to do. -/
structure Machine.AtRest (s : Setup) (w : World) (m : Machine) : Prop where
  /-- No proposal that can be prevoted on waits. -/
  unripe : m.Unripe
  /-- A wait for prevotes is bounded. -/
  prevotesWait : m.step = .prevote → m.prevotesSomeTwoThirds s m.round = true →
    (m.log.getOrFresh m.round).isArmed .prevote = true
  /-- A majority for the valid block proposed was acted on. -/
  quorumSeen : m.step = .prevote ∨ m.step = .precommit →
    ∀ p, m.proposal? = some p → m.prevoteMajority? m.round = some p.body.hash →
    m.verdict s w p.body.hash p.body.block = true →
    (m.log.getOrFresh m.round).quorumSeen = true
  /-- A majority for nothing will be precommitted. -/
  nothingWaits : m.step = .prevote → m.prevoteMajority? m.round = some .nil →
    (m.log.getOrFresh m.round).isArmed .precommitWait = true
  /-- The proposal is not against the majority. -/
  agrees : m.step = .prevote → ∀ p, m.proposal? = some p →
    ∀ hash, m.prevoteMajority? m.round = some hash → hash ≠ .nil →
    p.body.hash = hash
  /-- A wait for precommits is bounded. -/
  precommitsWait : m.precommitsSomeTwoThirds s m.round = true →
    (m.log.getOrFresh m.round).isArmed .precommit = true

namespace Work

variable {s : Setup} {w : World}

/-- To report that no prevote was entered is to have done nothing. -/
theorem enterPrevote_rests {k : Work} {round : Round} {hash : BlockHash}
    (rests : (k.enterPrevote s w round hash).2 = false) :
    (k.enterPrevote s w round hash).1 = k := by
  unfold enterPrevote at rests ⊢
  split
  case isTrue => rfl
  case isFalse early =>
    rw [if_neg early] at rests
    cases rests

/-- The first rule prevotes, or it does nothing, and then there is nothing to
prevote on. -/
theorem prevoteRule_cases (k : Work) :
    (k.prevoteRule s w).2 = true ∧ (k.prevoteRule s w).1.machine.step = .prevote
      ∨ k.prevoteRule s w = (k, false) ∧ k.machine.Unripe := by
  unfold prevoteRule
  split
  case isFalse off => exact Or.inr ⟨rfl, fun here => absurd here off⟩
  case isTrue step =>
    split
    case h_1 none_ =>
      refine Or.inr ⟨rfl, fun _ p held => ?_⟩
      cases none_.symm.trans held
    case h_2 proposal found =>
      split
      case isTrue ripe =>
        have cast := prevoteOn_of_propose s w k proposal.body step
        have entered : (k.prevoteOn s w proposal.body).1.machine.step = .prevote :=
          congrArg (·.machine.step) cast
        refine Or.inl ⟨?_, entered⟩
        -- a prevote that was entered is reported
        by_contra left
        rw [Bool.not_eq_true] at left
        have same : (k.prevoteOn s w proposal.body).1.machine.step
            = k.machine.step :=
          congrArg (·.machine.step) (enterPrevote_rests left)
        cases (same.trans step).symm.trans entered
      case isFalse unripe =>
        refine Or.inr ⟨rfl, fun _ p held => ?_⟩
        cases found.symm.trans held
        simpa using unripe

/-- After the first rule no proposal waits: it was prevoted on, or cannot be. -/
theorem prevoteRule_unripe (k : Work) :
    (k.prevoteRule s w).1.machine.Unripe := by
  rcases prevoteRule_cases k with ⟨-, entered⟩ | ⟨same, unripe⟩
  · intro here
    cases entered.symm.trans here
  · rw [same]
    exact unripe

-- ================================================== where they are stopped

/-- At least one pass is run, whatever the settings say. -/
theorem passLimit_eq_succ (s : Setup) : ∃ left, passLimit s = left + 1 := by
  refine ⟨passLimit s - 1, ?_⟩
  unfold passLimit
  omega

variable [Crypto]

/-- What the rules reach keeps to it that no ripe proposal waits. -/
theorem Reaches.unripe {k k' : Work} (reaches : Reaches s w (elsewhere s) k k')
    (unripe : k.machine.Unripe) : k'.machine.Unripe := by
  obtain ⟨es, -, acts⟩ := reaches
  exact acts.keeps_machine (fun act unripe => act.unripe unripe) unripe

/-- The rules behind the first bring no proposal. -/
theorem pass_unripe (k : Work) : (k.pass s w).1.machine.Unripe := by
  have first : (k.prevoteRule s w).1.machine.Unripe := prevoteRule_unripe k
  unfold pass
  dsimp only
  apply (precommitWaitRule_reaches (s := s) (w := w) _).unripe
  apply (otherMajorityRule_reaches (s := s) (w := w) _).unripe
  apply (lockRule_reaches (s := s) (w := w) _).unripe
  apply (prevoteWaitRule_reaches (s := s) (w := w) _).unripe
  exact first

/-- Whether the rules settle or not, no ripe proposal waits afterwards. -/
theorem settle_unripe {k : Work} (started : k.machine.step ≠ .idle) :
    (k.settle s w).1.machine.Unripe := by
  unfold settle
  rw [if_neg started]
  obtain ⟨left, limit⟩ := passLimit_eq_succ s
  rw [limit]
  unfold passes
  dsimp only
  split
  · exact (passes_reaches _ _ _).unripe (pass_unripe k)
  · dsimp only [done]
    exact pass_unripe k

end Work

end Quorum
