/-
One pass over the rules is enough.

Each of the five rules switches its own guard off when it acts: a prevote is
cast once, a timer is armed once, a majority is acted on once, a proposal that
is against the majority is dropped. What the rules behind it do cannot switch
the guard on again. After the first rule they change no vote, no round and no
step: they arm slots, mark majorities and drop a proposal, and each of these
only takes reasons to act away (`Machine.Quieter`).

So after one pass, whatever it did, the rules rest (`Work.pass_atRest`), and a
pass over rules at rest changes nothing (`Work.pass_of_atRest`). Two passes
always suffice, and where two are allowed the rules never fail
(`Work.settle_ok`).
-/
import Quorum.Proofs.Machine.Deciding

namespace Quorum

-- ============================================================= quieter

/-- A record that gives the rules no more to act on: the same votes, the same
proposal or none, and no mark taken away. -/
structure RoundLog.Quieter (l l' : RoundLog) : Prop where
  prevotes : l.prevotes.Alike l'.prevotes
  precommits : l.precommits.Alike l'.precommits
  proposal : l'.proposal = l.proposal ∨ l'.proposal = none
  armed : ∀ slot, l.isArmed slot = true → l'.isArmed slot = true
  seen : l.quorumSeen = true → l'.quorumSeen = true

namespace RoundLog

/-- A record gives the rules no more than itself. -/
theorem Quieter.refl (l : RoundLog) : l.Quieter l :=
  ⟨.refl _, .refl _, Or.inl rfl, fun _ => id, id⟩

theorem Quieter.trans {l l' l'' : RoundLog} (h : l.Quieter l') (h' : l'.Quieter l'') :
    l.Quieter l'' where
  prevotes := h.prevotes.trans h'.prevotes
  precommits := h.precommits.trans h'.precommits
  proposal := by
    rcases h'.proposal with same | dropped
    · rw [same]
      exact h.proposal
    · exact Or.inr dropped
  armed slot before := h'.armed slot (h.armed slot before)
  seen before := h'.seen (h.seen before)

/-- An armed slot can be armed no more. -/
theorem quieter_arm (l : RoundLog) (slot : TimerSlot) : l.Quieter (l.arm slot) where
  prevotes := (marked_arm l slot).prevotes
  precommits := (marked_arm l slot).precommits
  proposal := Or.inl (marked_arm l slot).proposal
  armed other before := by rw [isArmed_arm, before, Bool.or_true]
  seen before := by
    unfold arm
    split <;> exact before

/-- A majority that was acted on is not acted on again. -/
theorem quieter_seen (l : RoundLog) : l.Quieter { l with quorumSeen := true } :=
  ⟨.refl _, .refl _, Or.inl rfl, fun _ => id, fun _ => rfl⟩

/-- Without its proposal a round gives less to act on. -/
theorem quieter_discard (l : RoundLog) : l.Quieter l.discard :=
  ⟨.refl _, .refl _, Or.inr rfl, fun _ => id, id⟩

end RoundLog

/-- To store a quieter record quiets the log, and no other round hears of it. -/
theorem HeightLog.quieter_put {h : HeightLog} {l : RoundLog}
    (quieter : (h.getOrFresh l.round).Quieter l) (round : Round) :
    (h.getOrFresh round).Quieter ((h.put l).getOrFresh round) := by
  rw [getOrFresh_put]
  split
  case isTrue here => exact here ▸ quieter
  case isFalse => exact .refl _

/-- A machine whose records are quieter, in the same round and step. -/
structure Machine.Quieter (m m' : Machine) : Prop where
  round : m'.round = m.round
  step : m'.step = m.step
  records : ∀ r, (m.log.getOrFresh r).Quieter (m'.log.getOrFresh r)

namespace Machine

variable {m m' m'' : Machine}

/-- Locks, verdicts and decisions are of no concern here. -/
theorem quieter_of_same_log (round : m'.round = m.round) (step : m'.step = m.step)
    (log : m'.log = m.log) : Quieter m m' :=
  ⟨round, step, fun _ => log ▸ .refl _⟩

/-- A proposal that is held was held before. -/
theorem Quieter.held (h : Quieter m m') {p : Proposal} (held : m'.proposal? = some p) :
    m.proposal? = some p := by
  rw [proposal?_eq] at held ⊢
  rw [h.round] at held
  rcases (h.records m.round).proposal with same | dropped
  · exact same ▸ held
  · cases dropped.symm.trans held

/-- Quieting twice is quieting. -/
theorem Quieter.trans (h : Quieter m m') (h' : Quieter m' m'') :
    Quieter m m'' where
  round := h'.round.trans h.round
  step := h'.step.trans h.step
  records r := (h.records r).trans (h'.records r)

/-- The votes are the same, and so are the majorities. -/
theorem Quieter.majority (h : Quieter m m') (r : Round) :
    m'.prevoteMajority? r = m.prevoteMajority? r := by
  rw [prevoteMajority?_eq_record, prevoteMajority?_eq_record]
  exact (h.records r).prevotes.majority

/-- To arm a slot quiets a machine. -/
theorem quieter_armed (m : Machine) (round : Round) (slot : TimerSlot) :
    Quieter m (m.armed round slot) := by
  unfold armed
  split
  case isTrue => exact quieter_of_same_log rfl rfl rfl
  case isFalse =>
    refine ⟨rfl, rfl, HeightLog.quieter_put ?_⟩
    rw [RoundLog.round_arm, HeightLog.round_getOrFresh]
    exact RoundLog.quieter_arm _ slot

/-- To mark that a majority was acted on quiets a machine. -/
theorem quieter_sawQuorum (m : Machine) (round : Round) :
    Quieter m (m.sawQuorum round) := by
  refine ⟨rfl, rfl, HeightLog.quieter_put ?_⟩
  show (m.log.getOrFresh (m.log.getOrFresh round).round).Quieter _
  rw [HeightLog.round_getOrFresh]
  exact RoundLog.quieter_seen _

/-- To drop the proposal of the current round quiets a machine. -/
theorem quieter_discard (m : Machine) :
    Quieter m { m with log := m.log.put (m.log.getOrFresh m.round).discard } := by
  refine ⟨rfl, rfl, HeightLog.quieter_put ?_⟩
  show (m.log.getOrFresh (m.log.getOrFresh m.round).round).Quieter _
  rw [HeightLog.round_getOrFresh]
  exact RoundLog.quieter_discard _

theorem round_armed (m : Machine) (round : Round) (slot : TimerSlot) :
    (m.armed round slot).round = m.round := by
  unfold armed
  split <;> rfl

end Machine

-- ======================================================== rules but one

section

variable [Crypto] {s : Setup} {w : World} {m m' : Machine} {es : List Effect}

/-- Where no proposal can be prevoted on, the rules only quiet a machine. -/
theorem Act.quieter (act : Act s w (elsewhere s) m es m') (unripe : m.Unripe) :
    Machine.Quieter m m' := by
  cases act with
  | judge => exact Machine.quieter_of_same_log rfl rfl rfl
  -- the acts of an input of another kind do not occur while the rules run
  | count vote given => cases given
  | claim claim given => cases given
  | takeUp proposal given => cases given
  | passOn => exact Machine.quieter_of_same_log rfl rfl rfl
  | beginRound round log cause => exact absurd cause Cause.not_elsewhere
  -- the one act that a quiet machine has no reason for
  | prevote proposal step held ripe => cases (unripe step proposal held).symm.trans ripe
  | prevoteNothing step fired => exact absurd fired elsewhere_ne
  | precommit hash step fired => exact absurd fired elsewhere_ne
  | precommitNothing step fired => exact absurd fired elsewhere_ne
  | lock proposal pinned step held pins unseen majority valid marked seen =>
    have saw := Machine.quieter_sawQuorum m m.round
    have locked : Machine.Quieter m marked := by
      rw [seen]
      exact ⟨saw.round, saw.step, saw.records⟩
    have timed := locked.trans (Machine.quieter_armed marked m.round .precommitWait)
    exact ⟨timed.round, timed.step, timed.records⟩
  | remember =>
    have saw := Machine.quieter_sawQuorum m m.round
    exact ⟨saw.round, saw.step, saw.records⟩
  | discard => exact Machine.quieter_discard m
  | wait kind => exact Machine.quieter_armed m m.round kind.slot
  | decideBlock proposal pinned started undecided held pins majority valid pinning decided =>
    have kept : Machine.Quieter m pinning := by
      rw [decided]
      exact Machine.quieter_of_same_log rfl rfl rfl
    exact kept.trans (Machine.quieter_armed pinning m.round .endCommitWait)
  | finish kind started unfinished fired => exact absurd fired elsewhere_ne
  | complete kind decision certificate started unfinished fired =>
    exact absurd fired elsewhere_ne
  | report => exact Machine.quieter_of_same_log rfl rfl rfl

/-- Rules that have no proposal to prevote on quiet the machine, and do not change
its mind about the proposal that it holds. -/
theorem Work.Reaches.quieter {k k' : Work} (reaches : Reaches s w (elsewhere s) k k')
    (unripe : k.machine.Unripe) :
    Machine.Quieter k.machine k'.machine
      ∧ ∀ p, k'.machine.proposal? = some p →
        k'.machine.verdict s w p.body.hash p.body.block
          = k.machine.verdict s w p.body.hash p.body.block := by
  obtain ⟨es, -, acts⟩ := reaches
  have all := acts.keeps_machine
    (P := fun m => m.Unripe ∧ Machine.Quieter k.machine m ∧ ∀ p, m.proposal? = some p →
      m.verdict s w p.body.hash p.body.block
        = k.machine.verdict s w p.body.hash p.body.block)
    (fun act kept => by
      obtain ⟨unripe, quieter, verdict⟩ := kept
      have next := act.quieter unripe
      refine ⟨act.unripe unripe, quieter.trans next, fun p held => ?_⟩
      rw [act.verdict_eq (next.held held)]
      exact verdict p (next.held held))
    ⟨unripe, Machine.quieter_of_same_log rfl rfl rfl, fun _ _ => rfl⟩
  exact all.2

end

-- ============================================================== guards

namespace Machine

variable (s : Setup) (w : World)

/-- A wait for prevotes is bounded. -/
def PrevotesWait (m : Machine) : Prop :=
  m.step = .prevote → m.prevotesSomeTwoThirds s m.round = true →
    (m.log.getOrFresh m.round).isArmed .prevote = true

/-- A majority for the valid block proposed was acted on. -/
def QuorumSeen (m : Machine) : Prop :=
  m.step = .prevote ∨ m.step = .precommit →
    ∀ p, m.proposal? = some p → m.prevoteMajority? m.round = some p.body.hash →
    m.verdict s w p.body.hash p.body.block = true →
    (m.log.getOrFresh m.round).quorumSeen = true

/-- A majority for nothing will be precommitted. -/
def NothingWaits (m : Machine) : Prop :=
  m.step = .prevote → m.prevoteMajority? m.round = some .nil →
    (m.log.getOrFresh m.round).isArmed .precommitWait = true

/-- The proposal is not against the majority. -/
def Agrees (m : Machine) : Prop :=
  m.step = .prevote → ∀ p, m.proposal? = some p →
    ∀ hash, m.prevoteMajority? m.round = some hash → hash ≠ .nil → p.body.hash = hash

/-- A wait for precommits is bounded. -/
def PrecommitsWait (m : Machine) : Prop :=
  m.precommitsSomeTwoThirds s m.round = true →
    (m.log.getOrFresh m.round).isArmed .precommit = true

variable {s w} {m m' : Machine}

/-- The votes stay as many, and the timer stays armed. -/
theorem PrevotesWait.quieter (h : m.PrevotesWait s) (q : Quieter m m') :
    m'.PrevotesWait s := by
  intro step many
  rw [q.round] at many ⊢
  refine (q.records m.round).armed .prevote (h (q.step ▸ step) ?_)
  rw [prevotesSomeTwoThirds_eq_record] at many ⊢
  unfold Tally.someTwoThirds at many ⊢
  rw [← (q.records m.round).prevotes.power]
  exact many

/-- A proposal still held was held before, so its majority was acted on if the
verdict on it is the same. -/
theorem QuorumSeen.quieter (h : m.QuorumSeen s w) (q : Quieter m m')
    (verdict : ∀ p, m'.proposal? = some p →
      m'.verdict s w p.body.hash p.body.block = m.verdict s w p.body.hash p.body.block) :
    m'.QuorumSeen s w := by
  intro step p held majority valid
  rw [q.step] at step
  rw [q.round, q.majority] at majority
  rw [verdict p held] at valid
  rw [q.round]
  exact (q.records m.round).seen (h step p (q.held held) majority valid)

/-- The majority stays the same, and the timer stays armed. -/
theorem NothingWaits.quieter (h : m.NothingWaits) (q : Quieter m m') :
    m'.NothingWaits := by
  intro step majority
  rw [q.round, q.majority] at majority
  rw [q.round]
  exact (q.records m.round).armed .precommitWait (h (q.step ▸ step) majority)

/-- As for prevotes. -/
theorem PrecommitsWait.quieter (h : m.PrecommitsWait s) (q : Quieter m m') :
    m'.PrecommitsWait s := by
  intro many
  rw [q.round] at many ⊢
  refine (q.records m.round).armed .precommit (h ?_)
  rw [precommitsSomeTwoThirds_eq_record] at many ⊢
  unfold Tally.someTwoThirds at many ⊢
  rw [← (q.records m.round).precommits.power]
  exact many

/-- A proposal still held agrees with the majority as before. -/
theorem Agrees.quieter (h : m.Agrees) (q : Quieter m m') : m'.Agrees := by
  intro step p held hash majority
  rw [q.round, q.majority] at majority
  exact h (q.step ▸ step) p (q.held held) hash majority

end Machine

-- =========================================================== single rules

namespace Work

variable {s : Setup} {w : World}

/-- Once a slot is armed, the rule that arms it has nothing more to do. -/
theorem prevoteWaitRule_waits (k : Work) :
    (k.prevoteWaitRule s).1.machine.PrevotesWait s := by
  unfold prevoteWaitRule
  split
  case isTrue =>
    rw [arm_eq]
    intro _ _
    rw [Machine.round_armed]
    exact Machine.isArmed_armed _ _ _
  case isFalse off => exact fun step many => absurd ⟨step, many⟩ off

/-- The same goes for the rule about precommits. -/
theorem precommitWaitRule_waits (k : Work) :
    (k.precommitWaitRule s).1.machine.PrecommitsWait s := by
  unfold precommitWaitRule
  split
  case isTrue =>
    rw [arm_eq]
    intro _
    rw [Machine.round_armed]
    exact Machine.isArmed_armed _ _ _
  case isFalse off => exact fun many => absurd many off

/-- To act on a majority marks it, whatever else is done. -/
theorem actOnQuorum_seen (k : Work) (pinned : Pinned) :
    (k.actOnQuorum s pinned).machine.round = k.machine.round
      ∧ ((k.actOnQuorum s pinned).machine.log.getOrFresh pinned.round).quorumSeen = true := by
  have seen : ((k.machine.sawQuorum pinned.round).log.getOrFresh pinned.round).quorumSeen
      = true := by
    unfold Machine.sawQuorum
    rw [HeightLog.getOrFresh_put, if_pos (HeightLog.round_getOrFresh _ _).symm]
  unfold actOnQuorum
  dsimp only
  split
  case isTrue =>
    unfold lock
    rw [arm_eq]
    refine ⟨Machine.round_armed _ _ _, ?_⟩
    exact ((Machine.quieter_armed _ _ _).records pinned.round).seen seen
  case isFalse => exact ⟨rfl, seen⟩

/-- A majority is acted on once, and a verdict against the block stays. -/
theorem lockRule_seen (k : Work) : (k.lockRule s w).1.machine.QuorumSeen s w := by
  unfold lockRule
  split
  case isFalse off => exact fun step => absurd step off
  case isTrue step =>
    split
    case h_1 none_ =>
      intro _ p held
      cases none_.symm.trans held
    case h_2 proposal found =>
      dsimp only
      rw [judge_eq]
      split
      case isTrue fresh =>
        dsimp only
        split
        case isTrue valid =>
          obtain ⟨round, seen⟩ := actOnQuorum_seen (s := s)
            ⟨k.machine.judged s w proposal.body.hash proposal.body.block, k.effects⟩
            ⟨k.machine.round, proposal.body.hash, proposal.body.block⟩
          intro _ p _ _ _
          rw [round]
          exact seen
        -- the verdict that was against the block is remembered, so it is asked in vain
        case isFalse invalid =>
          intro _ p held _ valid
          cases found.symm.trans held
          rw [Machine.verdict_judged] at valid
          exact absurd valid invalid
      case isFalse off =>
        intro _ p held majority _
        cases found.symm.trans held
        by_contra unseen
        exact off ⟨by simpa using unseen, majority⟩

/-- A majority for nothing is put on its timer, and a proposal that the majority
is not for is dropped. -/
theorem otherMajorityRule_agrees (k : Work) :
    (k.otherMajorityRule s).1.machine.NothingWaits
      ∧ (k.otherMajorityRule s).1.machine.Agrees := by
  unfold otherMajorityRule
  split
  case isFalse off => exact ⟨fun step => absurd step off, fun step => absurd step off⟩
  case isTrue step =>
    split
    case h_1 none_ =>
      refine ⟨fun _ majority => ?_, fun _ p _ hash majority => ?_⟩
      · cases none_.symm.trans majority
      · cases none_.symm.trans majority
    case h_2 majority reached =>
      have reads : ∀ {m : Machine}, Machine.Quieter k.machine m →
          m.prevoteMajority? m.round = some majority := by
        intro m quieter
        rw [quieter.round, quieter.majority, reached]
      split
      case isTrue empty =>
        rw [arm_eq]
        have quieter := Machine.quieter_armed k.machine k.machine.round
          .precommitWait
        refine ⟨fun _ _ => ?_, fun _ p _ hash here real => ?_⟩
        · rw [Machine.round_armed]
          exact Machine.isArmed_armed _ _ _
        · cases (reads quieter).symm.trans here
          exact absurd (by simpa [BlockHash.isNil] using empty) real
      case isFalse real =>
        have apart : majority ≠ .nil := by simpa [BlockHash.isNil] using real
        split
        case h_1 none_ =>
          refine ⟨fun _ here => ?_, fun _ p held => ?_⟩
          · cases reached.symm.trans here
            exact absurd rfl apart
          · cases none_.symm.trans held
        case h_2 proposal found =>
          split
          case isTrue agrees =>
            refine ⟨fun _ here => ?_, fun _ p held hash here _ => ?_⟩
            · cases reached.symm.trans here
              exact absurd rfl apart
            · cases reached.symm.trans here
              cases found.symm.trans held
              exact agrees
          -- a dropped proposal is against no majority
          case isFalse differs =>
            have quieter := Machine.quieter_discard k.machine
            refine ⟨fun _ here => ?_, fun _ p held => ?_⟩
            · cases (reads quieter).symm.trans here
              exact absurd rfl apart
            · rw [Machine.proposal?_eq] at held
              dsimp only [emit, ask, updateRound, update] at held
              rw [HeightLog.getOrFresh_put] at held
              cases (if_pos (HeightLog.round_getOrFresh k.machine.log _).symm ▸ held :)

-- ========================================================= rules at rest

/-- To arm an armed slot does nothing. -/
theorem arm_of_isArmed {k : Work} {round : Round} {kind : TimerKind}
    (before : (k.machine.log.getOrFresh round).isArmed kind.slot = true) :
    k.arm s round kind = (k, false) := by
  unfold arm
  rw [if_pos before]

/-- Without a ripe proposal the first rule has nothing to do. -/
theorem prevoteRule_of_unripe {k : Work} (unripe : k.machine.Unripe) :
    k.prevoteRule s w = (k, false) := by
  unfold prevoteRule
  split
  case isFalse => rfl
  case isTrue step =>
    split
    case h_1 => rfl
    case h_2 proposal held =>
      rw [unripe step proposal held]
      rfl

/-- Nor has the second, once the wait for prevotes is bounded. -/
theorem prevoteWaitRule_of_waits {k : Work} (waits : k.machine.PrevotesWait s) :
    k.prevoteWaitRule s = (k, false) := by
  unfold prevoteWaitRule
  split
  case isTrue many => exact arm_of_isArmed (waits many.1 many.2)
  case isFalse => rfl

/-- Nor has the last, once the wait for precommits is bounded. -/
theorem precommitWaitRule_of_waits {k : Work} (waits : k.machine.PrecommitsWait s) :
    k.precommitWaitRule s = (k, false) := by
  unfold precommitWaitRule
  split
  case isTrue many => exact arm_of_isArmed (waits many)
  case isFalse => rfl

/-- The lock rule may judge the proposal once more, and nothing else. -/
theorem lockRule_of_seen {k : Work} (seen : k.machine.QuorumSeen s w) :
    (k.lockRule s w).2 = false
      ∧ ((k.lockRule s w).1 = k ∨ ∃ p, k.machine.proposal? = some p
        ∧ (k.lockRule s w).1
          = ⟨k.machine.judged s w p.body.hash p.body.block, k.effects⟩) := by
  unfold lockRule
  split
  case isFalse => exact ⟨rfl, Or.inl rfl⟩
  case isTrue step =>
    split
    case h_1 => exact ⟨rfl, Or.inl rfl⟩
    case h_2 proposal held =>
      dsimp only
      rw [judge_eq]
      split
      case isFalse => exact ⟨rfl, Or.inl rfl⟩
      case isTrue fresh =>
        dsimp only
        split
        case isTrue valid =>
          have marked := seen step proposal held fresh.2 valid
          rw [marked] at fresh
          cases fresh.1
        case isFalse => exact ⟨rfl, Or.inr ⟨proposal, held, rfl⟩⟩

/-- With the proposal in agreement, and the timer of a majority for nothing armed,
the fourth rule has nothing to do. -/
theorem otherMajorityRule_of_agrees {k : Work} (waits : k.machine.NothingWaits)
    (agrees : k.machine.Agrees) : k.otherMajorityRule s = (k, false) := by
  unfold otherMajorityRule
  split
  case isFalse => rfl
  case isTrue step =>
    split
    case h_1 => rfl
    case h_2 majority reached =>
      split
      case isTrue empty =>
        have nothing : majority = .nil := by simpa [BlockHash.isNil] using empty
        exact arm_of_isArmed (waits step (nothing ▸ reached))
      case isFalse real =>
        split
        case h_1 => rfl
        case h_2 proposal held =>
          have apart : majority ≠ .nil := by simpa [BlockHash.isNil] using real
          rw [if_pos (agrees step proposal held majority reached apart)]

-- ========================================================== whole passes

/-- After a pass the rules rest, whatever they did. -/
theorem pass_atRest [Crypto] (k : Work) : (k.pass s w).1.machine.AtRest s w := by
  unfold pass
  dsimp only
  generalize first : (k.prevoteRule s w).1 = voted
  generalize second : (voted.prevoteWaitRule s).1 = waiting
  generalize third : (waiting.lockRule s w).1 = locked
  generalize fourth : (locked.otherMajorityRule s).1 = other
  generalize fifth : (other.precommitWaitRule s).1 = last
  have waited : Reaches s w (elsewhere s) voted waiting :=
    second ▸ prevoteWaitRule_reaches voted
  have locking : Reaches s w (elsewhere s) waiting locked :=
    third ▸ lockRule_reaches waiting
  have opposing : Reaches s w (elsewhere s) locked other :=
    fourth ▸ otherMajorityRule_reaches locked
  have ending : Reaches s w (elsewhere s) other last :=
    fifth ▸ precommitWaitRule_reaches other
  -- what the first rule leaves stays so
  have unripe : waiting.machine.Unripe := waited.unripe (first ▸ prevoteRule_unripe k)
  have unripeLocked := locking.unripe unripe
  have unripeOther := opposing.unripe unripeLocked
  -- each later rule switches its guard off, and those behind it leave it so
  have prevotesWait : waiting.machine.PrevotesWait s := second ▸ prevoteWaitRule_waits voted
  have quorumSeen : locked.machine.QuorumSeen s w := third ▸ lockRule_seen waiting
  have agrees : other.machine.NothingWaits ∧ other.machine.Agrees :=
    fourth ▸ otherMajorityRule_agrees locked
  have precommitsWait : last.machine.PrecommitsWait s := fifth ▸ precommitWaitRule_waits other
  obtain ⟨quietWaiting, -⟩ := (locking.trans (opposing.trans ending)).quieter unripe
  obtain ⟨quietLocked, verdict⟩ := (opposing.trans ending).quieter unripeLocked
  obtain ⟨quietOther, -⟩ := ending.quieter unripeOther
  exact ⟨ending.unripe unripeOther, prevotesWait.quieter quietWaiting,
    quorumSeen.quieter quietLocked verdict, agrees.1.quieter quietOther,
    agrees.2.quieter quietOther, precommitsWait⟩

/-- A pass over rules at rest changes nothing. -/
theorem pass_of_atRest {k : Work} (rest : k.machine.AtRest s w) :
    (k.pass s w).2 = false := by
  unfold pass
  dsimp only
  rw [prevoteRule_of_unripe rest.unripe]
  dsimp only
  rw [prevoteWaitRule_of_waits rest.prevotesWait]
  dsimp only
  obtain ⟨locked, judged⟩ := lockRule_of_seen (k := k) rest.quorumSeen
  -- the verdicts are all that the lock rule may change, and no later rule reads them
  have quieter : k.machine.Quieter (k.lockRule s w).1.machine := by
    rcases judged with same | ⟨p, -, same⟩
    · rw [same]
      exact Machine.quieter_of_same_log rfl rfl rfl
    · rw [same]
      exact Machine.quieter_of_same_log rfl rfl rfl
  have nothingWaits : k.machine.NothingWaits := rest.nothingWaits
  have agrees : k.machine.Agrees := rest.agrees
  have precommitsWait : k.machine.PrecommitsWait s := rest.precommitsWait
  rw [locked, otherMajorityRule_of_agrees (nothingWaits.quieter quieter) (agrees.quieter quieter)]
  dsimp only
  rw [precommitWaitRule_of_waits (precommitsWait.quieter quieter)]
  rfl

/-- The rules rest after they ran, also where they were stopped. -/
theorem passes_atRest [Crypto] (limit left : Nat) (k : Work) :
    (passes s w limit (left + 1) k).1.machine.AtRest s w := by
  induction left generalizing k with
  | zero =>
    unfold passes
    dsimp only
    split
    · dsimp only [passes, fail]
      exact pass_atRest k
    · dsimp only [done]
      exact pass_atRest k
  | succ left ih =>
    unfold passes
    dsimp only
    split
    · exact ih _
    · dsimp only [done]
      exact pass_atRest k

/-- However few passes are allowed there is at least one, and it is enough. -/
theorem settle_atRest [Crypto] {k : Work} (started : k.machine.step ≠ .idle) :
    (k.settle s w).1.machine.AtRest s w := by
  unfold settle
  rw [if_neg started]
  obtain ⟨left, limit⟩ := passLimit_eq_succ s
  rw [limit]
  exact passes_atRest _ left k

/-- Where two passes are allowed the rules settle. -/
theorem settle_ok [Crypto] (enough : 2 ≤ s.settings.maxPasses.toNat) (k : Work) :
    (k.settle s w).2 = .ok () := by
  obtain ⟨left, limit⟩ : ∃ left, passLimit s = left + 2 :=
    ⟨passLimit s - 2, by unfold passLimit; omega⟩
  unfold settle
  split
  case isTrue => rfl
  case isFalse =>
    rw [limit]
    unfold passes
    dsimp only
    split
    case isFalse => rfl
    case isTrue =>
      unfold passes
      dsimp only
      rw [pass_of_atRest (pass_atRest k)]
      rfl

end Work

end Quorum
