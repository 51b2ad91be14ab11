/-
No timer without a cause, and no precommit without a majority.

A timer is armed when something is so: two thirds of the power have voted,
a hash has the majority, a block is decided (`Warrant`). None of this is
undone afterwards, so it is still so when the timer fires, however late
and however often it does (`Reachable.warranted`).

A precommit is cast at nothing but a timer, and only in the round of the
timer. So whatever happened since the timer was armed, the prevotes of
that round are more than two thirds when the precommit is signed. If it is
for a block, then the timer was armed by locking that block in that round;
since then another lock can only be of a later round, and the machine is
still in this one. So the lock is still there, too.
-/
import Quorum.Proofs.Machine.Arming
import Quorum.Proofs.Machine.Committing
import Quorum.Proofs.Machine.Finality
import Quorum.Proofs.Machine.Vetting

namespace Quorum

-- ============================================================== warrants

/-- What is so when a timer is asked for. -/
inductive Warrant (s : Setup) (m : Machine) : Timer → Prop
  | proposal (round : Round) : Warrant s m ⟨s.scope.height, round, .propose⟩
  | prevotes (round : Round) (many : m.prevotesSomeTwoThirds s round = true) :
      Warrant s m ⟨s.scope.height, round, .prevote⟩
  | precommits (round : Round)
      (many : m.precommitsSomeTwoThirds s round = true) :
      Warrant s m ⟨s.scope.height, round, .precommit⟩
  | majority (round : Round) (hash : BlockHash)
      (reached : m.prevoteMajority? round = some hash) :
      Warrant s m ⟨s.scope.height, round, .precommitWait hash⟩
  | decision (d : Pinned) (decided : m.decision = some d) :
      Warrant s m ⟨s.scope.height, d.round, .endCommitWait⟩

section

variable {s : Setup} {m m' : Machine} {es : List Effect}

/-- What was so stays so, as votes are added and decisions stay. -/
theorem Warrant.keeps {timer : Timer} (h : Warrant s m timer)
    (grows : m.log.Grows m'.log)
    (stays : ∀ d, m.decision = some d → m'.decision = some d) :
    Warrant s m' timer := by
  cases h with
  | proposal round => exact .proposal round
  | prevotes round many =>
    have many := Machine.prevotesSomeTwoThirds_iff.1 many
    exact .prevotes round
      (Machine.prevotesSomeTwoThirds_iff.2 (grows.twoThirds many))
  | precommits round many =>
    have many := Machine.precommitsSomeTwoThirds_iff.1 many
    exact .precommits round
      (Machine.precommitsSomeTwoThirds_iff.2 (grows.twoThirds many))
  | majority round hash reached =>
    exact .majority round hash (grows.prevoteMajority reached)
  | decision d decided => exact .decision d (stays d decided)

/-- The wait for prevotes is armed when two thirds have prevoted. -/
theorem Warrant.twoThirds {height : Height} {round : Round}
    (h : Warrant s m ⟨height, round, .prevote⟩) :
    m.prevotesSomeTwoThirds s round = true := by
  cases h with
  | prevotes _ many => exact many

/-- The wait for precommits is armed when two thirds have precommitted. -/
theorem Warrant.precommitTwoThirds {height : Height} {round : Round}
    (h : Warrant s m ⟨height, round, .precommit⟩) :
    m.precommitsSomeTwoThirds s round = true := by
  cases h with
  | precommits _ many => exact many

/-- The end of a height is armed by a decision. -/
theorem Warrant.decided {height : Height} {round : Round}
    (h : Warrant s m ⟨height, round, .endCommitWait⟩) : m.decision ≠ none := by
  cases h with
  | decision d decided =>
    rw [decided]
    exact nofun

/-- A precommit is armed by a majority of prevotes for its hash. -/
theorem Warrant.prevoteMajority {height : Height} {round : Round}
    {hash : BlockHash} (h : Warrant s m ⟨height, round, .precommitWait hash⟩) :
    m.prevoteMajority? round = some hash := by
  cases h with
  | majority _ _ reached => exact reached

/-- Arming asks for one timer, so one cause is enough. -/
theorem warrant_of_scheduling (asking : Machine) {round : Round}
    {kind : TimerKind} (so : Warrant s m ⟨s.scope.height, round, kind⟩) :
    ∀ timer ∈ timersOf (asking.scheduling s round kind), Warrant s m timer := by
  intro timer asks
  rw [mem_timersOf_scheduling asks]
  exact so

/-- Where no timer is asked for no cause is needed. -/
theorem warrant_of_silent (silent : timersOf es = []) :
    ∀ timer ∈ timersOf es, Warrant s m timer := by
  rw [silent]
  exact nofun

end

section

variable [Crypto] {s : Setup} {w : World} {input : Input}

/-- The wait for a proposal needs no cause but the round. -/
theorem warrant_of_opening {m m' : Machine} {round : Round} :
    ∀ timer ∈ timersOf (Machine.opening s w m round).2,
      Warrant s m' timer := by
  have waits : ∀ timer ∈ timersOf (m.scheduling s round .propose),
      Warrant s m' timer := warrant_of_scheduling m (.proposal round)
  unfold Machine.opening
  split
  case isTrue =>
    split
    case h_1 => exact warrant_of_silent rfl
    case h_2 => exact waits
  case isFalse => exact waits

/-- An act asks for no timer without a cause. -/
theorem Act.warrants {m m' : Machine} {es : List Effect}
    (act : Act s w input m es m') :
    ∀ timer ∈ timersOf es, Warrant s m' timer := by
  have grows := act.log_keeps.grows
  cases act with
  | claim claim =>
    exact warrant_of_silent (filterMap_answering (fun _ => rfl) _)
  | passOn holdings votes =>
    exact warrant_of_silent (filterMap_forward (fun _ => rfl) votes)
  | beginRound round log cause moved => exact warrant_of_opening
  | prevote => exact warrant_of_silent (timersOf_casting s w _ _ _)
  | prevoteNothing => exact warrant_of_silent (timersOf_casting s w _ _ _)
  | precommit => exact warrant_of_silent (timersOf_casting s w _ _ _)
  | precommitNothing => exact warrant_of_silent (timersOf_casting s w _ _ _)
  -- the timer for the precommit is warranted by the majority that was locked on
  | lock proposal pinned step held pins unseen majority valid marked seen =>
    intro timer asks
    rw [timersOf_append] at asks
    have asks := (List.mem_append.1 asks).resolve_right nofun
    exact warrant_of_scheduling marked
      (.majority _ _ (grows.prevoteMajority majority)) timer asks
  | wait kind waits =>
    have cause : Warrant s m ⟨s.scope.height, m.round, kind⟩ := by
      cases waits with
      | prevotes step many => exact .prevotes _ many
      | precommits many => exact .precommits _ many
      | nothing step majority => exact .majority _ _ majority
    refine warrant_of_scheduling m (cause.keeps grows fun d decided => ?_)
    obtain ⟨log, same, -⟩ := Machine.armed_relogs m m.round kind.slot
    rw [same]
    exact decided
  | decideBlock proposal pinned started undecided held pins majority valid
      pinning decided =>
    obtain ⟨log, after, -⟩ := Machine.decided_eq decided
    have here : pinned.round = m.round := by rw [pins]
    refine warrant_of_scheduling pinning ?_
    rw [after, ← here]
    exact .decision pinned rfl
  | _ => exact warrant_of_silent rfl

-- =============================================================== lives

variable {admits : Life → Input → Prop} {l : Life}

/-- Whatever a machine is given, every timer it asked for had a cause, and
still has it. -/
theorem Reachable.warranted (h : Reachable s admits l) {timer : Timer}
    (scheduled : Scheduled l.asked timer) : Warrant s l.machine timer := by
  have rest : Reachable s admits (Life.initial s) := .here
  refine (Leads.keeps (P := fun _ m asked => Concluded m asked
    ∧ ∀ timer ∈ timersOf asked, Warrant s m timer) ?_
    (fun _ held => held) h ⟨rest.concluded, nofun⟩).2
    timer (mem_timersOf.2 scheduled)
  intro l w input m m' es asked _ _ act held
  obtain ⟨concluded, warranted⟩ := held
  refine ⟨concluded.keeps act.concludes, fun timer asks => ?_⟩
  rw [timersOf_append] at asks
  rcases List.mem_append.1 asks with earlier | now
  · refine (warranted timer earlier).keeps act.log_keeps.grows fun d decided => ?_
    exact (act.concludes.of_decided decided (concluded.started d decided)).1
  · exact act.warrants timer now

-- ========================================================== precommits

/-- The timers that precommit begin no round. -/
theorem round_eq_of_firedFor {m m' : Machine} {es : List Effect}
    {ballot : Ballot} (fired : FiredFor s input ballot)
    (act : Act s w input m es m') : m'.round = m.round := by
  have fires : ∃ kind, input = .timer ⟨s.scope.height, ballot.round, kind⟩
      ∧ kind ≠ .precommit ∧ kind ≠ .endCommitWait := by
    rcases fired with fired | ⟨fired, -⟩
    · exact ⟨_, fired, nofun, nofun⟩
    · exact ⟨_, fired, nofun, nofun⟩
  obtain ⟨kind, fires, others⟩ := fires
  refine act.concludes.round_cases.resolve_right fun cause => ?_
  cases cause with
  | start told =>
    rw [told] at fires
    cases fires
  | follow message given =>
    rw [given] at fires
    cases fires
  | next ending ended ends =>
    rw [ended] at fires
    have same : ending = kind := congrArg Timer.kind (Input.timer.inj fires)
    rw [← same] at others
    exact ends.elim others.1 others.2

/-- The precommits cast at an input, and the round meanwhile: it is left only
at an input that precommits nothing. -/
structure CastIn (s : Setup) (input : Input) (round : Round) (m : Machine)
    (asked : List Effect) : Prop where
  stays : ∀ ballot, FiredFor s input ballot → m.round = round
  cast : ∀ ballot ∈ ballotsOf asked, ballot.kind = .precommit →
    FiredFor s input ballot ∧ round = ballot.round

theorem CastIn.keeps {round : Round} {m m' : Machine} {asked es : List Effect}
    (h : CastIn s input round m asked) (act : Act s w input m es m') :
    CastIn s input round m' (asked ++ es) := by
  constructor
  case stays =>
    intro ballot fired
    exact (round_eq_of_firedFor fired act).trans (h.stays ballot fired)
  case cast =>
    intro ballot signed precommit
    rw [ballotsOf_append] at signed
    rcases List.mem_append.1 signed with earlier | now
    · exact h.cast ballot earlier precommit
    · obtain ⟨here, fired⟩ := act.arms.fired ballot now precommit
      exact ⟨fired, (h.stays ballot fired).symm.trans here.symm⟩

/-- A precommit is cast in the round that the machine is in all along. -/
theorem Machine.round_of_precommit (m : Machine) {ballot : Ballot}
    (signed : ballot ∈ ballotsOf (m.handle s w input).effects)
    (precommit : ballot.kind = .precommit) :
    FiredFor s input ballot ∧ m.round = ballot.round
      ∧ (m.handle s w input).machine.round = ballot.round := by
  have start : CastIn s input m.round m [] :=
    ⟨fun _ _ => rfl, fun _ none_ => nomatch none_⟩
  have kept : CastIn s input m.round (m.handle s w input).machine
      (m.handle s w input).effects :=
    Acts.keeps (fun act held => held.keeps act) (m.handle_acts s w input) start
  obtain ⟨fired, here⟩ := kept.cast ballot signed precommit
  exact ⟨fired, here, (kept.stays ballot fired).trans here⟩

/-- What a machine has to hold for a precommit. -/
structure Justified (s : Setup) (turns : List (World × Input)) (m : Machine)
    (ballot : Ballot) : Prop where
  /-- More than two thirds of the power have prevoted in its round. -/
  many : ∃ tally, m.log.tallyOf? ballot.round .prevote = some tally
    ∧ 2 * s.scope.validators.total.toNat < 3 * tally.power.toNat
  /-- Its block has the majority of these. -/
  majority : ballot.hash ≠ .nil →
    m.prevoteMajority? ballot.round = some ballot.hash
  /-- The machine is locked on this block in this round. The block is what its
  hash says, a block of this hash was accepted, and so this one was, unless
  two different ones with the same hash were proposed. -/
  locked : ballot.hash ≠ .nil → ∃ block,
    m.locked = some ⟨ballot.round, ballot.hash, block⟩
      ∧ block.hash = ballot.hash ∧ Passed s turns ballot.hash
      ∧ (¬ Clash turns → ∃ turn ∈ turns, Work.accepts s turn.1 block = true)

/-- What a timer was armed for is a majority of prevotes. -/
theorem Reachable.prevotes_of_fired (h : Reachable s admits l) {ballot : Ballot}
    (fired : FiredFor s input ballot) (own : ownTimers l input) :
    (∃ tally, l.machine.log.tallyOf? ballot.round .prevote = some tally
        ∧ 2 * s.scope.validators.total.toNat < 3 * tally.power.toNat)
      ∧ (ballot.hash ≠ .nil →
        l.machine.prevoteMajority? ballot.round = some ballot.hash) := by
  rcases fired with fired | ⟨fired, none_⟩
  · have majority := (h.warranted (own _ fired)).prevoteMajority
    refine ⟨?_, fun _ => majority⟩
    rw [Machine.prevoteMajority?_eq] at majority
    obtain ⟨tally, found, reached⟩ := Option.bind_eq_some_iff.1 majority
    have sound := h.log_sound.tallyOf? found
    have backed := (ValidatorSet.exceedsTwoThirds_iff _ _).1
      (sound.backed _ reached)
    have all := sound.counted.powerFor_le_power ballot.hash
    exact ⟨tally, found, by omega⟩
  · have many := (h.warranted (own _ fired)).twoThirds
    exact ⟨Machine.prevotesSomeTwoThirds_iff.1 many,
      fun real => absurd none_ real⟩

/-- A machine that told of a lock of this round is locked on a block that
passed. -/
theorem locked_after {turns : List (World × Input)} {round : Round}
    {hash : BlockHash}
    (told : (round, hash) ∈ locksOf (Life.after s turns).asked)
    (here : (Life.after s turns).machine.round = round) :
    ∃ block, (Life.after s turns).machine.locked = some ⟨round, hash, block⟩
      ∧ block.hash = hash ∧ Passed s turns hash
      ∧ (¬ Clash turns →
        ∃ turn ∈ turns, Work.accepts s turn.1 block = true) := by
  obtain ⟨block, locked⟩ :=
    (reachable_after s turns).disciplined.holds told here
  have vetted := vetted_after s turns
  have pinned := Machine.mem_pins.2 (Or.inl locked)
  have own : block.hash = hash := vetted.hash_eq _ pinned
  have passed : Passed s turns hash := vetted.passed _ pinned
  refine ⟨block, locked, own, passed, ?_⟩
  rw [← own] at passed
  exact passed.accepted (vetted.proposed _ pinned)

/-- A precommit is justified. Take any turns in which the timers that fire are
the machine's own, at any time and any number of times: when it signs a
precommit in the last of them, it holds what the precommit needs before that
turn and after it, and the majority of the round is the same for good. -/
theorem precommit_justified {turns : List (World × Input)}
    (admitted : Life.Admits s ownTimers (Life.initial s) (turns ++ [(w, input)]))
    {ballot : Ballot}
    (signed : ballot ∈
      ballotsOf ((Life.after s turns).machine.handle s w input).effects)
    (precommit : ballot.kind = .precommit) :
    Justified s turns (Life.after s turns).machine ballot
      ∧ Justified s (turns ++ [(w, input)])
        ((Life.after s turns).machine.handle s w input).machine ballot
      ∧ (ballot.hash ≠ .nil → ∀ more,
        (Life.after s (turns ++ more)).machine.prevoteMajority? ballot.round
          = some ballot.hash) := by
  obtain ⟨before, last⟩ := Life.admits_append.1 admitted
  have start : Reachable s ownTimers (Life.after s turns) := before.leads
  have own : ownTimers (Life.after s turns) input := last.1
  obtain ⟨fired, here, there⟩ :=
    (Life.after s turns).machine.round_of_precommit signed precommit
  obtain ⟨many, majority⟩ := start.prevotes_of_fired fired own
  have leads : ∀ more, Leads s anything (Life.after s turns)
      (Life.after s (turns ++ more)) := by
    intro more
    rw [Life.after_append]
    exact leads_run s _ more fun _ _ _ => trivial
  have told : ballot.hash ≠ .nil →
      (ballot.round, ballot.hash) ∈ locksOf (Life.after s turns).asked := by
    intro real
    -- the other timer precommits nothing
    rcases fired with fired | ⟨-, none_⟩
    · exact start.locksFirst.armed _ (mem_armingsOf (own _ fired) rfl real)
    · exact absurd none_ real
  have next : Life.after s (turns ++ [(w, input)])
      = (Life.after s turns).next s w input := Life.after_append s turns _
  refine ⟨⟨many, majority, fun real => locked_after (told real) here⟩, ?_,
    fun real more => (leads more).log_grows.prevoteMajority (majority real)⟩
  have grows := (leads [(w, input)]).log_grows
  rw [next] at grows
  refine ⟨grows.twoThirds many,
    fun real => grows.prevoteMajority (majority real), fun real => ?_⟩
  have still : (ballot.round, ballot.hash)
      ∈ locksOf (Life.after s (turns ++ [(w, input)])).asked :=
    ((leads [(w, input)]).extends.2.filterMap _).subset (told real)
  have locked := locked_after still
  rw [next] at locked
  exact locked there

end

open scoped Plain

namespace Plain

/-- The first of four validators locks the empty block in round 0. -/
def lockTurns : List (World × Input) :=
  [(world, .start), offer 2 0 none (block 0)] ++ votes [2, 3, 4] 0 .prevote

/-- The precommit it signs when the timer of that lock fires. -/
def precommitted : Ballot := ⟨1, 0, (block 0).hash, 0, address 1, 1, .precommit⟩

end Plain

open Plain in
/-- The precommit of a block that was locked is justified. -/
theorem precommit_justified_of_locked :
    Life.Admits (setup (address 1)) ownTimers (Life.initial (setup (address 1)))
        (lockTurns ++ [timer 0 (.precommitWait (block 0).hash)])
      ∧ precommitted ∈ ballotsOf
        ((Life.after (setup (address 1)) lockTurns).machine.handle
          (setup (address 1)) world
          (.timer ⟨1, 0, .precommitWait (block 0).hash⟩)).effects
      ∧ precommitted.kind = .precommit ∧ precommitted.hash ≠ .nil
      ∧ Justified (setup (address 1)) lockTurns
        (Life.after (setup (address 1)) lockTurns).machine precommitted := by
  have admitted : Life.Admits (setup (address 1)) ownTimers
      (Life.initial (setup (address 1)))
      (lockTurns ++ [timer 0 (.precommitWait (block 0).hash)]) := by
    decide +kernel
  have signed : precommitted ∈ ballotsOf
      ((Life.after (setup (address 1)) lockTurns).machine.handle
        (setup (address 1)) world
        (.timer ⟨1, 0, .precommitWait (block 0).hash⟩)).effects := by
    decide +kernel
  have real : precommitted.hash ≠ .nil := Plain.digest_ne_nil _
  exact ⟨admitted, signed, rfl, real, (precommit_justified admitted signed rfl).1⟩

end Quorum
