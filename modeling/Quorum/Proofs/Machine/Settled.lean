/-
Between two inputs no rule is left to act.

The rules are run at different moments: the five of a round after every input
that was taken in, the one that decides after votes, proposals and the start
only, and none of them after a refusal. So that nothing is left to do when a
machine waits for its next input (`Machine.Settled`) has three reasons.

Where an input was handled without a fault, the five rules rest. A refusal
changes nothing that a rule reads, but for one: the end of a decided round,
after which there is no rule to act. And the rule that decides need not be run
again, because no decision is ever overdue.

What is fatal is excepted, and everything after it: rules that were stopped do
not rest. It is taken for granted that the world does not change its mind about
blocks. A verdict is remembered by the hash of the block, so it is the verdict on
the block that was proposed, as long as no two blocks with one hash were.
-/
import Quorum.Proofs.Machine.Passing
import Quorum.Proofs.Machine.Ending
import Quorum.Proofs.Machine.Vetting

namespace Quorum

-- ================================================ statement vocabulary

/-- No rule is left to act, and no decision is due. -/
structure Machine.Settled (s : Setup) (w : World) (m : Machine) : Prop
    extends m.AtRest s w where
  /-- No valid proposal has the majority of precommits, without a decision. -/
  undecided : m.decision = none → ∀ p, m.proposal? = some p →
    m.verdict s w p.body.hash p.body.block = true →
    m.precommitMajority? m.round ≠ some p.body.hash

/-- Handling the input did not fail fatally. -/
def Outcome.sane (outcome : Outcome) : Bool :=
  match outcome.result with
  | .ok _ => true
  | .error fault => !fault.isFatal

/-- None of these turns fails fatally. -/
def Life.unbroken [Crypto] (s : Setup) : Life → List (World × Input) → Bool
  | _, [] => true
  | l, turn :: turns =>
    (l.machine.handle s turn.1 turn.2).sane
      && unbroken s (l.next s turn.1 turn.2) turns

/-- The world thinks of blocks at every turn as this one does. -/
def Unchanging (w : World) (turns : List (World × Input)) : Prop :=
  ∀ turn ∈ turns, turn.1.validate = w.validate

section

variable {w : World} {turns first : List (World × Input)} {turn : World × Input}

/-- A world that does not change its mind did not do so before. -/
theorem Unchanging.of_prefix (unchanging : Unchanging w turns)
    (taken : first <+: turns) : Unchanging w first :=
  fun turn member => unchanging turn (taken.subset member)

theorem Unchanging.past (unchanging : Unchanging w (turns ++ [turn])) :
    Unchanging w turns :=
  unchanging.of_prefix (List.prefix_append turns [turn])

theorem Unchanging.last (unchanging : Unchanging w (turns ++ [turn])) :
    turn.1.validate = w.validate :=
  unchanging turn (List.mem_append_right _ (List.mem_singleton_self turn))

end

-- ================================================================== rest

namespace Machine

variable {s : Setup} {w w' : World} {m m' : Machine}

/-- What the rules read of a machine. -/
structure SameRead (m m' : Machine) : Prop where
  round : m'.round = m.round
  step : m'.step = m.step
  decision : m'.decision = m.decision
  verdicts : m'.verdicts = m.verdicts
  reads : ∀ r, m'.log.getOrFresh r = m.log.getOrFresh r

theorem SameRead.proposal?_eq (same : SameRead m m') : m'.proposal? = m.proposal? := by
  rw [Machine.proposal?_eq, Machine.proposal?_eq, same.round, same.reads]

theorem SameRead.prevoteMajority?_eq (same : SameRead m m') (r : Round) :
    m'.prevoteMajority? r = m.prevoteMajority? r := by
  rw [prevoteMajority?_eq_record, prevoteMajority?_eq_record, same.reads]

/-- Whether the rules rest is read off what rules read. -/
theorem AtRest.congr (rest : m.AtRest s w) (same : SameRead m m') :
    m'.AtRest s w := by
  have proposal := same.proposal?_eq
  have prevotes := same.prevoteMajority?_eq
  obtain ⟨round, step, -, verdicts, reads⟩ := same
  have verdict : ∀ hash block,
      m'.verdict s w hash block = m.verdict s w hash block := by
    intro hash block
    unfold verdict
    rw [verdicts]
  constructor
  case unripe =>
    intro here p held
    rw [isRipe_congr round prevotes]
    exact rest.unripe (step.symm.trans here) p (proposal.symm.trans held)
  case prevotesWait =>
    rw [step, prevotesSomeTwoThirds_eq_record, round, reads,
      ← prevotesSomeTwoThirds_eq_record]
    exact rest.prevotesWait
  case quorumSeen =>
    simp only [step, round, reads, proposal, prevotes, verdict]
    exact rest.quorumSeen
  case nothingWaits =>
    simp only [step, round, reads, prevotes]
    exact rest.nothingWaits
  case agrees =>
    simp only [step, round, proposal, prevotes]
    exact rest.agrees
  case precommitsWait =>
    rw [precommitsSomeTwoThirds_eq_record, round, reads,
      ← precommitsSomeTwoThirds_eq_record]
    exact rest.precommitsWait

/-- Rest is the same in a world that thinks the same of blocks. -/
theorem AtRest.world_congr (rest : m.AtRest s w')
    (same : w'.validate = w.validate) : m.AtRest s w :=
  { rest with
    quorumSeen := fun step p held majority valid =>
      rest.quorumSeen step p held majority
        ((verdict_congr same).trans valid) }

/-- So is whether a decision is overdue, up to what the world thinks. -/
theorem Timely.world_congr (timely : m.Timely s w')
    (same : w'.validate = w.validate) : m.Timely s w :=
  fun started undecided p held valid =>
    timely started undecided p held ((verdict_congr same).trans valid)

/-- Whether a proposal can be prevoted on is read off the same. -/
theorem Unripe.congr (unripe : m.Unripe) (same : SameRead m m') : m'.Unripe := by
  intro here p held
  rw [isRipe_congr same.round same.prevoteMajority?_eq]
  exact unripe (same.step.symm.trans here) p (same.proposal?_eq.symm.trans held)

/-- At the end of a round most rules have nothing to act on. -/
theorem AtRest.ended (rest : m.AtRest s w) :
    { m with step := .endCommit }.AtRest s w where
  unripe := nofun
  prevotesWait := nofun
  quorumSeen := nofun
  nothingWaits := nofun
  agrees := nofun
  precommitsWait := rest.precommitsWait

end Machine

-- ============================================================== failures

theorem not_fatal_of_sane {outcome : Outcome} {fault : Fault}
    (failed : outcome.result = .error fault) (sane : outcome.sane = true) :
    fault.isFatal = false := by
  unfold Outcome.sane at sane
  rw [failed] at sane
  simpa using sane

/-- What goes well goes on. -/
theorem Attempt.andThen_of_ok {a : Attempt} (fine : a.2 = .ok ())
    (next : Work → Attempt) : a.andThen next = next a.1 := by
  obtain ⟨k, _⟩ := a
  cases fine
  rfl

/-- What went well went on. -/
theorem Attempt.eq_of_done {a : Attempt} {next : Work → Attempt}
    (done : (a.andThen next).2 = .ok ()) : a.andThen next = next a.1 := by
  obtain ⟨k, result⟩ := a
  cases result with
  | error fault => cases done
  | ok _ => rfl

section

variable [Crypto] {s : Setup} {w : World} {m : Machine} {input : Input}
  {fault : Fault}

namespace Work

variable {k : Work}

/-- A machine that is onward fails before it looks for a decision, if it
fails. -/
theorem eq_of_advance_failed {a : Attempt} {round : Round}
    (reaches : Reaches s w input k a.1) (onward : k.machine.Onward)
    (failed : (a.andThen fun k => k.advance s w round).2 = .error fault) :
    (a.andThen fun k => k.advance s w round) = a ∧ a.2 = .error fault := by
  obtain ⟨k', result⟩ := a
  cases result with
  | error earlier => exact ⟨rfl, failed⟩
  | ok _ =>
    have fine : (k'.advance s w round).2 = .ok () :=
      advance_ok round (reaches.onward onward)
    cases fine.symm.trans failed

/-- A vote that is not taken in changes nothing that rules read. -/
theorem addVote_failed {vote : Vote}
    (failed : (k.addVote s w vote).2 = .error fault) :
    Machine.SameRead k.machine (k.addVote s w vote).1.machine := by
  cases addVote_refused failed with
  | evidence evidence same =>
    rw [same]
    exact ⟨rfl, rfl, rfl, rfl, fun _ => rfl⟩
  | round opened absent opens mismatch same =>
    rw [same]
    exact ⟨rfl, rfl, rfl, rfl, fun r => HeightLog.getOrFresh_openFor? opens r⟩

/-- A message that is not taken in changes nothing that rules read: it may have
opened a round, or been evidence. -/
theorem takeMessage_failed {message : Message} (onward : k.machine.Onward)
    (failed : (k.takeMessage s w message).2 = .error fault) :
    Machine.SameRead k.machine (k.takeMessage s w message).1.machine := by
  have same : ∀ {m' : Machine}, m' = k.machine → Machine.SameRead k.machine m' := by
    rintro _ rfl
    exact ⟨rfl, rfl, rfl, rfl, fun _ => rfl⟩
  unfold takeMessage at failed ⊢
  split
  case isTrue => exact same rfl
  case isFalse here =>
    rw [if_neg here] at failed
    cases message with
    | proposal proposal =>
      obtain ⟨whole, failed⟩ :=
        eq_of_advance_failed (addProposal_reaches rfl) onward failed
      dsimp only
      rw [whole]
      exact same (addProposal_refused failed)
    | vote vote =>
      obtain ⟨whole, failed⟩ :=
        eq_of_advance_failed (addVote_reaches rfl) onward failed
      dsimp only
      rw [whole]
      exact addVote_failed failed
    | claim claim => exact same (takeClaim_refused failed)
    | holdings holdings => exact same (takeHoldings_refused failed)

/-- An input that is not taken in changes nothing that rules read, unless it
ends the round. -/
theorem apply_failed (onward : k.machine.Onward)
    (failed : (k.apply s w input).2 = .error fault) :
    Machine.SameRead k.machine (k.apply s w input).1.machine
      ∨ k.machine.step ≠ .idle
        ∧ (k.apply s w input).1.machine
          = { k.machine with step := .endCommit } := by
  cases input with
  | start =>
    refine Or.inl ?_
    show Machine.SameRead k.machine (k.start s w).1.machine
    have failed : (k.start s w).2 = .error fault := failed
    unfold start at failed ⊢
    split
    case isTrue => exact ⟨rfl, rfl, rfl, rfl, fun _ => rfl⟩
    case isFalse idle =>
      rw [if_neg idle] at failed
      rw [Decidable.not_not] at idle
      obtain ⟨whole, failed⟩ := eq_of_advance_failed
        (startRound_reaches (.start rfl idle rfl)) onward failed
      rw [whole, startRound_failed failed]
      exact ⟨rfl, rfl, rfl, rfl, fun _ => rfl⟩
  | message message => exact Or.inl (takeMessage_failed onward failed)
  | timer timer =>
    obtain ⟨ends, after⟩ := takeTimer_failed failed
    exact Or.inr ⟨ends.started, congrArg Work.machine after⟩

end Work

/-- An input that fails, but not fatally, was not taken in. -/
theorem Machine.handle_failed (onward : m.Onward)
    (failed : (m.handle s w input).result = .error fault)
    (sane : fault.isFatal = false) :
    SameRead m (m.handle s w input).machine
      ∨ m.step ≠ .idle
        ∧ (m.handle s w input).machine = { m with step := .endCommit } := by
  have settles : ¬OfRules fault := by
    intro ofRules
    cases ofRules <;> cases sane
  -- the rules have only fatal complaints, so this one came before them
  obtain ⟨whole, failed⟩ := Attempt.eq_of_failed
    (fun k => Work.settle_fails k) failed settles
  have after : (m.handle s w input).machine
      = ((Work.ofMachine m).apply s w input).1.machine :=
    congrArg (·.1.machine) whole
  rw [after]
  exact Work.apply_failed (k := Work.ofMachine m) onward failed

-- ========================================================== whole inputs

/-- Where handling an input went well, the rules rest. -/
theorem Machine.handle_rests
    (handled : (m.handle s w input).result = .ok ())
    (started : (m.handle s w input).machine.step ≠ .idle) :
    (m.handle s w input).machine.AtRest s w := by
  have whole : (Work.ofMachine m).run s w input
      = (((Work.ofMachine m).apply s w input).1).settle s w :=
    Attempt.eq_of_done handled
  have awake : ((Work.ofMachine m).run s w input).1.machine.step ≠ .idle :=
    started
  show ((Work.ofMachine m).run s w input).1.machine.AtRest s w
  rw [whole] at awake ⊢
  by_cases idle : ((Work.ofMachine m).apply s w input).1.machine.step = .idle
  · unfold Work.settle at awake
    rw [if_pos idle] at awake
    exact absurd idle awake
  · exact Work.settle_atRest idle

/-- However an input is handled, no proposal that can be prevoted on waits
afterwards. -/
theorem Machine.Unripe.handle (unripe : m.Unripe) (onward : m.Onward)
    (w : World) (input : Input) : (m.handle s w input).machine.Unripe := by
  show ((Work.ofMachine m).run s w input).1.machine.Unripe
  unfold Work.run
  cases applied : ((Work.ofMachine m).apply s w input).2 with
  | error fault =>
    have failed := Work.apply_failed (k := Work.ofMachine m) onward applied
    unfold Attempt.andThen
    rw [applied]
    -- not taken in, the input may still have ended the round
    rcases failed with read | ⟨-, ended⟩
    · exact unripe.congr read
    · dsimp only
      rw [ended]
      nofun
  | ok _ =>
    unfold Attempt.andThen
    rw [applied]
    dsimp only
    by_cases idle : ((Work.ofMachine m).apply s w input).1.machine.step = .idle
    · intro here
      unfold Work.settle at here
      rw [if_pos idle] at here
      cases idle.symm.trans here
    · exact Work.settle_unripe idle

-- ================================================================= turns

theorem Life.after_snoc (s : Setup) (turns : List (World × Input))
    (turn : World × Input) :
    after s (turns ++ [turn]) = (after s turns).next s turn.1 turn.2 :=
  after_append s turns [turn]

/-- Turns are unbroken when the first ones are, and then the last one. -/
theorem Life.unbroken_snoc (s : Setup) (l : Life) (turns : List (World × Input))
    (turn : World × Input) :
    l.unbroken s (turns ++ [turn])
      = (l.unbroken s turns
        && ((l.run s turns).machine.handle s turn.1 turn.2).sane) := by
  induction turns generalizing l with
  | nil => exact Bool.and_true _
  | cons first turns ih =>
    show ((l.machine.handle s first.1 first.2).sane
      && (l.next s first.1 first.2).unbroken s (turns ++ [turn])) = _
    rw [ih, ← Bool.and_assoc]
    rfl

/-- At no moment a decision is overdue. -/
theorem timely_after (turns : List (World × Input))
    (unchanging : Unchanging w turns) :
    (Life.after s turns).machine.Timely s w := by
  induction turns using List.reverseRecOn with
  | nil => exact fun started => absurd rfl started
  | append_singleton turns turn ih =>
    have same := unchanging.last
    have before := (ih unchanging.past).world_congr same.symm
    rw [Life.after_snoc]
    exact (before.handle (reachable_after s turns).onward turn.2).world_congr
      same

/-- The rules rest after every input, up to a fatal fault. -/
theorem atRest_after (turns : List (World × Input))
    (unchanging : Unchanging w turns)
    (unbroken : (Life.initial s).unbroken s turns = true)
    (started : (Life.after s turns).machine.step ≠ .idle) :
    (Life.after s turns).machine.AtRest s w := by
  induction turns using List.reverseRecOn with
  | nil => exact absurd rfl started
  | append_singleton turns turn ih =>
    have same := unchanging.last
    rw [Life.unbroken_snoc, Bool.and_eq_true] at unbroken
    obtain ⟨unbroken, sane⟩ := unbroken
    have before := ih unchanging.past unbroken
    rw [Life.after_snoc] at started ⊢
    cases handled : ((Life.after s turns).machine.handle s turn.1 turn.2).result with
    | ok _ => exact (Machine.handle_rests handled started).world_congr same
    | error fault =>
      rcases Machine.handle_failed (reachable_after s turns).onward handled
        (not_fatal_of_sane handled sane) with read | ⟨awake, ended⟩
      · exact (before (read.step ▸ started)).congr read
      · show ((Life.after s turns).machine.handle s turn.1 turn.2).machine.AtRest
          s w
        rw [ended]
        exact (before awake).ended

-- ============================================================== verdicts

/-- What a memory has under the hash of a block that was proposed is what the
world thinks of the block. -/
def VerdictCache.Fair (s : Setup) (w : World) (turns : List (World × Input))
    (c : VerdictCache) : Prop :=
  ∀ entry ∈ c.entries, ∀ block, Proposed turns block → block.hash = entry.1 →
    entry.2 = Work.accepts s w block

/-- Every verdict remembered is the world's, on a block that was proposed. -/
structure Judged (s : Setup) (w : World) (turns : List (World × Input))
    (m : Machine) : Prop where
  vetted : Vetted s turns m
  verdicts : Unchanging w turns → ∀ entry ∈ m.verdicts.entries,
    ∃ block, Proposed turns block ∧ block.hash = entry.1
      ∧ entry.2 = Work.accepts s w block

variable {turns : List (World × Input)}

/-- Whether it is remembered or not, the verdict on a block proposed is the
world's. -/
theorem VerdictCache.Fair.verdict {c : VerdictCache} {block : Block}
    (fair : c.Fair s w turns) (proposed : Proposed turns block) :
    (c.consult block.hash fun () => Work.accepts s w block).1
      = Work.accepts s w block := by
  unfold consult
  cases known : c.get? block.hash with
  | none => rfl
  | some valid => exact fair _ (mem_of_get? known) block proposed rfl

/-- The proposal held was proposed under its block's own hash. -/
theorem Vetted.held {p : Proposal} (h : Vetted s turns m)
    (held : m.proposal? = some p) :
    Proposed turns p.body.block ∧ p.body.block.hash = p.body.hash := by
  obtain ⟨given, m₀, faultless⟩ := offered_of_proposal? h.sound held
  exact ⟨⟨p, given, rfl⟩, (block_of_proposalFault? faultless).1⟩

/-- An act judges the proposal held, and as the world does. -/
theorem Judged.keeps {m' : Machine} {es : List Effect} {here : World}
    (h : Judged s w (turns ++ [(here, input)]) m)
    (act : Act s here input m es m') :
    Judged s w (turns ++ [(here, input)]) m' := by
  refine ⟨h.vetted.keeps act, fun unchanging entry member => ?_⟩
  rcases act.judges.verdicts entry member with old | ⟨p, held, rfl⟩
  · exact h.verdicts unchanging entry old
  · have same : here.validate = w.validate := unchanging.last
    obtain ⟨proposed, named⟩ := h.vetted.held held
    exact ⟨p.body.block, proposed, named, Work.accepts_congr same _⟩

/-- What was proposed at earlier turns was proposed. -/
theorem Judged.more (h : Judged s w turns m) (turn : World × Input) :
    Judged s w (turns ++ [turn]) m := by
  refine ⟨h.vetted.more turn, fun unchanging entry member => ?_⟩
  obtain ⟨block, proposed, rest⟩ := h.verdicts unchanging.past entry member
  exact ⟨block, proposed.append [turn], rest⟩

/-- By induction on the turns, act by act. -/
theorem judged_after (s : Setup) (w : World) (turns : List (World × Input)) :
    Judged s w turns (Life.after s turns).machine := by
  refine Life.after_keeps (P := fun turns m _ => Judged s w turns m) ?_ ?_ ?_
    turns
  · intro turns here input m m' es asked act held
    exact held.keeps act
  · intro turns m asked turn held
    exact held.more turn
  · exact ⟨vetted_after s [], nofun⟩

/-- Where no hash was proposed for two blocks, what is remembered after some turns
is fair in view of all. -/
theorem Judged.fair {past : List (World × Input)} (h : Judged s w past m)
    (unchanging : Unchanging w turns) (apart : ¬Clash turns)
    (taken : past <+: turns) : m.verdicts.Fair s w turns := by
  intro entry member block proposed named
  obtain ⟨known, proposed', named', verdict⟩ :=
    h.verdicts (unchanging.of_prefix taken) entry member
  obtain ⟨more, rfl⟩ := taken
  rw [verdict, block_eq_of_apart apart (proposed'.append more) proposed
    (named'.trans named.symm)]

/-- Where no hash was proposed for two blocks, the verdict on the proposal held
is what the world thinks of its block. -/
theorem Judged.verdict_eq {p : Proposal} (h : Judged s w turns m)
    (unchanging : Unchanging w turns) (apart : ¬Clash turns)
    (held : m.proposal? = some p) :
    m.verdict s w p.body.hash p.body.block = Work.accepts s w p.body.block := by
  obtain ⟨proposed, named⟩ := h.vetted.held held
  rw [← named]
  exact (h.fair unchanging apart (List.prefix_refl turns)).verdict proposed

/-- Whatever a machine is given, in a world that does not change its mind about
blocks, and as long as nothing failed fatally: once it has started, no rule is
left to act and no decision is due, whether its last input was handled or
refused. What is said there of a valid proposal is said of one that the world
accepts, unless two blocks of one hash were proposed. -/
theorem settled_after (s : Setup) (w : World) (turns : List (World × Input))
    (unchanging : Unchanging w turns)
    (unbroken : (Life.initial s).unbroken s turns = true)
    (started : (Life.after s turns).machine.step ≠ .idle) :
    (Life.after s turns).machine.Settled s w
      ∧ (¬Clash turns → ∀ p, (Life.after s turns).machine.proposal? = some p →
        (Life.after s turns).machine.verdict s w p.body.hash p.body.block
          = Work.accepts s w p.body.block) := by
  have rest := atRest_after turns unchanging unbroken started
  have timely := timely_after turns unchanging started (s := s)
  refine ⟨⟨rest, timely⟩, fun apart p held => ?_⟩
  exact (judged_after s w turns).verdict_eq unchanging apart held

end

open scoped Plain

namespace Plain

/-- The first of four validators has locked the empty block. Then it is told to
start once more. -/
def startedTwice : List (World × Input) :=
  [(world, .start), offer 2 0 none (block 0)] ++ votes [2, 3, 4] 0 .prevote
    ++ [(world, .start)]

theorem unchanging_of_world {turns : List (World × Input)}
    (same : ∀ turn ∈ turns, turn.1 = world) : Unchanging world turns :=
  fun turn member => congrArg World.validate (same turn member)

end Plain

open Plain in
/-- A machine that was refused an input is as settled as before. -/
theorem settled_after_of_started_twice :
    Unchanging world startedTwice
      ∧ (Life.initial (setup (address 1))).unbroken (setup (address 1))
        startedTwice = true
      ∧ (Life.after (setup (address 1)) startedTwice).machine.step = .prevote
      ∧ (Life.after (setup (address 1)) startedTwice).machine.Settled
        (setup (address 1)) world := by
  have unchanging : Unchanging world startedTwice :=
    unchanging_of_world (by simp [startedTwice, offer, votes, vote])
  have unbroken : (Life.initial (setup (address 1))).unbroken
      (setup (address 1)) startedTwice = true := by
    decide +kernel
  have step : (Life.after (setup (address 1)) startedTwice).machine.step
      = .prevote := by
    decide +kernel
  refine ⟨unchanging, unbroken, step, ?_⟩
  exact (settled_after (setup (address 1)) world startedTwice unchanging unbroken
    (by rw [step]; decide)).1

end Quorum
