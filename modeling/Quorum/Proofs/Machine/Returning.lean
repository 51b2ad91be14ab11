/-
A proposer without its proposal and without the timer.

The proposer of a round counts on its proposal coming back to it like everybody's.
While it is in the proposing step, the proposal is still on its way or it was
given back and is of no use any more (`Fed.pending`).

It is of use where it is taken up: a proposal that was made here is one that can
be prevoted on, and such a proposal never waits (`unripe_after`). What is left
are the reasons to refuse one's own proposal (`Spurned`). Votes that were handled
first may have made a majority for something else, such as for nothing at all;
or the round holds another proposal of one's own that came from outside. Then the
machine waits for a proposal that will not come, and nothing ends the wait.
-/
import Quorum.Proofs.Machine.Plain
import Quorum.Proofs.Machine.Proposing
import Quorum.Proofs.Machine.Settled

namespace Quorum

-- ================================================ statement vocabulary

/-- What effects are at once as inputs to the one who asks for them. -/
def owed (s : Setup) (es : List Effect) : List Input :=
  es.filterMap (Effect.input? s.signer.address)

/-- Turns in which a machine is given anything, and also what it owes itself,
in any order; with what of it has not been given back yet. -/
inductive Fed [Crypto] (s : Setup) : List (World × Input) → List Input → Prop
  | rest : Fed s [] []
  | given {turns : List (World × Input)} {waiting : List Input} (w : World)
      (input : Input) : Fed s turns waiting →
      Fed s (turns ++ [(w, input)]) (waiting
        ++ owed s ((Life.after s turns).machine.handle s w input).effects)
  | fedBack {turns : List (World × Input)} {waiting : List Input} (w : World)
      (input : Input) : Fed s turns waiting → input ∈ waiting →
      Fed s (turns ++ [(w, input)]) (waiting.erase input
        ++ owed s ((Life.after s turns).machine.handle s w input).effects)

/-- Why a machine has no use for a proposal of this round that it signed
itself. -/
inductive Spurned [Crypto] (s : Setup) (given : List Input) (m : Machine)
    (p : Proposal) : Prop
  /-- There is a majority of votes for something else. -/
  | outvoted (hash : BlockHash) (differs : hash ≠ p.body.hash)
      (reached : m.prevoteMajority? m.round = some hash
        ∨ m.precommitMajority? m.round = some hash)
  /-- Another proposal came that was signed in its name for this round. -/
  | doubled (other : Proposal) (came : .message (.proposal other) ∈ given)
      (signed : other.verify = true)
      (author : other.body.proposer = p.body.proposer)
      (round : other.body.round = p.body.round) (differs : other ≠ p)
  /-- It does not know its own signature. -/
  | unsigned (bad : p.verify = false)
  /-- It was given a block of another height to propose. -/
  | misplaced (away : p.body.block.height ≠ s.scope.height)

theorem majority_of_conflictingMajority? {log : RoundLog}
    {hash majority : BlockHash}
    (conflict : Machine.conflictingMajority? log hash = some majority) :
    majority ≠ hash ∧ (log.prevotes.majority = some majority
      ∨ log.precommits.majority = some majority) := by
  unfold Machine.conflictingMajority? at conflict
  have member := List.mem_of_find?_eq_some conflict
  rw [List.mem_append, Option.mem_toList, Option.mem_toList] at member
  exact ⟨by simpa using List.find?_some conflict, member⟩

section

variable [Crypto] {s : Setup} {w : World} {input : Input} {m m' : Machine}
  {es : List Effect}

-- ======================================================= what comes back

/-- Moments of a life are in order. -/
theorem Leads.reached {admits : Life → Input → Prop} {l l' : Life}
    (leads : Leads s admits l l') (start : Reachable s admits l) :
    l'.machine.Reached l.machine.round l.machine.step := by
  have kept := Leads.keeps (P := fun _ m asked => SignsForward m asked
      ∧ m.Reached l.machine.round l.machine.step)
    (fun _ _ act held =>
      ⟨held.1.keeps act.moves, held.2.trans (held.1.forward act.moves)⟩)
    (fun _ held => held) leads
    ⟨start.signsForward, Or.inr ⟨rfl, Nat.le_refl _⟩⟩
  exact kept.2

/-- No proposal that can be prevoted on waits, at any moment. -/
theorem unripe_after (s : Setup) (turns : List (World × Input)) :
    (Life.after s turns).machine.Unripe := by
  induction turns using List.reverseRecOn with
  | nil => nofun
  | append_singleton turns turn ih =>
    rw [Life.after_snoc]
    exact ih.handle (reachable_after s turns).onward turn.1 turn.2

/-- The machine is past a round, or past its proposing step, or it holds this
proposal for it. -/
structure Machine.Holds (m : Machine) (round : Round) (p : Proposal) : Prop where
  forward : round ≤ m.round
  held : m.round = round → m.step = .propose → m.proposal? = some p

theorem Act.holds {p : Proposal} {round : Round}
    (act : Act s w (.message (.proposal p)) m es m') (onward : m.Onward)
    (holds : m.Holds round p) : m'.Holds round p := by
  refine ⟨UInt32.le_trans holds.forward (onward.round_le act.moves),
    fun here step => ?_⟩
  rcases act.of_propose step with ⟨before, same⟩ | ⟨opened, log, cause, -, after, -⟩
  · have held := holds.held (same.symm.trans here) before
    rw [Machine.proposal?_eq, same]
    cases act.places m.round with
    | same reads => rw [reads, ← Machine.proposal?_eq, held]
    | taken q given _ _ taken =>
      cases given
      exact taken
    | gone _ _ prevoted => cases before.symm.trans prevoted
  · -- a round that begins is past the one that the proposal was taken up in
    cases cause with
    | start told => cases told
    | next kind fired => cases fired
    | follow message given of_round started undecided later =>
      obtain ⟨relogged, same, -⟩ := Machine.opening_relogs s w
        { m with log := log, round := opened, step := .propose } opened
      rw [after, same] at here
      have here : opened = round := here
      rw [here] at later
      exact absurd later (UInt32.not_lt.2 holds.forward)

/-- What follows on an attempt that handles an input is acts. -/
theorem Work.acts_after (a : Attempt) {round : Round}
    (advances : ∀ k : Work, Work.Reaches s w input k (k.advance s w round).1) :
    ∃ es, Acts s w input a.1.machine es
      ((a.andThen fun k => k.advance s w round).andThen
        fun k => k.settle s w).1.machine := by
  have goesOn : Work.Reaches s w input a.1
      ((a.andThen fun k => k.advance s w round).andThen
        fun k => k.settle s w).1 :=
    ((Work.Reaches.refl _).andThen fun _ => advances _).andThen
      fun _ => Work.settle_reaches _
  obtain ⟨es, -, acts⟩ := goesOn
  exact ⟨es, acts⟩

/-- Where a proposal is taken up, it is there for all that follows. -/
theorem acts_of_takenUp {p : Proposal} (sound : m.proposalRefusal? s p = none) :
    ∃ es, Acts s w (.message (.proposal p))
      { m with
        log := m.log.put { m.log.getOrFresh p.body.round with
          proposal := some p } }
      es (m.handle s w (.message (.proposal p))).machine := by
  have faultless := faultless_iff.1 (proposalFault?_of_refusal? sound)
  have ours : ¬(Message.proposal p).height ≠ s.scope.height :=
    not_not.2 faultless.height
  have given : Input.message (.proposal p) = .message (.proposal p) := rfl
  obtain ⟨es, acts⟩ := Work.acts_after (s := s) (w := w)
    ((⟨m, []⟩ : Work).updateRound p.body.round
      fun l => { l with proposal := some p }).done
    fun _ => Work.advance_reaches given
  refine ⟨es, ?_⟩
  show Acts s w (.message (.proposal p)) _ es
    ((Work.ofMachine m).run s w (.message (.proposal p))).1.machine
  unfold Work.run Work.apply Work.takeMessage Work.addProposal
  dsimp only
  rw [if_neg ours]
  dsimp only [Work.ofMachine]
  rw [sound]
  exact acts

/-- A proposal that is taken up is held as long as it is waited for. -/
theorem holds_of_takenUp {p : Proposal} (onward : m.Onward)
    (sound : m.proposalRefusal? s p = none) :
    (m.handle s w (.message (.proposal p))).machine.Holds m.round p := by
  have round : (m.log.getOrFresh p.body.round).round = m.round := by
    rw [HeightLog.round_getOrFresh, round_of_proposalRefusal? sound]
  have taken : Machine.Holds { m with
      log := m.log.put { m.log.getOrFresh p.body.round with
        proposal := some p } } m.round p := by
    refine ⟨UInt32.le_refl _, fun _ _ => ?_⟩
    rw [Machine.proposal?_eq, HeightLog.getOrFresh_put, if_pos round.symm]
  have onward := (Act.takeUp (w := w) m p rfl sound).onward onward
  obtain ⟨es, acts⟩ := acts_of_takenUp (w := w) sound
  have kept := acts.keeps_machine (P := fun m' => m'.Onward ∧ m'.Holds m.round p)
    (fun act held => ⟨act.onward held.1, act.holds held.1 held.2⟩)
    ⟨onward, taken⟩
  exact kept.2

/-- A proposal that is refused changes nothing. -/
theorem handle_of_refused {p : Proposal} {fault : Fault}
    (refused : m.proposalRefusal? s p = some fault) :
    (m.handle s w (.message (.proposal p))).machine = m := by
  show ((Work.ofMachine m).run s w (.message (.proposal p))).1.machine = m
  unfold Work.run Work.apply Work.takeMessage Work.addProposal
  dsimp only
  split
  case isTrue => rfl
  case isFalse =>
    dsimp only [Work.ofMachine]
    rw [refused]
    rfl

/-- A proposal without a fault is refused because its place is taken, or because
of a majority for something else. -/
theorem taken_or_outvoted {p : Proposal} {fault : Fault}
    (faultless : m.proposalFault? s p = none)
    (refused : m.proposalRefusal? s p = some fault) :
    (∃ q, m.proposal? = some q)
      ∨ ∃ hash, hash ≠ p.body.hash ∧ (m.prevoteMajority? m.round = some hash
        ∨ m.precommitMajority? m.round = some hash) := by
  have round := (faultless_iff.1 faultless).round
  unfold Machine.proposalRefusal? Machine.placeRefusal? at refused
  rw [faultless, round] at refused
  dsimp only at refused
  split at refused
  case isTrue taken =>
    rw [← Machine.proposal?_eq] at taken
    exact Or.inl (Option.isSome_iff_exists.1 taken)
  case isFalse =>
    split at refused
    case h_1 majority conflict =>
      obtain ⟨differs, reached⟩ := majority_of_conflictingMajority? conflict
      rw [← Machine.prevoteMajority?_eq_record,
        ← Machine.precommitMajority?_eq_record] at reached
      exact Or.inr ⟨majority, differs, reached⟩
    case h_2 => cases refused

theorem Spurned.mono {p : Proposal} {given given' : List Input}
    (h : Spurned s given m p) (more : given ⊆ given')
    (grows : m.log.Grows m'.log) (same : m'.round = m.round) :
    Spurned s given' m' p := by
  cases h with
  | outvoted hash differs reached =>
    refine .outvoted hash differs ?_
    rw [same]
    exact reached.imp grows.prevoteMajority grows.precommitMajority
  | doubled other came signed author round differs =>
    exact .doubled other (more came) signed author round differs
  | unsigned bad => exact .unsigned bad
  | misplaced away => exact .misplaced away

/-- A proposal of one's own has no fault but those that are not its own: the
signature does not check, or the block was made for another height. -/
theorem Own.faultless {p : Proposal} (own : Own s m p) (signed : p.verify = true)
    (placed : p.body.block.height = s.scope.height) :
    m.proposalFault? s p = none := by
  have turn : p.body.proposer
      = s.scope.validators.proposerAddress s.scope.height p.body.round := by
    rw [own.round, own.turn, own.proposer]
  refine faultless_iff.2
    ⟨own.height, signed, own.named, placed, turn, own.round, ?_⟩
  have ripe := own.ripe
  unfold Work.isRipe at ripe
  refine Machine.validRoundFault?_eq_none_iff.2 fun valid carried => ?_
  rw [carried] at ripe
  simp only [Bool.and_eq_true, decide_eq_true_eq] at ripe
  rw [own.round]
  exact ripe.1

/-- A machine that refuses a proposal of its own, for which it waits, has no use
for it. -/
theorem Own.spurned {p : Proposal} {given : List Input} {fault : Fault}
    (own : Own s m p) (here : m.step = .propose) (unripe : m.Unripe)
    (sound : m.log.Sound s.scope (Heard given) (Offered s given))
    (refused : m.proposalRefusal? s p = some fault) : Spurned s given m p := by
  by_cases signed : p.verify = true
  case neg => exact .unsigned (by simpa using signed)
  by_cases placed : p.body.block.height = s.scope.height
  case neg => exact .misplaced placed
  rcases taken_or_outvoted (own.faultless signed placed) refused
    with ⟨other, held⟩ | ⟨hash, differs, reached⟩
  · have taken := held
    rw [Machine.proposal?_eq] at taken
    obtain ⟨round, came, m₀, faultless⟩ :=
      (sound.getOrFresh m.round).proposal other taken
    have faultless := faultless_iff.1 faultless
    rw [HeightLog.round_getOrFresh] at round
    -- what is held cannot be prevoted on, and the machine's own can: they differ
    refine .doubled other came faultless.signed ?_ (round.trans own.round.symm) ?_
    · rw [faultless.turn, round, own.turn, own.proposer]
    · rintro rfl
      cases (unripe here other held).symm.trans own.ripe
  · exact .outvoted hash differs reached

-- =============================================================== turns

/-- Who is in the proposing step has the timer for it, or made a proposal that
waits to be given back or is of no use any more. -/
def Pending (s : Setup) (turns : List (World × Input)) (waiting : List Input) :
    Prop :=
  (Life.after s turns).machine.step = .propose →
    Scheduled (Life.after s turns).asked
        ⟨s.scope.height, (Life.after s turns).machine.round, .propose⟩
      ∨ ∃ p, .publish (.proposal p) ∈ (Life.after s turns).asked
        ∧ Own s (Life.after s turns).machine p
        ∧ (.message (.proposal p) ∈ waiting
          ∨ .message (.proposal p) ∈ turns.map (·.2)
            ∧ Spurned s (turns.map (·.2)) (Life.after s turns).machine p)

theorem mem_owed_of_own {p : Proposal}
    (sent : .publish (.proposal p) ∈ es) (own : Own s m p) :
    .message (.proposal p) ∈ owed s es := by
  refine List.mem_filterMap.2 ⟨_, sent, ?_⟩
  have mine : (Message.proposal p).isOwnInput s.signer.address = true :=
    beq_iff_eq.2 own.proposer
  exact if_pos mine

/-- A proposal signed before this turn, of the round it ends in: the round was
being proposed in before. -/
theorem propose_of_sent {p : Proposal} {l : Life} {admits : Life → Input → Prop}
    (start : Reachable s admits l) (sent : .publish (.proposal p) ∈ l.asked)
    (here : m.step = .propose) (reached : m.Reached l.machine.round l.machine.step)
    (round : p.body.round = m.round) :
    l.machine.step = .propose ∧ m.round = l.machine.round := by
  have signs := start.signsForward
  have offered : p.body ∈ offersOf l.asked :=
    List.mem_filterMap.2 ⟨_, sent, rfl⟩
  have behind := signs.offered p.body offered
  rw [round] at behind
  rcases reached with later | ⟨same, early⟩
  · exact absurd later (UInt32.not_lt.2 behind)
  · refine ⟨?_, same.symm⟩
    rw [here] at early
    cases stepped : l.machine.step with
    | propose => rfl
    | idle =>
      rw [(signs.fresh stepped).2.2] at offered
      cases offered
    | _ =>
      rw [stepped] at early
      exact absurd early (by decide)

/-- What is given back to its maker while it waits for it is spurned, or else
it is prevoted on. -/
theorem spurned_of_fedBack {p : Proposal} {turns : List (World × Input)}
    (before : (Life.after s turns).machine.step = .propose)
    (own : Own s (Life.after s turns).machine p)
    (here : (Life.after s (turns ++ [(w, .message (.proposal p))])).machine.step
      = .propose)
    (own' : Own s
      (Life.after s (turns ++ [(w, .message (.proposal p))])).machine p) :
    Spurned s (turns.map (·.2))
      (Life.after s (turns ++ [(w, .message (.proposal p))])).machine p := by
  have start := reachable_after s turns
  have same := own'.round.symm.trans own.round
  have unripe := unripe_after s (turns ++ [(w, .message (.proposal p))]) here p
  rw [Life.after_snoc] at here own' same unripe ⊢
  have next : (((Life.after s turns).next s w (.message (.proposal p))).machine)
      = ((Life.after s turns).machine.handle s w (.message (.proposal p))).machine :=
    rfl
  cases refusal : (Life.after s turns).machine.proposalRefusal? s p with
  | none =>
    have holds := holds_of_takenUp (w := w) start.onward refusal
    rw [← next] at holds
    cases (unripe (holds.held same here)).symm.trans own'.ripe
  | some fault =>
    rw [next, handle_of_refused refusal]
    have sound := start.log_sound
    rw [Life.given_after] at sound
    exact own.spurned before (unripe_after s turns) sound refusal

/-- A turn keeps it, as long as no proposal is lost on the way. -/
theorem Pending.next {turns : List (World × Input)} {waiting waiting' : List Input}
    (h : Pending s turns waiting)
    (kept : ∀ p, .message (.proposal p) ∈ waiting →
      .message (.proposal p) ∈ waiting' ∨ input = .message (.proposal p))
    (added : owed s ((Life.after s turns).machine.handle s w input).effects
      ⊆ waiting') :
    Pending s (turns ++ [(w, input)]) waiting' := by
  intro here
  have start := reachable_after s turns
  have leads : Leads s anything (Life.after s turns)
      (Life.after s (turns ++ [(w, input)])) := by
    rw [Life.after_snoc]
    exact .next w input .here trivial
  have grows := leads.log_grows
  have asked : (Life.after s (turns ++ [(w, input)])).asked
      = (Life.after s turns).asked
        ++ ((Life.after s turns).machine.handle s w input).effects :=
    congrArg Life.asked (Life.after_snoc s turns (w, input))
  have given : turns.map (·.2) ⊆ (turns ++ [(w, input)]).map (·.2) :=
    List.map_subset _ (List.subset_append_left _ _)
  rcases (proposing_after s (turns ++ [(w, input)])).awaits here
    with scheduled | ⟨p, sent, own⟩
  · exact Or.inl scheduled
  rw [asked] at sent ⊢
  -- a proposal signed now is owed back; one signed earlier is of a round in which the
  -- machine was proposing before this turn too
  rcases List.mem_append.1 sent with old | new
  case inr =>
    exact Or.inr ⟨p, sent, own, Or.inl (added (mem_owed_of_own new own))⟩
  obtain ⟨before, same⟩ := propose_of_sent start old here (leads.reached start)
    own.round
  rcases h before with scheduled | ⟨q, sent, made, waits | ⟨came, spurned⟩⟩
  · rw [same]
    exact Or.inl (scheduled.append _)
  · have own := made.keeps grows same
    refine Or.inr ⟨q, List.mem_append_left _ sent, own, ?_⟩
    -- it waits on, or it is this input: taken up it would have been prevoted on
    rcases kept q waits with waits | rfl
    · exact Or.inl waits
    · have now := spurned_of_fedBack before made here own
      refine Or.inr ⟨?_, now.mono given (.refl _) rfl⟩
      rw [List.map_append]
      exact List.mem_append_right _ (List.mem_singleton_self _)
  · exact Or.inr ⟨q, List.mem_append_left _ sent, made.keeps grows same,
      Or.inr ⟨given came, spurned.mono given grows same⟩⟩

theorem Fed.pending {turns : List (World × Input)} {waiting : List Input}
    (fed : Fed s turns waiting) : Pending s turns waiting := by
  induction fed with
  | rest => nofun
  | given w input _ ih =>
    exact ih.next (fun p waits => Or.inl (List.mem_append_left _ waits))
      (List.subset_append_right _ _)
  | @fedBack turns waiting w input _ _ ih =>
    refine ih.next (fun p waits => ?_) (List.subset_append_right _ _)
    -- to give back one input leaves all others waiting
    by_cases back : input = .message (.proposal p)
    · exact Or.inr back
    · refine Or.inl (List.mem_append_left _ ?_)
      exact (List.mem_erase_of_ne (Ne.symm back)).2 waits

/-- Whatever a machine is given besides what it owes itself, and in whatever
order: in the proposing step of a round, where no proposal of its own for that
round waits to be given back, the timer for the proposal was scheduled; unless it
made a proposal, which was given back when it was of no use any more. -/
theorem propose_timer_unless_spurned {turns : List (World × Input)}
    {waiting : List Input} (fed : Fed s turns waiting)
    (here : (Life.after s turns).machine.step = .propose)
    (none_ : ∀ p, .message (.proposal p) ∈ waiting →
      p.body.round ≠ (Life.after s turns).machine.round) :
    Scheduled (Life.after s turns).asked
        ⟨s.scope.height, (Life.after s turns).machine.round, .propose⟩
      ∨ ∃ p, .publish (.proposal p) ∈ (Life.after s turns).asked
        ∧ p.body.round = (Life.after s turns).machine.round
        ∧ .message (.proposal p) ∈ turns.map (·.2)
        ∧ Spurned s (turns.map (·.2)) (Life.after s turns).machine p := by
  rcases fed.pending here with scheduled | ⟨p, sent, own, waits | ⟨came, spurned⟩⟩
  · exact Or.inl scheduled
  · exact absurd own.round (none_ p waits)
  · exact Or.inr ⟨p, sent, own.round, came, spurned⟩

end

open scoped Plain

namespace Plain

/-- What the second of four validators proposes for the first round. -/
def ownOffer : World × Input := offer 2 0 none (block 0)

/-- Three validators prevote for nothing before its own proposal comes back. -/
def outvotedTurns : List (World × Input) :=
  [(world, .start), vote 1 0 .nil .prevote, vote 3 0 .nil .prevote,
    vote 4 0 .nil .prevote, ownOffer]

/-- Nothing of it is forged: all it was given came from others, but for the
proposal that it signed itself. -/
theorem fed_outvotedTurns : Fed (setup (address 2)) outvotedTurns [] := by
  have first := Fed.given world .start (.rest (s := setup (address 2)))
  have second := first.given world (vote 1 0 .nil .prevote).2
  have third := second.given world (vote 3 0 .nil .prevote).2
  have fourth := third.given world (vote 4 0 .nil .prevote).2
  have last := fourth.fedBack world ownOffer.2 (by decide +kernel)
  have nothing : ∀ {waiting}, Fed (setup (address 2)) outvotedTurns waiting →
      waiting = [] → Fed (setup (address 2)) outvotedTurns [] := by
    rintro _ fed rfl
    exact fed
  exact nothing last (by decide +kernel)

end Plain

open Plain in
/-- The machine that was outvoted is in the proposing step without the timer. -/
theorem propose_timer_unless_spurned_of_outvoted :
    Fed (setup (address 2)) outvotedTurns []
      ∧ (Life.after (setup (address 2)) outvotedTurns).machine.step = .propose
      ∧ ∃ p, .publish (.proposal p)
          ∈ (Life.after (setup (address 2)) outvotedTurns).asked
        ∧ p.body.round = 0
        ∧ .message (.proposal p) ∈ outvotedTurns.map (·.2)
        ∧ Spurned (setup (address 2)) (outvotedTurns.map (·.2))
          (Life.after (setup (address 2)) outvotedTurns).machine p := by
  have step : (Life.after (setup (address 2)) outvotedTurns).machine.step
      = .propose := by decide +kernel
  have round : (Life.after (setup (address 2)) outvotedTurns).machine.round = 0 := by
    decide +kernel
  refine ⟨fed_outvotedTurns, step, ?_⟩
  rcases propose_timer_unless_spurned fed_outvotedTurns step nofun
    with scheduled | ⟨p, sent, here, came, spurned⟩
  · exact absurd scheduled (by decide +kernel)
  · exact ⟨p, sent, here.trans round, came, spurned⟩

open Plain in
/-- A machine is in the proposing step, no proposal of its own waits to be given
back, and the timer that could end the step was never scheduled. -/
theorem proposing_without_timer :
    Fed (setup (address 2)) outvotedTurns []
      ∧ (Life.initial (setup (address 2))).Admits (setup (address 2)) ownTimers
        outvotedTurns
      ∧ (Life.after (setup (address 2)) outvotedTurns).machine.step = .propose
      ∧ ¬Scheduled (Life.after (setup (address 2)) outvotedTurns).asked
        ⟨1, (Life.after (setup (address 2)) outvotedTurns).machine.round,
          .propose⟩ :=
  ⟨fed_outvotedTurns, by decide +kernel, by decide +kernel, by decide +kernel⟩

end Quorum
