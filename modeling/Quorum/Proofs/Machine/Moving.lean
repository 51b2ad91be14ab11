/-
Nobody is moved to another round by a third of the power.

A round begins at three inputs only. A start begins round 0. A timer that ends
the round begins the next one, and a vote that is counted begins the round it is
of, if more than a third of the power is there (`Machine.begins_of_handle`). All
else that is done while an input is handled begins nothing: the rules of a round
know no reason to, and a proposal is taken up for the current round only.

A timer says nothing of votes when it fires. But the one that ends a round was
armed on more than two thirds of its precommits, and these are still there; the
other one was armed by a decision, and after that no round begins. So late,
stale and repeated timers move a machine nowhere that votes have not been
(`round_change_justified`), and more than a third of the power is never within a
given third of it.
-/
import Quorum.Proofs.Machine.Settled
import Quorum.Proofs.Machine.Warrant

namespace Quorum

section

variable {s : Setup} {w : World} {input : Input} {m m' : Machine}
  {asked es : List Effect} {round : Round}

-- ============================================================= beginnings

theorem mem_beginningsOf {height : Height}
    (begun : .emit (.roundStarted height round) ∈ asked) :
    round ∈ beginningsOf asked :=
  List.mem_filterMap.2 ⟨_, begun, rfl⟩

theorem beginningsOf_append (asked es : List Effect) :
    beginningsOf (asked ++ es) = beginningsOf asked ++ beginningsOf es :=
  List.filterMap_append

theorem not_begun (quiet : beginningsOf asked = []) :
    round ∉ beginningsOf asked := by
  rw [quiet]
  exact List.not_mem_nil

/-- The next round is a later one, unless there is none. -/
theorem toNat_next {here next : Round} (after : next = here + 1)
    (later : next ≠ 0) : here.toNat + 1 = next.toNat := by
  subst after
  have apart : (here + 1).toNat ≠ 0 := fun zero =>
    later (UInt32.toNat_inj.1 zero)
  have wraps : (here + 1).toNat = (here.toNat + 1) % 2 ^ 32 := UInt32.toNat_add _ _
  have small := here.toNat_lt
  omega

/-- Every cause is against a round that stays in the proposing step. -/
theorem Cause.not_staying (cause : Cause s input m m'.round)
    (before : m.step = .propose) (same : m'.round = m.round) : False := by
  cases cause with
  | start _ idle => cases idle.symm.trans before
  | follow _ _ _ _ _ later =>
    rw [same] at later
    exact absurd later (UInt32.lt_irrefl _)
  | next _ _ _ ended => cases ended.symm.trans before

variable [Crypto]

/-- A round that is opened is the one that begins. -/
theorem eq_of_opened {opened : Round}
    (begun : round ∈ beginningsOf (.emit (.roundStarted s.scope.height opened)
      :: .emit (.stepChanged s.scope.height opened .propose)
      :: (Machine.opening s w m opened).2)) : round = opened := by
  have tells : beginningsOf (.emit (.roundStarted s.scope.height opened)
      :: .emit (.stepChanged s.scope.height opened .propose)
      :: (Machine.opening s w m opened).2) = [opened] :=
    congrArg (opened :: ·) (plainly_opening s w m opened).beginnings
  rw [tells] at begun
  exact List.mem_singleton.1 begun

/-- An act begins a round, for a reason, and tells of that first; or it leaves a
machine in its round, and at rest before the start. -/
theorem Act.begins_cases (act : Act s w input m es m') :
    (∃ rest, Cause s input m m'.round
        ∧ es = .emit (.roundStarted s.scope.height m'.round) :: rest
        ∧ beginningsOf rest = [] ∧ m'.step = .propose)
      ∨ beginningsOf es = [] ∧ m'.round = m.round
        ∧ (m'.step ≠ .idle → m.step ≠ .idle) := by
  -- what begins a round leaves the machine in the proposing step
  by_cases here : m'.step = .propose
  · rcases act.of_propose here with ⟨before, same⟩ | ⟨r, log, cause, -, after, asks⟩
    · refine Or.inr ⟨?_, same, fun _ idle => by cases idle.symm.trans before⟩
      cases act.concludes with
      | goesOn _ _ _ plainly => exact plainly.beginnings
      | begins cause => exact (cause.not_staying before same).elim
      | decides _ _ _ _ _ _ _ _ _ _ beginnings => exact beginnings
      | completes _ _ _ _ _ _ _ beginnings => exact beginnings
    · obtain ⟨_, opened, -⟩ := Machine.opening_relogs s w
        { m with log := log, round := r, step := .propose } r
      have same : m'.round = r := by rw [after, opened]
      subst same
      exact Or.inl ⟨_, cause, asks, (plainly_opening s w _ _).beginnings, here⟩
  · have stays : m'.step ≠ .idle → m.step ≠ .idle := by
      intro started idle
      cases act.moves with
      | silent _ _ _ _ _ resting => exact started (resting idle)
      | votes _ _ _ _ _ _ _ _ _ before => exact before idle
      | begins _ _ _ _ _ step => exact here step
    refine Or.inr ?_
    cases act.concludes with
    | goesOn _ round _ plainly => exact ⟨plainly.beginnings, round, stays⟩
    | begins _ _ step => exact absurd step here
    | decides _ _ _ _ _ _ _ _ round _ beginnings => exact ⟨beginnings, round, stays⟩
    | completes _ _ _ _ round _ _ beginnings => exact ⟨beginnings, round, stays⟩

/-- No act begins a round without a cause. -/
theorem Act.cause_of_beginning (act : Act s w input m es m')
    (begun : round ∈ beginningsOf es) : Cause s input m round := by
  rcases act.begins_cases with ⟨rest, cause, asks, quiet, -⟩ | ⟨quiet, -⟩
  · have tells : beginningsOf es = m'.round :: beginningsOf rest := by
      rw [asks]
      rfl
    rw [tells, quiet, List.mem_singleton] at begun
    exact begun ▸ cause
  · exact absurd begun (not_begun quiet)

/-- A round that acts begin has its cause at some moment between them. -/
theorem Acts.cause_of_beginning (acts : Acts s w input m es m')
    (begun : round ∈ beginningsOf es) :
    ∃ before here, Acts s w input m before here ∧ Cause s input here round := by
  induction acts with
  | rest => cases begun
  | act first _ ih =>
    rw [beginningsOf_append] at begun
    rcases List.mem_append.1 begun with now | later
    · exact ⟨[], _, .rest _, first.cause_of_beginning now⟩
    · obtain ⟨before, here, reached, cause⟩ := ih later
      exact ⟨_, here, .act first reached, cause⟩

/-- A timer takes a machine out of the timer's own round, if anywhere. -/
theorem Acts.round_of_timer {timer : Timer}
    (acts : Acts s w (.timer timer) m es m') :
    m'.round = m.round ∨ m.round = timer.round ∧ m'.round ≠ timer.round := by
  refine acts.keeps_machine
    (P := fun m' => m'.round = m.round
      ∨ m.round = timer.round ∧ m'.round ≠ timer.round)
    (fun {here next _} act held => ?_) (Or.inl rfl)
  rcases act.concludes.round_cases with same | cause
  · rw [same]
    exact held
  · cases cause with
    | start told => cases told
    | follow _ given => cases given
    | next kind fired _ _ _ after =>
      have own : timer.round = here.round := by
        rw [Input.timer.inj fired]
      -- the next round is another one even where the addition wraps
      have left_ : here.round + 1 ≠ here.round := by grind
      rcases held with same | ⟨-, away⟩
      · refine Or.inr ⟨?_, ?_⟩
        · rw [own, same]
        · rw [after, own]
          exact left_
      · exact absurd own.symm away

-- ============================================================ where rounds begin

/-- What makes a machine begin a round, by what it holds before the input. -/
inductive Machine.Begins (s : Setup) (m : Machine) : Input → Round → Prop
  | start : Begins s m .start 0
  /-- Its own round ends. -/
  | ended (kind : TimerKind) (ends : kind = .precommit ∨ kind = .endCommitWait)
      (undecided : m.decision = none) :
      Begins s m (.timer ⟨s.scope.height, m.round, kind⟩) (m.round + 1)
  /-- With this vote more than a third is ahead. -/
  | ahead (vote : Vote) (sound : Machine.voteRefusal? s vote = none)
      (later : m.round < vote.body.round)
      (third : ((m.log.addVote s.scope vote).1.getOrFresh
        vote.body.round).prevotes.someThird s.scope = true) :
      Begins s m (.message (.vote vote)) vote.body.round

namespace Work

variable {k : Work}

/-- The rules of a round begin none. -/
theorem Reaches.quiet {k' : Work} (reaches : Reaches s w (elsewhere s) k k') :
    beginningsOf k'.effects = beginningsOf k.effects := by
  obtain ⟨es, asked, acts⟩ := reaches
  have none_ : beginningsOf es = [] := by
    refine List.eq_nil_iff_forall_not_mem.2 fun round begun => ?_
    obtain ⟨_, _, _, cause⟩ := acts.cause_of_beginning begun
    exact Cause.not_elsewhere cause
  rw [asked, beginningsOf_append, none_, List.append_nil]

/-- To start a round begins that one, if any. -/
theorem startRound_begins {started : Round} (quiet : beginningsOf k.effects = [])
    (begun : round ∈ beginningsOf (k.startRound s w started).1.effects) :
    round = started := by
  rcases startRound_cases s w k started with ⟨fault, same⟩ | ⟨log, -, same⟩
  · rw [same] at begun
    exact absurd begun (not_begun quiet)
  · rw [same] at begun
    dsimp only [done] at begun
    rw [beginningsOf_append] at begun
    rcases List.mem_append.1 begun with before | now
    · exact absurd before (not_begun quiet)
    · exact eq_of_opened now

/-- To look at a round begins it, if more than a third of the power is ahead in
it. -/
theorem advance_begins {looked : Round} (quiet : beginningsOf k.effects = [])
    (begun : round ∈ beginningsOf (k.advance s w looked).1.effects) :
    round = looked ∧ k.machine.round < looked
      ∧ k.machine.prevotesSomeThird s looked = true := by
  cases advance_advanced s w (elsewhere s) k looked with
  | off _ same =>
    rw [same] at begun
    exact absurd begun (not_begun quiet)
  | decides reaches _ same =>
    rw [same] at begun
    exact absurd begun (not_begun (reaches.quiet.trans quiet))
  | follows k' reaches rests _ _ same =>
    rw [same] at begun
    have quiet := reaches.quiet.trans quiet
    -- the rule that decides nothing changes no more than the verdicts
    obtain ⟨verdicts, judged⟩ := decideRule_judges s w k (congrArg Prod.snd rests)
    rw [rests] at judged
    have judged : k'.machine = { k.machine with verdicts := verdicts } := judged
    unfold followRule at begun
    rw [judged] at begun
    split at begun
    case isFalse => exact absurd begun (not_begun quiet)
    case isTrue ahead => exact ⟨startRound_begins quiet begun, ahead⟩

/-- A vote begins a round where it was counted and more than a third is ahead. -/
theorem vote_begins {vote : Vote} (quiet : beginningsOf k.effects = [])
    (begun : round ∈ beginningsOf ((k.addVote s w vote).andThen fun k =>
      k.advance s w vote.body.round).1.effects) :
    k.machine.Begins s (.message (.vote vote)) round := by
  unfold addVote at begun
  split at begun
  case h_1 => exact absurd begun (not_begun quiet)
  case h_2 sound =>
    dsimp only at begun
    split at begun
    case h_1 fault _ => cases fault <;> exact absurd begun (not_begun quiet)
    case h_2 =>
      obtain ⟨here, later, third⟩ := advance_begins
        (k := k.update fun m =>
          { m with log := (k.machine.log.addVote s.scope vote).1 }) quiet begun
      subst here
      rw [Machine.prevotesSomeThird_eq_record] at third
      exact .ahead vote sound later third

/-- A proposal is of the current round, so nobody is followed at it. -/
theorem proposal_quiet {p : Proposal} (quiet : beginningsOf k.effects = []) :
    round ∉ beginningsOf ((k.addProposal s p).andThen fun k =>
      k.advance s w p.body.round).1.effects := by
  intro begun
  unfold addProposal at begun
  split at begun
  case h_1 => exact absurd begun (not_begun quiet)
  case h_2 sound =>
    obtain ⟨-, later, -⟩ := advance_begins
      (k := k.updateRound p.body.round fun l => { l with proposal := some p })
      quiet begun
    rw [round_of_proposalRefusal? sound] at later
    exact absurd later (UInt32.lt_irrefl _)

/-- Gossip is answered, and begins nothing. -/
theorem takeClaim_quiet {claim : Claim} (quiet : beginningsOf k.effects = []) :
    round ∉ beginningsOf (k.takeClaim s w claim).1.effects := by
  intro begun
  unfold takeClaim at begun
  dsimp only at begun
  split at begun
  case h_1 => exact absurd begun (not_begun quiet)
  case h_2 => exact absurd begun (not_begun quiet)
  case h_3 =>
    refine absurd begun (not_begun (Eq.trans ?_ quiet))
    exact filterMap_append_of_nil rfl

theorem takeHoldings_quiet {holdings : Holdings}
    (quiet : beginningsOf k.effects = []) :
    round ∉ beginningsOf (k.takeHoldings s holdings).1.effects := by
  intro begun
  unfold takeHoldings at begun
  split at begun
  case h_1 => exact absurd begun (not_begun quiet)
  case h_2 votes missed =>
    rw [foldl_forward] at begun
    refine absurd begun (not_begun (Eq.trans ?_ quiet))
    exact filterMap_append_of_nil (filterMap_forward (fun _ => rfl) votes)

/-- Of all messages only a vote begins a round. -/
theorem takeMessage_begins {message : Message}
    (quiet : beginningsOf k.effects = [])
    (begun : round ∈ beginningsOf (k.takeMessage s w message).1.effects) :
    k.machine.Begins s (.message message) round := by
  unfold takeMessage at begun
  split at begun
  case isTrue => exact absurd begun (not_begun quiet)
  case isFalse =>
    cases message with
    | vote vote => exact vote_begins quiet begun
    | proposal p => exact absurd begun (proposal_quiet quiet)
    | claim claim => exact absurd begun (takeClaim_quiet quiet)
    | holdings holdings => exact absurd begun (takeHoldings_quiet quiet)

end Work

/-- A round begins at a start, at a timer that ends the one before, or at a vote
by which more than a third is ahead. -/
theorem Machine.begins_of_handle
    (begun : round ∈ beginningsOf (m.handle s w input).effects) :
    m.Begins s input round := by
  have quiet : beginningsOf (Work.ofMachine m).effects = [] := rfl
  have applied : round
      ∈ beginningsOf ((Work.ofMachine m).apply s w input).1.effects := by
    rw [← (Work.run_settles s w (Work.ofMachine m) input).quiet]
    exact begun
  have reaches : Work.Reaches s w input (Work.ofMachine m)
      ((Work.ofMachine m).apply s w input).1 := Work.apply_reaches _
  obtain ⟨es, asked, acts⟩ := reaches
  have asked : ((Work.ofMachine m).apply s w input).1.effects = es := asked
  -- a start and a timer leave one cause each; a vote is counted before it begins a
  -- round, so the handling of a message is gone through part by part
  cases input with
  | start =>
    rw [asked] at applied
    obtain ⟨_, _, _, cause⟩ := acts.cause_of_beginning applied
    cases cause with
    | start _ _ first => exact first ▸ .start
    | follow _ given => cases given
    | next _ fired => cases fired
  | timer timer =>
    rw [asked] at applied
    obtain ⟨_, here, before, cause⟩ := acts.cause_of_beginning applied
    cases cause with
    | start told => cases told
    | follow _ given => cases given
    | next kind fired ends _ undecided after =>
      have own := Input.timer.inj fired
      have same : here.round = m.round := by
        rcases before.round_of_timer with same | ⟨-, away⟩
        · exact same
        · exact absurd (congrArg Timer.round own).symm away
      rw [own, after, same]
      exact .ended kind ends (before.undecided undecided)
  | message message =>
    exact Work.takeMessage_begins (k := Work.ofMachine m) quiet applied

-- =========================================================== why it moves

/-- The votes by which a machine moves to a round at an input: all that it holds
of their kind and round at the moment the round begins. -/
inductive Machine.MovedBy (s : Setup) (m : Machine) (round : Round) :
    Input → Tally → Prop
  /-- More than two thirds of the power precommitted in its own round, the one
  before. -/
  | ended (timer : Timer) (next : m.round.toNat + 1 = round.toNat)
      (many : 2 * s.scope.validators.total.toNat
        < 3 * (m.log.getOrFresh m.round).precommits.power.toNat) :
      MovedBy s m round (.timer timer) (m.log.getOrFresh m.round).precommits
  /-- More than a third of the power prevoted in the round, this vote being
  counted. -/
  | ahead (vote : Vote) (of_round : vote.body.round = round)
      (later : m.round < round)
      (third : s.scope.validators.total.toNat
        < 3 * ((m.log.addVote s.scope vote).1.getOrFresh
          round).prevotes.power.toNat) :
      MovedBy s m round (.message (.vote vote))
        ((m.log.addVote s.scope vote).1.getOrFresh round).prevotes

/-- In whatever way a round begins at a timer of the machine's own, or at another
input, there are the votes for it. -/
theorem Machine.Begins.movedBy {admits : Life → Input → Prop} {l : Life}
    (h : Reachable s admits l) (own : ownTimers l input) (later : round ≠ 0)
    (begins : l.machine.Begins s input round) :
    ∃ t kind r, l.machine.MovedBy s round input t
      ∧ t.Sound s.scope (Heard (l.given ++ [input])) r kind
      ∧ s.scope.validators.total.toNat < 3 * t.power.toNat := by
  have sound := log_sound_append h.log_sound [input]
  cases begins with
  | start => exact absurd rfl later
  | ended kind ends undecided =>
    have warrant := h.warranted (own _ rfl)
    have many : l.machine.precommitsSomeTwoThirds s l.machine.round = true := by
      rcases ends with rfl | rfl
      · exact warrant.precommitTwoThirds
      · -- a decision armed this one, and it would still be there
        exact absurd undecided warrant.decided
    rw [precommitsSomeTwoThirds_eq_record] at many
    have many := (ValidatorSet.exceedsTwoThirds_iff _ _).1 many
    exact ⟨_, .precommit, _, .ended _ (toNat_next rfl later) many,
      (sound.getOrFresh _).tally .precommit _ rfl, by omega⟩
  | ahead vote verified ahead third =>
    have third := (ValidatorSet.exceedsOneThird_iff _ _).1 third
    have heard : Heard (l.given ++ [.message (.vote vote)]) vote :=
      ⟨List.mem_append_right _ (List.mem_singleton_self _),
        verify_of_voteRefusal? verified⟩
    have keeps : l.machine.log.Keeps s.scope (· = vote) (fun _ => False)
        (l.machine.log.addVote s.scope vote).1 :=
      HeightLog.keeps_addVote l.machine.log rfl
    have counted := keeps.sound _ _ (fun _ same => same ▸ heard)
      (fun _ => False.elim) sound
    exact ⟨_, .prevote, _, .ahead vote rfl ahead third,
      (counted.getOrFresh _).tally .prevote _ rfl, third⟩

/-- A change of the round is justified. Take any turns in which the timers that
fire are the machine's own, at any time and any number of times: where a round
but the first begins in the last of them, the machine holds at that moment
precommits of more than two thirds of the power of its own round, which is the one
before, or prevotes of more than a third of the power of the new round. And
whoever has no more than a third of the power, some of these votes were sent and
signed by somebody else. -/
theorem round_change_justified {turns : List (World × Input)}
    (admitted : Life.Admits s ownTimers (Life.initial s) (turns ++ [(w, input)]))
    {height : Height} (later : round ≠ 0)
    (begun : .emit (.roundStarted height round)
      ∈ ((Life.after s turns).machine.handle s w input).effects) :
    ∃ t, (Life.after s turns).machine.MovedBy s round input t
      ∧ ∀ few : Address → Bool,
        3 * s.scope.validators.weight few ≤ s.scope.validators.total.toNat →
        ∃ vote ∈ t.votes, few vote.body.validator = false
          ∧ Heard ((turns ++ [(w, input)]).map (·.2)) vote := by
  obtain ⟨before, last⟩ := Life.admits_append.1 admitted
  have start : Reachable s ownTimers (Life.after s turns) := before.leads
  have own : ownTimers (Life.after s turns) input := last.1
  obtain ⟨t, kind, r, moved, sound, third⟩ :=
    (Machine.begins_of_handle (mem_beginningsOf begun)).movedBy start own later
  refine ⟨t, moved, fun few most => ?_⟩
  obtain ⟨vote, cast, outside⟩ := sound.exists_outside_third third most
  refine ⟨vote, cast, outside, ?_⟩
  rw [List.map_append, ← Life.given_after s turns]
  exact sound.heard_of_mem vote cast

end

open scoped Plain

namespace Plain

/-- The first of four validators starts, and the others precommit nothing. -/
def fruitlessTurns : List (World × Input) :=
  (world, .start) :: [2, 3, 4].map fun byte => vote byte 0 .nil .precommit

end Plain

open Plain in
/-- A round without a block ends with its timer, on the precommits of others. -/
theorem round_change_justified_of_fruitless :
    Life.Admits (setup (address 1)) ownTimers (Life.initial (setup (address 1)))
        (fruitlessTurns ++ [timer 0 .precommit])
      ∧ .emit (.roundStarted 1 1)
        ∈ ((Life.after (setup (address 1)) fruitlessTurns).machine.handle
          (setup (address 1)) world (.timer ⟨1, 0, .precommit⟩)).effects
      ∧ ∃ t, (Life.after (setup (address 1)) fruitlessTurns).machine.MovedBy
          (setup (address 1)) 1 (.timer ⟨1, 0, .precommit⟩) t
        ∧ ∃ vote ∈ t.votes, vote.body.validator ≠ address 2 := by
  have admitted : Life.Admits (setup (address 1)) ownTimers
      (Life.initial (setup (address 1)))
      (fruitlessTurns ++ [timer 0 .precommit]) := by
    decide +kernel
  have begun : .emit (.roundStarted 1 1)
      ∈ ((Life.after (setup (address 1)) fruitlessTurns).machine.handle
        (setup (address 1)) world (.timer ⟨1, 0, .precommit⟩)).effects := by
    decide +kernel
  obtain ⟨t, moved, others⟩ := round_change_justified admitted (by decide) begun
  obtain ⟨vote, cast, other, -⟩ := others (· == address 2) (by decide +kernel)
  exact ⟨admitted, begun, t, moved, vote, cast, by simpa using other⟩

end Quorum
