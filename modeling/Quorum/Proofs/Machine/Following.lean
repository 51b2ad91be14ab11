/-
More than a third that is ahead is followed, unless it was ahead at the start.

The rule that follows others looks at one round only, that of the message just
taken in. Nothing is missed by that while a machine runs. Votes come with
messages, and when one was counted its round is looked at
(`Work.advance_not_behind`); nothing else that is done to a machine writes into
a round ahead of it (`Act.marked_ahead`), and no round that was reached is ahead
again.

It is different before the start. Votes are counted already, but nobody is
followed yet, and the start itself looks at round 0, which is ahead of nothing.
So a machine can be behind from its start on, until a vote of that round is
counted or it gets there by itself.
-/
import Quorum.Proofs.Machine.Settled

namespace Quorum

-- ================================================ statement vocabulary

/-- A machine that runs and has not decided, while more than a third of the
power prevotes in a round ahead of it. -/
structure Machine.Behind (s : Setup) (m : Machine) (round : Round) : Prop where
  started : m.step ≠ .idle
  undecided : m.decision = none
  later : m.round < round
  ahead : m.prevotesSomeThird s round = true

instance (s : Setup) (m : Machine) (round : Round) :
    Decidable (m.Behind s round) :=
  decidable_of_iff (m.step ≠ .idle ∧ m.decision = none ∧ m.round < round
      ∧ m.prevotesSomeThird s round = true)
    ⟨fun h => ⟨h.1, h.2.1, h.2.2.1, h.2.2.2⟩,
      fun h => ⟨h.started, h.undecided, h.later, h.ahead⟩⟩

-- ============================================================ the record

section

variable {s : Setup} {w : World} {input : Input} {m m' : Machine}
  {es : List Effect} {round : Round}

/-- Marks and claims do not tell who is ahead. -/
theorem Machine.prevotesSomeThird_of_marked
    (marked : (m.log.getOrFresh round).Marked (m'.log.getOrFresh round)) :
    m'.prevotesSomeThird s round = m.prevotesSomeThird s round := by
  rw [prevotesSomeThird_eq_record, prevotesSomeThird_eq_record]
  unfold Tally.someThird
  rw [marked.prevotes.power]

/-- Who is behind was behind before, where marks are all that was changed. -/
theorem Machine.Behind.of_marked (behind : m'.Behind s round)
    (round_eq : m'.round = m.round) (step : m'.step = m.step)
    (decision : m'.decision = m.decision)
    (marked : (m.log.getOrFresh round).Marked (m'.log.getOrFresh round)) :
    m.Behind s round := by
  refine ⟨step ▸ behind.started, decision ▸ behind.undecided,
    round_eq ▸ behind.later, ?_⟩
  rw [← prevotesSomeThird_of_marked marked]
  exact behind.ahead

variable [Crypto]

/-- Only a vote that is counted changes what is known of a round ahead. -/
theorem Act.marked_ahead (act : Act s w input m es m')
    (votes : ∀ vote, input ≠ .message (.vote vote)) (onward : m.Onward)
    (later : m'.round < round) :
    (m.log.getOrFresh round).Marked (m'.log.getOrFresh round) := by
  have later : m.round < round :=
    UInt32.lt_of_le_of_lt (onward.round_le act.moves) later
  have apart : round ≠ m.round := (UInt32.ne_of_lt later).symm
  cases act.rewrites with
  | counts vote given => exact absurd given (votes vote)
  | takesUp proposal given sound same log =>
    rw [log, HeightLog.getOrFresh_put, if_neg]
    · exact .refl _
    · rw [HeightLog.round_getOrFresh, round_of_proposalRefusal? sound]
      exact apart
  | drops proposal majority step held other real differs same log =>
    rw [log, HeightLog.getOrFresh_put, if_neg]
    · exact .refl _
    · show round ≠ (m.log.getOrFresh m.round).round
      rw [HeightLog.round_getOrFresh]
      exact apart
  | marks marked => exact marked round

/-- As long as no vote is counted, a round that is still ahead stays as it is. -/
theorem Acts.marked_ahead (acts : Acts s w input m es m')
    (votes : ∀ vote, input ≠ .message (.vote vote)) (onward : m.Onward)
    (later : m'.round < round) :
    m.round < round
      ∧ (m.log.getOrFresh round).Marked (m'.log.getOrFresh round) := by
  induction acts with
  | rest m => exact ⟨later, .refl _⟩
  | act first _ ih =>
    obtain ⟨later, rest⟩ := ih (first.onward onward) later
    exact ⟨UInt32.lt_of_le_of_lt (onward.round_le first.moves) later,
      (first.marked_ahead votes onward later).trans rest⟩

/-- Without a start and a vote, whoever is behind was behind. -/
theorem Acts.behind (acts : Acts s w input m es m')
    (told : input ≠ .start) (votes : ∀ vote, input ≠ .message (.vote vote))
    (onward : m.Onward) (behind : m'.Behind s round) :
    m.Behind s round
      ∧ (m.log.getOrFresh round).Marked (m'.log.getOrFresh round) := by
  obtain ⟨later, marked⟩ := acts.marked_ahead votes onward behind.later
  have started := acts.keeps_machine
    (P := fun m' => m'.step ≠ .idle → m.step ≠ .idle)
    (fun act before started => before (act.started told started)) id
  refine ⟨⟨started behind.started, acts.undecided behind.undecided, later, ?_⟩,
    marked⟩
  rw [← Machine.prevotesSomeThird_of_marked marked]
  exact behind.ahead

namespace Work

variable {k k' : Work}

theorem Reaches.behind (reaches : Reaches s w input k k')
    (told : input ≠ .start) (votes : ∀ vote, input ≠ .message (.vote vote))
    (onward : k.machine.Onward) (behind : k'.machine.Behind s round) :
    k.machine.Behind s round
      ∧ (k.machine.log.getOrFresh round).Marked
        (k'.machine.log.getOrFresh round) := by
  obtain ⟨es, -, acts⟩ := reaches
  exact acts.behind told votes onward behind

-- ============================================================= following

omit [Crypto] in
/-- A decision rule that reports a decision made one. -/
theorem decision_of_decideRule (decides : (k.decideRule s w).2 = true) :
    (k.decideRule s w).1.machine.decision ≠ none := by
  unfold decideRule at decides ⊢
  split
  case h_1 none_ =>
    rw [none_] at decides
    cases decides
  case h_2 proposal held =>
    rw [held] at decides
    dsimp only at decides ⊢
    split
    case isFalse other =>
      rw [if_neg other] at decides
      cases decides
    case isTrue majority =>
      rw [if_pos majority] at decides
      split
      case isFalse invalid =>
        rw [if_neg invalid] at decides
        cases decides
      case isTrue =>
        rw [decideOn_decision]
        exact nofun

/-- Nobody is behind the round that was looked at. -/
theorem advance_not_behind (onward : k.machine.Onward) :
    ¬(k.advance s w round).1.machine.Behind s round := by
  intro behind
  cases advance_advanced s w .start k round with
  | off free same =>
    rw [same] at behind
    exact free.elim behind.started (· behind.undecided)
  | decides _ decided same =>
    rw [same] at behind
    exact decision_of_decideRule decided behind.undecided
  | follows k' reaches _ _ _ same =>
    rw [same] at behind
    unfold followRule at behind
    split at behind
    case isFalse still => exact still ⟨behind.later, behind.ahead⟩
    -- it was followed there, and is in that round now
    case isTrue ahead =>
      obtain ⟨-, log, there⟩ := startRound_onward (reaches.onward onward)
        (UInt32.le_of_lt ahead.1) (s := s) (w := w)
      have later := behind.later
      rw [there] at later
      exact absurd later (UInt32.lt_irrefl round)

/-- To look at one round leaves a machine behind no other that it was not
behind. -/
theorem advance_behind {looked : Round} (onward : k.machine.Onward)
    (behind : (k.advance s w looked).1.machine.Behind s round) :
    round ≠ looked ∧ k.machine.Behind s round
      ∧ (k.machine.log.getOrFresh round).Marked
        ((k.advance s w looked).1.machine.log.getOrFresh round) := by
  constructor
  · rintro rfl
    exact advance_not_behind onward behind
  · have reaches : Reaches s w (.message (lookAt s looked)) k
        (k.advance s w looked).1 := advance_reaches rfl
    exact reaches.behind nofun nofun onward behind

-- =========================================================== whole inputs

/-- A vote is counted in its own round and nowhere else. -/
theorem addVote_elsewhere (k : Work) (vote : Vote) :
    (k.addVote s w vote).1.machine.round = k.machine.round
      ∧ (k.addVote s w vote).1.machine.step = k.machine.step
      ∧ (k.addVote s w vote).1.machine.decision = k.machine.decision
      ∧ ∀ r, r ≠ vote.body.round →
        (k.addVote s w vote).1.machine.log.getOrFresh r
          = k.machine.log.getOrFresh r := by
  have reads : ∀ r, r ≠ vote.body.round →
      (k.machine.log.addVote s.scope vote).1.getOrFresh r
        = k.machine.log.getOrFresh r := by
    intro r apart
    rcases HeightLog.addVote_cases s.scope k.machine.log vote
      with ⟨-, -, same⟩ | ⟨t, -, -, -, same⟩
    · exact same r
    · rw [same, if_neg apart]
  unfold addVote
  split
  case h_1 => exact ⟨rfl, rfl, rfl, fun _ _ => rfl⟩
  case h_2 =>
    dsimp only
    split
    case h_1 fault _ => cases fault <;> exact ⟨rfl, rfl, rfl, reads⟩
    case h_2 => exact ⟨rfl, rfl, rfl, reads⟩

/-- After a vote only the round of it is looked at, and only there a vote was
counted. -/
theorem takeVote_behind {vote : Vote} (onward : k.machine.Onward)
    (behind : (k.takeMessage s w (.vote vote)).1.machine.Behind s round) :
    k.machine.Behind s round
      ∧ (k.machine.log.getOrFresh round).Marked
        ((k.takeMessage s w (.vote vote)).1.machine.log.getOrFresh round) := by
  unfold takeMessage at behind ⊢
  split
  case isTrue away =>
    rw [if_pos away] at behind
    exact ⟨behind, .refl _⟩
  case isFalse here =>
    rw [if_neg here] at behind
    dsimp only at behind ⊢
    unfold Attempt.andThen at behind ⊢
    -- a vote that is refused changes nothing that is read; one that is counted has its own
    -- round looked at, so this round is another one
    cases counted : (k.addVote s w vote).2 with
    | error fault =>
      rw [counted] at behind
      obtain ⟨at_, step, decision, -, reads⟩ := addVote_failed counted
      have marked : (k.machine.log.getOrFresh round).Marked
          ((k.addVote s w vote).1.machine.log.getOrFresh round) :=
        .of_eq (reads round)
      exact ⟨behind.of_marked at_ step decision marked, marked⟩
    | ok _ =>
      rw [counted] at behind
      have added : Reaches s w (.message (.vote vote)) k (k.addVote s w vote).1 :=
        addVote_reaches rfl
      obtain ⟨apart, before, after⟩ := advance_behind (added.onward onward) behind
      obtain ⟨at_, step, decision, reads⟩ := addVote_elsewhere (s := s) (w := w) k vote
      have marked : (k.machine.log.getOrFresh round).Marked
          ((k.addVote s w vote).1.machine.log.getOrFresh round) :=
        .of_eq (reads round apart)
      exact ⟨before.of_marked at_ step decision marked, marked.trans after⟩

theorem apply_behind {input : Input} (onward : k.machine.Onward)
    (behind : (k.apply s w input).1.machine.Behind s round) :
    (k.machine.Behind s round ∨ input = .start ∧ k.machine.step = .idle)
      ∧ (k.machine.log.getOrFresh round).Marked
        ((k.apply s w input).1.machine.log.getOrFresh round) := by
  have reaches : Reaches s w input k (k.apply s w input).1 := apply_reaches k
  cases input with
  | start =>
    by_cases idle : k.machine.step = .idle
    · obtain ⟨es, -, acts⟩ := reaches
      exact ⟨Or.inr ⟨rfl, idle⟩, (acts.marked_ahead nofun onward behind.later).2⟩
    · have same : (k.apply s w .start).1 = k := by
        show (k.start s w).1 = k
        unfold start
        rw [if_pos idle]
        rfl
      rw [same] at behind ⊢
      exact ⟨Or.inl behind, .refl _⟩
  | message message =>
    cases message with
    | vote vote => exact (takeVote_behind onward behind).imp_left Or.inl
    | _ => exact (reaches.behind nofun nofun onward behind).imp_left Or.inl
  | timer timer => exact (reaches.behind nofun nofun onward behind).imp_left Or.inl

end Work

/-- Whoever is behind a round after an input was behind it before, with all that
is known of it now, or was just started. -/
theorem Machine.behind_of_handle (onward : m.Onward)
    (behind : (m.handle s w input).machine.Behind s round) :
    (m.Behind s round ∨ input = .start ∧ m.step = .idle)
      ∧ (m.log.getOrFresh round).Marked
        ((m.handle s w input).machine.log.getOrFresh round) := by
  have reached : ((Work.ofMachine m).apply s w input).1.machine.Onward :=
    (Work.apply_reaches (Work.ofMachine m)).onward onward
  have settles := Work.run_settles s w (Work.ofMachine m) input
  obtain ⟨before, after⟩ := settles.behind nofun nofun reached behind
  exact (Work.apply_behind (k := Work.ofMachine m) onward before).imp_right
    (·.trans after)

-- ================================================================== turns

/-- A started machine without a decision is behind a round only if more than a
third of the power was ahead in it when the machine was started, and no vote of
that round was counted since. -/
theorem behind_only_from_start (turns : List (World × Input))
    (behind : (Life.after s turns).machine.Behind s round) :
    ∃ before w after, turns = before ++ (w, .start) :: after
      ∧ (Life.after s before).machine.step = .idle
      ∧ (Life.after s before).machine.prevotesSomeThird s round = true
      ∧ ((Life.after s before).machine.log.getOrFresh round).Marked
        ((Life.after s turns).machine.log.getOrFresh round) := by
  induction turns using List.reverseRecOn with
  | nil => exact absurd rfl behind.started
  | append_singleton turns turn ih =>
    obtain ⟨w, input⟩ := turn
    rw [Life.after_snoc] at behind ⊢
    -- it was behind before the last turn, or the last turn is the start
    obtain ⟨earlier | ⟨told, idle⟩, marked⟩ :=
      Machine.behind_of_handle (reachable_after s turns).onward behind
    · obtain ⟨before, w', after, split_, idle, ahead, same⟩ := ih earlier
      refine ⟨before, w', after ++ [(w, input)], ?_, idle, ahead, same.trans marked⟩
      rw [split_, List.append_assoc]
      rfl
    · have told : input = .start := told
      refine ⟨turns, w, [], by rw [told], idle, ?_, marked⟩
      rw [← Machine.prevotesSomeThird_of_marked marked]
      exact behind.ahead

end

open scoped Plain

namespace Plain

/-- Two of four validators prevote in round 1, and then a third one starts. -/
def overtakenTurns : List (World × Input) :=
  [vote 3 1 .nil .prevote, vote 4 1 .nil .prevote, (world, .start)]

end Plain

open Plain in
/-- A machine was just started, and does not follow half of the power into the
next round. -/
theorem behind_after_start :
    (Life.initial (setup (address 2))).Admits (setup (address 2)) ownTimers
        overtakenTurns
      ∧ (Life.after (setup (address 2)) overtakenTurns).machine.Behind
        (setup (address 2)) 1 :=
  ⟨by decide +kernel, by decide +kernel⟩

open Plain in
/-- What it is behind came before the start. -/
theorem behind_only_from_start_of_overtaken :
    (Life.after (setup (address 2)) overtakenTurns).machine.Behind
        (setup (address 2)) 1
      ∧ ∃ before w after, overtakenTurns = before ++ (w, .start) :: after
        ∧ (Life.after (setup (address 2)) before).machine.prevotesSomeThird
          (setup (address 2)) 1 = true := by
  have behind : (Life.after (setup (address 2)) overtakenTurns).machine.Behind
      (setup (address 2)) 1 := by decide +kernel
  obtain ⟨before, w, after, turns, -, ahead, -⟩ :=
    behind_only_from_start overtakenTurns behind
  exact ⟨behind, before, w, after, turns, ahead⟩

end Quorum
