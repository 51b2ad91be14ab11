/-
What a vote does that comes again.

A vote that was counted stands, so it is known when it comes again, and nothing
changes. A vote that was refused against another one is kept nowhere but in the
evidence, and nobody looks for it there. The other one still stands when it comes
again, so it is refused again and is evidence again: a machine has as many
records of the two as the refused one was handled times, however often that is.
-/
import Quorum.Proofs.Machine.Convicting

namespace Quorum

-- ================================================ statement vocabulary

/-- Whether a record is of these two votes. -/
def Evidence.isOf (first second : Vote) (e : Evidence) : Bool :=
  e.first == first && e.second == second

/-- Whether this vote is what is handled. -/
def Deed.delivers (vote : Vote) : Deed → Bool
  | .handle _ (.message (.vote other)) => other == vote
  | _ => false

/-- How a vote that was handled at one moment fares at a later one, after these
deeds. -/
structure Redelivery [Crypto] (s : Setup) (w w' : World) (vote : Vote)
    (between : List Deed) (d d' : Docket) : Prop where
  /-- One that was not refused is known, and changes nothing. -/
  accepted :
    (∀ fault, (d.machine.handle s w (.message (.vote vote))).result
      = .error fault → fault.isRejection = false) →
    d'.machine.handle s w' (.message (.vote vote)) = ⟨d'.machine, [],
      .error (.vote (.recorded vote.body.kind vote.body.validator))⟩
  /-- One that was refused against another is so again, with one more record of
  the two; there was one each time that it came. -/
  refused : ∀ first second,
    (d.machine.handle s w (.message (.vote vote))).result
      = .error (.conflict first second) →
    second = vote
      ∧ d'.machine.handle s w' (.message (.vote vote))
        = ⟨{ d'.machine with
            evidence := d'.machine.evidence ++ [⟨first, vote, w'.now⟩] },
          [], .error (.conflict first vote)⟩
      ∧ d'.recorded.countP (Evidence.isOf first vote)
        = d.recorded.countP (Evidence.isOf first vote) + 1
          + between.countP (Deed.delivers vote)

section

variable [Crypto] {s : Setup} {w : World} {m : Machine} {vote first : Vote}
  {fault : Fault} {d : Docket}

-- =========================================================== first times

/-- A vote that was not refused was counted, and stands. -/
theorem Machine.stands_of_accepted {heard : Vote → Prop}
    {offered : Proposal → Prop} (logged : m.log.Sound s.scope heard offered)
    (accepted : ∀ fault,
      (m.handle s w (.message (.vote vote))).result = .error fault →
      fault.isRejection = false) :
    voteRefusal? s vote = none ∧ Vote.Countable s.scope vote
      ∧ (m.handle s w (.message (.vote vote))).machine.log.standing? vote
        = some vote := by
  have passes : voteRefusal? s vote = none := by
    cases barred : voteRefusal? s vote with
    | none => rfl
    | some fault =>
      obtain ⟨fault, turned, rejects, -⟩ :=
        handle_vote_barred (m := m) (w := w) barred
      cases rejects.symm.trans (accepted fault (by rw [turned]))
  have counted : (m.log.addVote s.scope vote).2 = .ok () := by
    cases refused : (m.log.addVote s.scope vote).2 with
    | ok _ => rfl
    | error fault =>
      have rejects := (refusal_of_addVote refused).rejects
      have result := congrArg Outcome.result
        (handle_vote_refused (w := w) passes refused)
      cases rejects.symm.trans (accepted fault result)
  have countable := HeightLog.countable_of_addVote counted
  refine ⟨passes, countable, ?_⟩
  cases hearing logged countable passes w with
  | counted stands => exact stands
  | closed _ spent => cases accepted _ spent
  | known other stands fault named same =>
    have refused := HeightLog.addVote_of_standing logged countable stands
    rw [refused] at counted
    cases counted

/-- A vote that was refused as the second of two is, and the first one stood. -/
theorem Machine.stands_of_conflict {second : Vote}
    (refused : (m.handle s w (.message (.vote vote))).result
      = .error (.conflict first second)) :
    second = vote ∧ voteRefusal? s vote = none ∧ Vote.Countable s.scope vote
      ∧ m.log.standing? vote = some first
      ∧ first.body.hash ≠ vote.body.hash := by
  have passes : voteRefusal? s vote = none := by
    cases barred : voteRefusal? s vote with
    | none => rfl
    | some fault =>
      obtain ⟨fault, turned, -, plain⟩ := handle_vote_barred (m := m) (w := w) barred
      rw [turned] at refused
      cases Except.error.inj refused
      cases plain
  cases counted : (m.log.addVote s.scope vote).2 with
  | ok _ => cases fails_of_counted passes counted refused
  | error fault =>
    have result := congrArg Outcome.result
      (handle_vote_refused (w := w) passes counted)
    cases Except.error.inj (result.symm.trans refused)
    obtain ⟨same, countable, stands, differs⟩ := HeightLog.addVote_conflict counted
    exact ⟨same, passes, countable, stands, differs⟩

-- =========================================================== later times

namespace Docket

/-- What a vote meets that stands against it, it meets at any later time. -/
theorem Sound.handle_again (sound : d.Sound s)
    (countable : Vote.Countable s.scope vote)
    (passes : Machine.voteRefusal? s vote = none)
    (stands : d.machine.log.standing? vote = some first) (between : List Deed)
    (w' : World) (named : fault = if first.body.hash = vote.body.hash then
      .vote (.recorded vote.body.kind vote.body.validator)
      else .conflict first vote) :
    (d.run s between).machine.handle s w' (.message (.vote vote))
      = ⟨{ (d.run s between).machine with
          evidence := (d.run s between).machine.evidence
            ++ Machine.convictions w' (.error fault) },
        [], .error fault⟩ :=
  Machine.handle_known (sound.run between).log countable passes
    ((grows_run s d between).1.voteOf? stands) w' named

/-- A deed adds a record of the two votes if it delivers the second, and only
then. -/
theorem Sound.countP_next (sound : d.Sound s)
    (countable : Vote.Countable s.scope vote)
    (passes : Machine.voteRefusal? s vote = none)
    (stands : d.machine.log.standing? vote = some first)
    (differs : first.body.hash ≠ vote.body.hash) (deed : Deed) :
    (d.next s deed).recorded.countP (Evidence.isOf first vote)
      = d.recorded.countP (Evidence.isOf first vote)
        + if deed.delivers vote then 1 else 0 := by
  rw [recorded_next, List.countP_append]
  congr 1
  cases deed with
  | takeEvidence => rfl
  | handle w input =>
    by_cases delivered : input = .message (.vote vote)
    · subst delivered
      have refused := HeightLog.addVote_of_standing sound.log countable stands
      rw [if_neg differs] at refused
      have new : d.machine.convicted s w (.message (.vote vote))
          = [⟨first, vote, w.now⟩] := by
        unfold Machine.convicted
        dsimp only
        rw [passes, refused]
        rfl
      dsimp only
      rw [new]
      simp [Evidence.isOf, Deed.delivers]
    · have other : (Deed.handle w input).delivers vote = false := by
        unfold Deed.delivers
        split
        case h_1 came same =>
          cases same
          exact beq_eq_false_iff_ne.2 fun same => delivered (by rw [same])
        case h_2 => rfl
      rw [other]
      refine List.countP_eq_zero.2 fun e new => ?_
      obtain ⟨came, _, given, -, -, -, -, rfl⟩ := Machine.mem_convicted new
      have apart : came ≠ vote := fun same => delivered (same ▸ given)
      simp [Evidence.isOf, apart]

theorem Sound.countP_run (sound : d.Sound s)
    (countable : Vote.Countable s.scope vote)
    (passes : Machine.voteRefusal? s vote = none)
    (stands : d.machine.log.standing? vote = some first)
    (differs : first.body.hash ≠ vote.body.hash) (deeds : List Deed) :
    (d.run s deeds).recorded.countP (Evidence.isOf first vote)
      = d.recorded.countP (Evidence.isOf first vote)
        + deeds.countP (Deed.delivers vote) := by
  induction deeds generalizing d with
  | nil => rfl
  | cons deed deeds ih =>
    have once := sound.countP_next countable passes stands differs deed
    have rest := ih (sound.next deed) ((grows_next s d deed).1.voteOf? stands)
    show ((d.next s deed).run s deeds).recorded.countP _ = _
    rw [rest, once, List.countP_cons]
    omega

end Docket

-- ============================================================== all times

/-- A vote that was not refused is refused whenever it comes again, and changes
nothing. One that was refused against a vote that stands is refused whenever it
comes again, and makes one record of the two each time. What comes in between
does not matter, nor when evidence is taken away. -/
theorem redelivery_repeats_evidence (s : Setup) (before between : List Deed)
    (w w' : World) (vote : Vote) :
    Redelivery s w w' vote between (Docket.after s before)
      (Docket.after s (before ++ .vote w vote :: between)) := by
  have sound := Docket.sound_after s before
  have whole : Docket.after s (before ++ .vote w vote :: between)
      = (Docket.after s before).run s (.vote w vote :: between) :=
    Docket.run_append s _ before _
  rw [whole]
  constructor
  case accepted =>
    intro accepted
    obtain ⟨passes, countable, stands⟩ :=
      Machine.stands_of_accepted sound.log accepted
    -- it stands itself from the moment it was handled
    have again := (sound.next (.vote w vote)).handle_again countable passes stands
      between w' (if_pos rfl).symm
    have nothing : Machine.convictions w'
        (.error (.vote (.recorded vote.body.kind vote.body.validator))) = [] := rfl
    rw [nothing, List.append_nil] at again
    exact again
  case refused =>
    intro first second refused
    obtain ⟨same, passes, countable, stands, differs⟩ :=
      Machine.stands_of_conflict refused
    -- the other one stood before, so this delivery is one of many
    have again := sound.handle_again countable passes stands
      (.vote w vote :: between) w' (if_neg differs).symm
    have many := sound.countP_run countable passes stands differs
      (.vote w vote :: between)
    have delivers : (Deed.vote w vote).delivers vote = true := beq_self_eq_true vote
    rw [List.countP_cons, if_pos delivers] at many
    refine ⟨same, again, ?_⟩
    rw [many]
    omega

end

open scoped Plain

namespace Plain

/-- The second of four validators has prevoted for nothing. -/
def votedDeeds : List Deed :=
  [.handle world .start, .vote world (cast 2 0 .nil .prevote)]

end Plain

open Plain in
/-- Its vote for a block is refused, and comes again. -/
theorem redelivery_repeats_evidence_of_refused :
    ((Docket.after (setup (address 1)) votedDeeds).machine.handle
        (setup (address 1)) world
        (.message (.vote (cast 2 0 (block 0).hash .prevote)))).result
      = .error (.conflict (cast 2 0 .nil .prevote)
        (cast 2 0 (block 0).hash .prevote))
    ∧ (Docket.after (setup (address 1)) (votedDeeds
        ++ .vote world (cast 2 0 (block 0).hash .prevote)
          :: [.vote world (cast 2 0 (block 0).hash .prevote)])).recorded.countP
        (Evidence.isOf (cast 2 0 .nil .prevote) (cast 2 0 (block 0).hash .prevote))
      = 2 := by
  have refused : ((Docket.after (setup (address 1)) votedDeeds).machine.handle
      (setup (address 1)) world
      (.message (.vote (cast 2 0 (block 0).hash .prevote)))).result
        = .error (.conflict (cast 2 0 .nil .prevote)
          (cast 2 0 (block 0).hash .prevote)) := by
    decide +kernel
  obtain ⟨-, -, many⟩ := (redelivery_repeats_evidence (setup (address 1)) votedDeeds
    [.vote world (cast 2 0 (block 0).hash .prevote)] world world _).refused _ _
      refused
  exact ⟨refused, many.trans (by decide +kernel)⟩

open Plain in
/-- Nothing is taken away, and the machine holds two records of the same two
votes. -/
theorem evidence_recorded_twice :
    (Docket.after (setup (address 1)) (votedDeeds
        ++ [.vote world (cast 2 0 (block 0).hash .prevote),
          .vote world (cast 2 0 (block 0).hash .prevote)])).machine.evidence.map
        (fun e => (e.first, e.second))
      = [(cast 2 0 .nil .prevote, cast 2 0 (block 0).hash .prevote),
        (cast 2 0 .nil .prevote, cast 2 0 (block 0).hash .prevote)] := by
  decide +kernel

end Quorum
