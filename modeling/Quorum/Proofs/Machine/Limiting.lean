/-
Nothing depends on how many passes are allowed.

After one pass the rules rest, and a pass over rules at rest changes none of
them back. What is left to see is that it does not change the memory of
verdicts either, for the lock rule asks for a verdict each time it meets a
majority that it has not acted on. It can only have left such a majority where
the verdict was against the block, and that verdict it has just asked for: as
there is room for one, it is remembered (`Work.lockRule_informed`). So a second
pass changes nothing at all (`Work.pass_pass`).

The first pass does all the work, then, and the second one finds that it is
done. Where only one is allowed, a machine that has just done everything right
fails for want of a second; in all other cases the limit is met by nobody
(`one_pass_settles`).
-/
import Quorum.Proofs.Machine.Evicting
import Quorum.Proofs.Machine.Recalling
import Quorum.Proofs.Machine.Settled

namespace Quorum

-- ================================================================= memory

namespace Machine

variable {s : Setup} {w : World} {m m' : Machine}

/-- The memory of verdicts is in order, and has room for one. -/
def Roomy (m : Machine) : Prop := m.verdicts.Paired

/-- At first the memory is empty, with room for one. -/
theorem roomy_initial (s : Setup) : (initial s).Roomy := VerdictCache.paired_empty _

/-- To judge what there is a verdict on changes nothing. -/
theorem judged_of_known {hash : BlockHash} {block : Block}
    (known : (m.verdicts.get? hash).isSome = true) :
    m.judged s w hash block = m := by
  unfold judged
  rw [VerdictCache.consult_of_known known]

end Machine

section

variable [Crypto] {s : Setup} {w : World} {input : Input} {m m' : Machine}
  {es : List Effect}

/-- Acts that judge consult the memory, and the others leave it. -/
theorem Act.roomy (act : Act s w input m es m') (room : m.Roomy) : m'.Roomy := by
  unfold Machine.Roomy at room ⊢
  rcases act.verdicts_cases with same | ⟨p, held, judged⟩
  · rw [same]
    exact room
  · rw [judged]
    exact room.consult _ _

/-- So the memory is in order throughout an input. -/
theorem Work.Reaches.roomy {k k' : Work} (reaches : Reaches s w input k k')
    (room : k.machine.Roomy) : k'.machine.Roomy := by
  obtain ⟨es, -, acts⟩ := reaches
  exact acts.keeps_machine (fun act room => act.roomy room) room

/-- And throughout a life. -/
theorem Reachable.roomy {admits : Life → Input → Prop} {l : Life}
    (h : Reachable s admits l) : l.machine.Roomy :=
  Leads.keeps (P := fun _ m _ => m.Roomy) (fun _ _ act room => act.roomy room)
    (fun _ room => room) h (Machine.roomy_initial s)

end

-- =============================================================== informed

namespace Machine

variable {m m' : Machine}

/-- A majority for the block proposed that was not acted on has a verdict. -/
def Informed (m : Machine) : Prop :=
  m.step = .prevote ∨ m.step = .precommit →
    ∀ p, m.proposal? = some p → m.prevoteMajority? m.round = some p.body.hash →
    (m.log.getOrFresh m.round).quorumSeen = false →
    (m.verdicts.get? p.body.hash).isSome = true

/-- It is read off the step, the round, the verdicts and what is recorded of the
round. -/
theorem Informed.congr (informed : m.Informed) (same : SameRead m m') :
    m'.Informed := by
  obtain ⟨round, step, -, verdicts, reads⟩ := same
  unfold Informed at informed ⊢
  simp only [proposal?_eq, prevoteMajority?_eq_record, step, round, verdicts,
    reads] at informed ⊢
  exact informed

/-- Less to act on is less to know the verdict on. -/
theorem Informed.quieter (h : m.Informed) (q : Quieter m m')
    (verdicts : m'.verdicts = m.verdicts) : m'.Informed := by
  intro step p held majority unseen
  rw [q.step] at step
  rw [q.round, q.majority] at majority
  rw [q.round] at unseen
  rw [verdicts]
  refine h step p (q.held held) majority ?_
  by_contra seen
  rw [(q.records m.round).seen (by simpa using seen)] at unseen
  cases unseen

end Machine

namespace Work

variable {s : Setup} {w w' : World}

/-- A majority that the lock rule leaves is one whose block it has asked about. -/
theorem lockRule_informed {k : Work} (room : k.machine.Roomy) :
    (k.lockRule s w).1.machine.Informed := by
  unfold lockRule
  split
  case isFalse off => exact fun step => absurd step off
  case isTrue step =>
    split
    case h_1 none_ =>
      intro _ p held
      cases none_.symm.trans held
    case h_2 proposal found =>
      dsimp only
      rw [judge_eq]
      split
      case isTrue fresh =>
        dsimp only
        split
        case isTrue valid =>
          -- it is acted on now
          obtain ⟨round, seen⟩ := actOnQuorum_seen (s := s)
            ⟨k.machine.judged s w proposal.body.hash proposal.body.block, k.effects⟩
            ⟨k.machine.round, proposal.body.hash, proposal.body.block⟩
          intro _ p _ _ unseen
          rw [round] at unseen
          cases seen.symm.trans unseen
        -- the verdict was against it, and is remembered now
        case isFalse =>
          intro _ p held _ _
          cases found.symm.trans held
          exact room.known_consult _ _
      -- the rule did not ask, since there was nothing to act on
      case isFalse off =>
        intro _ p held majority unseen
        cases found.symm.trans held
        exact absurd ⟨by simpa using unseen, majority⟩ off

/-- What the rules left for want of a good verdict, they know the verdict on. -/
theorem pass_informed [Crypto] {k : Work} (room : k.machine.Roomy) :
    (k.pass s w).1.machine.Informed := by
  unfold pass
  dsimp only
  generalize first : (k.prevoteRule s w).1 = voted
  generalize second : (voted.prevoteWaitRule s).1 = waiting
  generalize third : (waiting.lockRule s w).1 = locked
  generalize fourth : (locked.otherMajorityRule s).1 = other
  have voting : Reaches s w (elsewhere s) k voted := first ▸ prevoteRule_reaches k
  have waited : Reaches s w (elsewhere s) voted waiting :=
    second ▸ prevoteWaitRule_reaches voted
  have locking : Reaches s w (elsewhere s) waiting locked :=
    third ▸ lockRule_reaches waiting
  have opposing : Reaches s w (elsewhere s) locked other :=
    fourth ▸ otherMajorityRule_reaches locked
  have ending : Reaches s w (elsewhere s) other (other.precommitWaitRule s).1 :=
    precommitWaitRule_reaches other
  have unripe : locked.machine.Unripe :=
    (waited.trans locking).unripe (first ▸ prevoteRule_unripe k)
  have informed : locked.machine.Informed :=
    third ▸ lockRule_informed ((voting.trans waited).roomy room)
  refine informed.quieter ((opposing.trans ending).quieter unripe).1 ?_
  have last := verdicts_of_blind (f := precommitWaitRule s)
    (precommitWaitRule_recalling other)
  have before := verdicts_of_blind (f := otherMajorityRule s)
    (otherMajorityRule_recalling locked)
  rw [last, ← fourth, before]

-- ============================================================ second pass

/-- So it changes nothing the second time: the verdict is known, and still against
the block. -/
theorem lockRule_of_informed {k : Work} (seen : k.machine.QuorumSeen s w)
    (informed : k.machine.Informed) : k.lockRule s w = (k, false) := by
  unfold lockRule
  split
  case isFalse => rfl
  case isTrue step =>
    split
    case h_1 => rfl
    case h_2 proposal held =>
      dsimp only
      rw [judge_eq]
      split
      case isFalse => rfl
      case isTrue fresh =>
        have unseen : (k.machine.log.getOrFresh k.machine.round).quorumSeen = false := by
          simpa using fresh.1
        have known := informed step proposal held fresh.2 unseen
        dsimp only
        split
        case isTrue valid =>
          rw [seen step proposal held fresh.2 valid] at unseen
          cases unseen
        case isFalse => rw [Machine.judged_of_known known]

/-- A pass over rules that rest, and know why, changes nothing. -/
theorem pass_of_informed {k : Work} (rest : k.machine.AtRest s w)
    (informed : k.machine.Informed) : k.pass s w = (k, false) := by
  unfold pass
  dsimp only
  rw [prevoteRule_of_unripe rest.unripe]
  dsimp only
  rw [prevoteWaitRule_of_waits rest.prevotesWait]
  dsimp only
  rw [lockRule_of_informed rest.quorumSeen informed]
  dsimp only
  rw [otherMajorityRule_of_agrees rest.nothingWaits rest.agrees]
  dsimp only
  rw [precommitWaitRule_of_waits rest.precommitsWait]
  rfl

/-- After one pass a second one changes nothing. -/
theorem pass_pass [Crypto] {k : Work} (room : k.machine.Roomy)
    (same : w'.validate = w.validate) :
    (k.pass s w).1.pass s w' = ((k.pass s w).1, false) :=
  pass_of_informed ((pass_atRest k).world_congr same.symm) (pass_informed room)

-- ============================================================ whole inputs

/-- However many passes are allowed, the first one does it all. -/
theorem passes_eq_pass [Crypto] {k : Work} (room : k.machine.Roomy)
    (limit left : Nat) :
    (passes s w limit (left + 1) k).1 = (k.pass s w).1 := by
  unfold passes
  dsimp only
  split
  case isFalse => dsimp only [done]
  case isTrue =>
    cases left with
    | zero => dsimp only [passes, fail]
    | succ left =>
      unfold passes
      rw [pass_pass room rfl]
      dsimp only [done]
      rw [if_neg Bool.false_ne_true]

/-- The rules do what their first pass does, whatever the limit, once the machine
has started. -/
theorem settle_eq_pass [Crypto] {k : Work} (room : k.machine.Roomy) :
    (k.settle s w).1
      = if k.machine.step = .idle then k else (k.pass s w).1 := by
  unfold settle
  split
  case isTrue => rfl
  case isFalse =>
    obtain ⟨left, limit⟩ := passLimit_eq_succ s
    rw [limit]
    exact passes_eq_pass room _ left

end Work

section

variable [Crypto] {s : Setup} {w : World} {m : Machine} {input : Input}

/-- An input that did not fail ended with the rules, so what they left is known. -/
theorem Machine.handle_informed (room : m.Roomy)
    (handled : (m.handle s w input).result = .ok ()) :
    (m.handle s w input).machine.Informed := by
  have whole : (Work.ofMachine m).run s w input
      = (((Work.ofMachine m).apply s w input).1).settle s w :=
    Attempt.eq_of_done handled
  have roomy : ((Work.ofMachine m).apply s w input).1.machine.Roomy :=
    (Work.apply_reaches (Work.ofMachine m)).roomy room
  show ((Work.ofMachine m).run s w input).1.machine.Informed
  rw [whole, Work.settle_eq_pass roomy]
  split
  case isTrue idle =>
    intro step
    rw [idle] at step
    rcases step with step | step <;> cases step
  case isFalse => exact Work.pass_informed roomy

/-- Between two inputs a machine knows why it rests, up to a fatal fault. -/
theorem informed_after (turns : List (World × Input))
    (unbroken : (Life.initial s).unbroken s turns = true) :
    (Life.after s turns).machine.Informed := by
  induction turns using List.reverseRecOn with
  | nil => exact fun step => by rcases step with step | step <;> cases step
  | append_singleton turns turn ih =>
    rw [Life.unbroken_snoc, Bool.and_eq_true] at unbroken
    obtain ⟨unbroken, sane⟩ := unbroken
    have reachable := reachable_after s turns
    rw [Life.after_snoc]
    show ((Life.after s turns).machine.handle s turn.1 turn.2).machine.Informed
    cases handled : ((Life.after s turns).machine.handle s turn.1 turn.2).result with
    | ok _ => exact Machine.handle_informed reachable.roomy handled
    | error fault =>
      rcases Machine.handle_failed reachable.onward handled
        (not_fatal_of_sane handled sane) with read | ⟨-, ended⟩
      · exact (ih unbroken).congr read
      · rw [ended]
        exact fun step => by rcases step with step | step <;> cases step

end

-- ================================================================== limit

/-- The setup with another limit on passes. -/
def Setup.allowing (s : Setup) (passes : UInt64) : Setup :=
  { s with settings := { s.settings with maxPasses := passes } }

section

variable {s : Setup} {w : World}

/-- No input is refused for want of passes. -/
theorem Refuses.ne_unsettled {m : Machine} {input : Input} {limit : Nat} :
    ¬Refuses s w m input (.unsettled limit) := by
  intro refuses
  cases input with
  | start => cases refuses
  | message message => cases refuses.rejects
  | timer timer => cases refuses

variable [Crypto]

namespace Work

variable {k : Work}

/-- The limit does not matter to what the rules do. -/
theorem settle_allowing (room : k.machine.Roomy) (passes : UInt64) :
    (k.settle (s.allowing passes) w).1 = (k.settle s w).1 := by
  rw [settle_eq_pass room, settle_eq_pass room]
  rfl

/-- Before the rules are run nobody asks for the limit. -/
theorem apply_allowing (k : Work) (passes : UInt64) (input : Input) :
    k.apply (s.allowing passes) w input = k.apply s w input := by
  cases input <;> rfl

/-- Nor to what an input does. -/
theorem run_allowing (room : k.machine.Roomy) (passes : UInt64) (input : Input) :
    (k.run (s.allowing passes) w input).1 = (k.run s w input).1 := by
  have roomy : (k.apply s w input).1.machine.Roomy :=
    (apply_reaches k).roomy room
  unfold run
  rw [apply_allowing]
  unfold Attempt.andThen
  split
  case h_1 => rfl
  case h_2 => exact settle_allowing roomy passes

/-- Where two passes are allowed, what is not met before the rules is not met. -/
theorem run_fails (enough : 2 ≤ s.settings.maxPasses.toNat) (k : Work) (input : Input) :
    (k.run s w input).FailsWith fun fault =>
      Regression fault ∨ Refuses s w k.machine input fault := by
  refine .andThen (apply_fails k input) fun _ fault failed => ?_
  cases (settle_ok enough _).symm.trans failed

/-- Where two passes are allowed, more of them make no difference. -/
theorem run_result_allowing {passes : UInt64} (enough : 2 ≤ s.settings.maxPasses.toNat)
    (as_many : 2 ≤ passes.toNat) (k : Work) (input : Input) :
    (k.run (s.allowing passes) w input).2 = (k.run s w input).2 := by
  unfold run
  rw [apply_allowing]
  unfold Attempt.andThen
  split
  case h_1 => rfl
  case h_2 =>
    rw [settle_ok enough]
    exact settle_ok (s := s.allowing passes) as_many _

end Work

/-- Where two passes are allowed, no input fails for want of a third. -/
theorem Machine.handle_ne_unsettled (enough : 2 ≤ s.settings.maxPasses.toNat)
    (m : Machine) (input : Input) (limit : Nat) :
    (m.handle s w input).result ≠ .error (.unsettled limit) := by
  intro failed
  rcases Work.run_fails enough (Work.ofMachine m) input _ failed with back | refuses
  · cases back
  · exact refuses.ne_unsettled

/-- With any limit a machine lives the same life. -/
theorem Life.after_allowing (s : Setup) (passes : UInt64)
    (turns : List (World × Input)) :
    after (s.allowing passes) turns = after s turns := by
  induction turns using List.reverseRecOn with
  | nil => rfl
  | append_singleton turns turn ih =>
    have room : (Work.ofMachine (after s turns).machine).machine.Roomy :=
      (reachable_after s turns).roomy
    have same := Work.run_allowing (s := s) (w := turn.1) room passes turn.2
    rw [after_snoc, after_snoc, ih]
    unfold next Machine.handle
    dsimp only
    rw [same]

/-- One pass settles the rules. Take any turns, and any moment in the handling
of another input. If the rules are passed over once, and then again in a world
that thinks of blocks as the first one did, the second pass reports no change,
and leaves the machine and the effects as they are. So where two passes are
allowed, no input fails because the rules did not settle; and with any other
limit the machine lives the same life, and asks at every input for the same
effects, with the same result where both limits allow for two. -/
theorem one_pass_settles (s : Setup) (turns : List (World × Input)) :
    (∀ w w' input k, Work.Reaches s w input
        (Work.ofMachine (Life.after s turns).machine) k →
      w'.validate = w.validate →
      (k.pass s w).1.pass s w' = ((k.pass s w).1, false))
    ∧ (2 ≤ s.settings.maxPasses.toNat → ∀ w input limit,
      ((Life.after s turns).machine.handle s w input).result
        ≠ .error (.unsettled limit))
    ∧ ∀ passes, Life.after (s.allowing passes) turns = Life.after s turns
      ∧ ∀ w input,
        let here := (Life.after s turns).machine.handle s w input
        let there := (Life.after s turns).machine.handle (s.allowing passes) w input
        there.machine = here.machine ∧ there.effects = here.effects
          ∧ (2 ≤ s.settings.maxPasses.toNat → 2 ≤ passes.toNat →
            there.result = here.result) := by
  have room : (Life.after s turns).machine.Roomy := (reachable_after s turns).roomy
  refine ⟨?_, ?_, fun passes => ⟨Life.after_allowing s passes turns, ?_⟩⟩
  · intro w w' input k reaches same
    exact Work.pass_pass (reaches.roomy room) same
  · intro enough w input limit
    exact Machine.handle_ne_unsettled enough _ input limit
  · intro w input
    have same : ((Work.ofMachine (Life.after s turns).machine).run
          (s.allowing passes) w input).1
        = ((Work.ofMachine (Life.after s turns).machine).run s w input).1 :=
      Work.run_allowing room passes input
    exact ⟨congrArg Work.machine same, congrArg Work.effects same,
      fun enough as_many => Work.run_result_allowing enough as_many _ input⟩

end

-- =============================================================== examples

open scoped Plain

namespace Plain

/-- The first of four validators has started, and has taken up a proposal that
it has not voted on yet. -/
def proposedTo : Work :=
  ((Work.ofMachine (Life.after (setup (address 1)) [(world, .start)]).machine).apply
    (setup (address 1)) world (offer 2 0 none (block 0)).2).1

end Plain

open Plain in
/-- The first pass votes, and the second one finds that this is done. If only
one pass is allowed, nobody finds that. -/
theorem one_pass_settles_of_proposed :
    Work.Reaches (setup (address 1)) world (offer 2 0 none (block 0)).2
        (Work.ofMachine (Life.after (setup (address 1)) [(world, .start)]).machine)
        proposedTo
      ∧ (proposedTo.pass (setup (address 1)) world).2 = true
      ∧ (proposedTo.pass (setup (address 1)) world).1.pass (setup (address 1)) world
        = ((proposedTo.pass (setup (address 1)) world).1, false)
      ∧ ((Life.after (setup (address 1)) [(world, .start)]).machine.handle
          ((setup (address 1)).allowing 1) world (offer 2 0 none (block 0)).2).result
        = .error (.unsettled 1) := by
  have reaches : Work.Reaches (setup (address 1)) world (offer 2 0 none (block 0)).2
      (Work.ofMachine (Life.after (setup (address 1)) [(world, .start)]).machine)
      proposedTo := Work.apply_reaches _
  refine ⟨reaches, by decide +kernel, ?_, by decide +kernel⟩
  exact (one_pass_settles (setup (address 1)) [(world, .start)]).1 world world _ _
    reaches rfl

end Quorum
