/-
What was accepted is turned away when it comes again.

A vote that was counted stands, and is known from then on. A proposal has no such
place of its own: its round has one place for all proposals, and that is emptied
when the majority of prevotes is for another block. But then the majority is
there, for the rest of the round, and what it is not for finds no way back. Once
the round is over, so is the time of its proposal. That is the invariant
(`Machine.Past`): the round has passed, or it holds the proposal, or a majority
of prevotes is for something else.

The checks that come before look at the message alone, but for the round. The
message has passed them once and passes them again, so it is clear which check
refuses it.
-/
import Quorum.Proofs.Machine.Redelivering

namespace Quorum

-- ================================================ statement vocabulary

/-- A message is accepted where it is not turned away as a message. It is also
where it is taken in, and the rules that run after it do not settle. -/
def Machine.Accepts [Crypto] (s : Setup) (w : World) (m : Machine)
    (message : Message) : Prop :=
  ∀ fault, (m.handle s w (.message message)).result = .error fault →
    fault.isRejection = false

/-- With which fault a message is turned away that was accepted before. -/
inductive Stale (m : Machine) : Message → Fault → Prop
  | recorded (vote : Vote) (stands : m.log.standing? vote = some vote) :
      Stale m (.vote vote)
        (.vote (.recorded vote.body.kind vote.body.validator))
  | past (p : Proposal) (later : p.body.round < m.round) :
      Stale m (.proposal p) (.proposal (.roundMismatch m.round p.body.round))
  /-- The place is taken, by the proposal or by one that came after it was
  dropped. -/
  | placed (p q : Proposal) (here : p.body.round = m.round)
      (held : m.proposal? = some q) :
      Stale m (.proposal p) (.proposalExists p.body.round)
  | dropped (p : Proposal) (majority : BlockHash)
      (here : p.body.round = m.round) (free : m.proposal? = none)
      (reached : m.prevoteMajority? m.round = some majority)
      (differs : majority ≠ p.body.hash) :
      Stale m (.proposal p)
        (.proposalConflicts p.body.round p.body.hash majority)

theorem Stale.rejects {m : Machine} {message : Message} {fault : Fault}
    (h : Stale m message fault) : fault.isRejection = true := by
  cases h <;> rfl

/-- Whether a machine keeps messages of this sort: votes and proposals. -/
def Message.isKept : Message → Bool
  | .vote _ => true
  | .proposal _ => true
  | .claim _ => false
  | .holdings _ => false

/-- A message comes in vain: it is turned away, nothing is asked for, and the
machine is the same in all its parts. -/
def Machine.Unmoved [Crypto] (s : Setup) (w : World) (m : Machine)
    (message : Message) : Prop :=
  ∃ fault, Stale m message fault
    ∧ m.handle s w (.message message) = ⟨m, [], .error fault⟩

/-- A proposal of this round, or of a round before it, that finds no way in any
more. -/
inductive Machine.Past (m : Machine) (p : Proposal) : Prop
  | passed (later : p.body.round < m.round)
  | held (here : p.body.round = m.round) (held : m.proposal? = some p)
  | outvoted (here : p.body.round = m.round) (majority : BlockHash)
      (reached : m.prevoteMajority? m.round = some majority)
      (differs : majority ≠ p.body.hash)

section

variable [Crypto] {s : Setup} {w : World} {input : Input} {m m' : Machine}
  {es : List Effect} {p : Proposal} {fault : Fault}

-- ========================================================= the invariant

omit [Crypto] in
theorem Machine.Past.round_le (past : m.Past p) : p.body.round ≤ m.round := by
  cases past with
  | passed later => exact UInt32.le_of_lt later
  | held here => exact UInt32.le_of_eq here
  | outvoted here => exact UInt32.le_of_eq here

/-- Where a proposal is held, no other one is taken up. -/
theorem free_of_proposalRefusal? (sound : m.proposalRefusal? s p = none) :
    m.proposal? = none := by
  have here := round_of_proposalRefusal? sound
  unfold Machine.proposalRefusal? Machine.placeRefusal? at sound
  rw [proposalFault?_of_refusal? sound, here] at sound
  dsimp only at sound
  split at sound
  case isTrue => cases sound
  case isFalse free =>
    rw [Machine.proposal?_eq]
    simpa using free

/-- What found no way in before an act finds none after it. -/
theorem Act.past (act : Act s w input m es m') (onward : m.Onward)
    (past : m.Past p) : m'.Past p := by
  have forward := onward.round_le act.moves
  have grows := act.log_keeps.grows
  by_cases same : m'.round = m.round
  case neg =>
    have later : m.round < m'.round :=
      UInt32.lt_of_le_of_ne forward (Ne.symm same)
    exact .passed (UInt32.lt_of_le_of_lt past.round_le later)
  cases past with
  | passed later => exact .passed (same ▸ later)
  | outvoted here majority reached differs =>
    refine .outvoted (here.trans same.symm) majority ?_ differs
    rw [same]
    exact grows.prevoteMajority reached
  | held here held =>
    cases act.places m.round with
    | same reads =>
      refine .held (here.trans same.symm) ?_
      rw [Machine.proposal?_eq, same, reads, ← Machine.proposal?_eq, held]
    | taken q given sound =>
      cases (free_of_proposalRefusal? sound).symm.trans held
    | gone q majority step held' other differs =>
      -- the place is empty from now on, but the majority stays
      cases held.symm.trans held'
      refine .outvoted (here.trans same.symm) majority ?_ differs.symm
      rw [same]
      exact grows.prevoteMajority other

-- =========================================================== first times

/-- A proposal that was accepted was taken up. -/
theorem Machine.sound_of_accepted (accepted : m.Accepts s w (.proposal p)) :
    m.proposalRefusal? s p = none := by
  cases refused : m.proposalRefusal? s p with
  | none => rfl
  | some fault =>
    obtain ⟨fault, turned, rejects⟩ :=
      handle_proposal_barred (m := m) (w := w) refused
    cases rejects.symm.trans (accepted fault (by rw [turned]))

/-- From then on it finds no way in. -/
theorem Machine.past_of_takenUp (onward : m.Onward)
    (sound : m.proposalRefusal? s p = none) :
    (m.handle s w (.message (.proposal p))).machine.Past p := by
  have here := round_of_proposalRefusal? sound
  have taken : Machine.Past { m with
      log := m.log.put { m.log.getOrFresh p.body.round with
        proposal := some p } } p := by
    refine .held here ?_
    rw [proposal?_eq, HeightLog.getOrFresh_put, HeightLog.round_getOrFresh,
      if_pos here.symm]
  have onward := (Act.takeUp (w := w) m p rfl sound).onward onward
  obtain ⟨es, acts⟩ := acts_of_takenUp (w := w) sound
  have kept := acts.keeps_machine (P := fun m' => m'.Onward ∧ m'.Past p)
    (fun act kept => ⟨act.onward kept.1, act.past kept.1 kept.2⟩)
    ⟨onward, taken⟩
  exact kept.2

-- =========================================================== later times

/-- In another round, all that is wrong with it is the round. -/
theorem Faultless.fault_elsewhere {m₀ : Machine} (once : Faultless s m₀ p)
    (away : p.body.round ≠ m.round) : m.proposalFault? s p
      = some (.proposal (.roundMismatch m.round p.body.round)) := by
  unfold Machine.proposalFault?
  dsimp only
  rw [if_neg (not_not.2 once.height), once.signed, Bool.not_true,
    if_neg Bool.false_ne_true, if_neg (not_not.2 once.named),
    if_neg (not_not.2 once.placed), if_neg (not_not.2 once.turn), if_pos away]

/-- A proposal that passed all checks once, and finds no way in any more. -/
theorem Machine.Past.refused {m₀ : Machine} (past : m.Past p)
    (once : Faultless s m₀ p) :
    ∃ fault, Stale m (.proposal p) fault
      ∧ m.proposalRefusal? s p = some fault := by
  -- in its own round it passes them again, and meets what is recorded there
  have again : p.body.round = m.round → m.proposalRefusal? s p
      = placeRefusal? (m.log.getOrFresh m.round) p.body := by
    intro here
    have faultless : Faultless s m p := { once with round := here }
    unfold proposalRefusal?
    rw [faultless_iff.2 faultless, here]
  have taken : ∀ q, p.body.round = m.round → m.proposal? = some q →
      m.proposalRefusal? s p = some (.proposalExists p.body.round) := by
    intro q here held
    rw [proposal?_eq] at held
    rw [again here]
    unfold placeRefusal?
    rw [held]
    rfl
  cases past with
  | passed later =>
    refine ⟨_, .past p later, ?_⟩
    unfold proposalRefusal?
    rw [once.fault_elsewhere (UInt32.ne_of_lt later)]
  | held here held => exact ⟨_, .placed p p here held, taken p here held⟩
  | outvoted here majority reached differs =>
    cases held : m.proposal? with
    | some q => exact ⟨_, .placed p q here held, taken q here held⟩
    | none =>
      refine ⟨_, .dropped p majority here held reached differs, ?_⟩
      rw [proposal?_eq] at held
      rw [prevoteMajority?_eq_record] at reached
      rw [again here]
      unfold placeRefusal? conflictingMajority?
      simp [held, reached, differs]

theorem Machine.Past.unmoved {m₀ : Machine} (past : m.Past p)
    (once : Faultless s m₀ p) : m.Unmoved s w (.proposal p) := by
  obtain ⟨fault, stale, refused⟩ := past.refused once
  exact ⟨fault, stale, handle_proposal_refused once.height refused⟩

namespace Docket

variable {d : Docket}

/-- What found no way in before a deed finds none after it. -/
theorem Sound.past_next (sound : d.Sound s) (past : d.machine.Past p) (deed : Deed) :
    (d.next s deed).machine.Past p := by
  cases deed with
  | handle w input =>
    have kept := (d.machine.handle_acts s w input).keeps_machine
      (P := fun m => m.Onward ∧ m.Past p)
      (fun act kept => ⟨act.onward kept.1, act.past kept.1 kept.2⟩)
      ⟨sound.onward, past⟩
    exact kept.2
  | takeEvidence =>
    cases past with
    | passed later => exact .passed later
    | held here held => exact .held here held
    | outvoted here majority reached differs =>
      exact .outvoted here majority reached differs

theorem Sound.past_run (sound : d.Sound s) (past : d.machine.Past p)
    (deeds : List Deed) : (d.run s deeds).machine.Past p := by
  induction deeds generalizing d with
  | nil => exact past
  | cons deed deeds ih => exact ih (sound.next deed) (sound.past_next past deed)

end Docket

-- ============================================================== all times

/-- A vote or a proposal that was accepted is turned away whenever it comes again,
and nothing is changed by it. It does not matter what is done in between; a
proposal may be dropped meanwhile, or its round be over. -/
theorem accepted_comes_again_in_vain (s : Setup) (before between : List Deed)
    (w w' : World) (message : Message) (kept : message.isKept = true)
    (accepted : (Docket.after s before).machine.Accepts s w message) :
    (Docket.after s (before ++ .handle w (.message message) :: between)).machine.Unmoved
      s w' message := by
  have sound := Docket.sound_after s before
  have handled := sound.next (.handle w (.message message))
  have whole : Docket.after s (before ++ .handle w (.message message) :: between)
      = ((Docket.after s before).next s (.handle w (.message message))).run s between :=
    Docket.run_append s _ before _
  rw [whole]
  cases message with
  | claim => cases kept
  | holdings => cases kept
  | vote vote =>
    obtain ⟨passes, countable, stands⟩ :=
      Machine.stands_of_accepted sound.log accepted
    have again := handled.handle_again countable passes stands between w'
      (if_pos rfl).symm
    have nothing : Machine.convictions w'
        (.error (.vote (.recorded vote.body.kind vote.body.validator))) = [] := rfl
    rw [nothing, List.append_nil] at again
    exact ⟨_, .recorded vote ((Docket.grows_run s _ between).1.voteOf? stands), again⟩
  | proposal p =>
    have taken := Machine.sound_of_accepted accepted
    have past := Machine.past_of_takenUp (w := w) sound.onward taken
    have once := faultless_iff.1 (proposalFault?_of_refusal? taken)
    exact (handled.past_run past between).unmoved once

end

open scoped Plain

namespace Plain

/-- The second of four validators proposes the empty block in the first round. -/
def emptyOffer : Proposal :=
  Signed.make (Signer.plain (address 2)) (Offer.ofBlock 0 0 (address 2) none 1 (block 0))

/-- Three of them prevote for another block. -/
def othersDeeds : List Deed :=
  [2, 3, 4].map fun byte => .vote world (cast byte 0 (block 1).hash .prevote)

end Plain

open Plain in
/-- The place of the proposal is empty when it comes again. -/
theorem accepted_comes_again_in_vain_of_dropped :
    (Message.proposal emptyOffer).isKept = true
      ∧ (Docket.after (setup (address 1)) [.handle world .start]).machine.Accepts
        (setup (address 1)) world (.proposal emptyOffer)
      ∧ (Docket.after (setup (address 1)) ([.handle world .start]
        ++ .handle world (.message (.proposal emptyOffer)) :: othersDeeds)).machine.proposal?
          = none
      ∧ (Docket.after (setup (address 1)) ([.handle world .start]
        ++ .handle world (.message (.proposal emptyOffer)) :: othersDeeds)).machine.Unmoved
          (setup (address 1)) world (.proposal emptyOffer) := by
  have accepted : (Docket.after (setup (address 1)) [.handle world .start]).machine.Accepts
      (setup (address 1)) world (.proposal emptyOffer) := by
    have handled : ((Docket.after (setup (address 1)) [.handle world .start]).machine.handle
        (setup (address 1)) world (.message (.proposal emptyOffer))).result = .ok () := by
      decide +kernel
    intro fault failed
    cases handled.symm.trans failed
  exact ⟨rfl, accepted, by decide +kernel, accepted_comes_again_in_vain (setup (address 1))
    [.handle world .start] othersDeeds world world _ rfl accepted⟩

end Quorum
