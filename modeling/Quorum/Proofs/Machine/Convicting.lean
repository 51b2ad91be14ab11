/-
Two votes that contradict each other convict their validator.

Evidence is made where a vote is refused because another one of its validator
stands against it. What stands there was checked when it came, and the one that
is refused is checked now, so both halves are good. And nothing gets past: once
a vote that may be counted was handled, some vote of its validator stands in its
round for ever, the same or an earlier one. Of two votes for different blocks
one at least differs from that, and is evidence the moment it is handled. It
does not matter what comes in between, nor whether the evidence is taken away
meanwhile.
-/
import Quorum.Proofs.Chain.Accountability
import Quorum.Proofs.Machine.Bounding
import Quorum.Proofs.Machine.Returning
import Quorum.Proofs.Record.Standing

namespace Quorum

-- ================================================ statement vocabulary

/-- Two votes of this height that convict a validator. -/
structure Convicts [Crypto] (s : Setup) (a b : Vote) : Prop
    extends Contradicts a b where
  here : a.body.height = s.scope.height
  power : s.scope.validators.powerOf? a.body.validator = some a.body.power
  power' : s.scope.validators.powerOf? b.body.validator = some b.body.power

/-- What is done with a machine: it is given an input, to which the world answers
so and so, or its evidence is taken away. -/
inductive Deed where
  | handle (w : World) (input : Input)
  | takeEvidence

/-- A vote is handed in. -/
abbrev Deed.vote (w : World) (vote : Vote) : Deed :=
  .handle w (.message (.vote vote))

/-- A machine, what it was given, and the evidence that was taken from it, first
one first. -/
structure Docket where
  machine : Machine
  given : List Input
  taken : List Evidence

namespace Docket

variable [Crypto] (s : Setup)

/-- Nothing given and nothing taken. -/
def initial : Docket := ⟨Machine.initial s, [], []⟩

/-- What a deed changes. An input may add evidence, and taking it away leaves the
machine as it is otherwise. -/
def next (d : Docket) : Deed → Docket
  | .handle w input =>
    ⟨(d.machine.handle s w input).machine, d.given ++ [input], d.taken⟩
  | .takeEvidence =>
    ⟨d.machine.takeEvidence.2, d.given, d.taken ++ d.machine.takeEvidence.1⟩

/-- Deeds one after the other. -/
def run (d : Docket) (deeds : List Deed) : Docket := deeds.foldl (next s) d

/-- What becomes of a new machine. -/
def after (deeds : List Deed) : Docket := (initial s).run s deeds

/-- All evidence there ever was, taken away or not. -/
def recorded (d : Docket) : List Evidence := d.taken ++ d.machine.evidence

end Docket

/-- An input that is looked at as a vote of this round is, once it was counted. -/
def aside (s : Setup) (round : Round) : Input :=
  .message (.holdings
    ⟨⟨s.scope.height, round, .nil, 0, s.signer.address, .null, []⟩, []⟩)

/-- It is no vote. -/
theorem aside_ne (s : Setup) (round : Round) (vote : Vote) :
    aside s round ≠ .message (.vote vote) := by
  unfold aside
  nofun

section

variable [Crypto] {s : Setup} {w : World} {input : Input} {m m' : Machine}
  {es : List Effect} {vote first : Vote}

-- ============================================================== evidence

/-- Only a vote makes evidence. -/
theorem Act.evidence (act : Act s w input m es m')
    (novote : ∀ vote, input ≠ .message (.vote vote)) :
    m'.evidence = m.evidence := by
  cases act with
  | count vote given => exact absurd given (novote vote)
  | claim claim =>
    obtain ⟨log, same, -⟩ := Machine.addClaim_relogs s w m claim
    rw [same]
  | beginRound round log cause moved =>
    obtain ⟨opened, same, -⟩ := Machine.opening_relogs s w
      { m with log := log, round := round, step := .propose } round
    rw [same]
  | lock proposal pinned step held pins unseen majority valid marked seen =>
    obtain ⟨log, after, -⟩ := Machine.locked_eq seen
    rw [after]
    rfl
  | wait kind =>
    obtain ⟨log, same, -⟩ := Machine.armed_relogs m m.round kind.slot
    rw [same]
  | decideBlock proposal pinned started undecided held pins majority valid
      pinning decided =>
    obtain ⟨log, after, -⟩ := Machine.decided_eq decided
    rw [after]
    rfl
  | _ => rfl

/-- A vote that was counted is left to the rules. -/
theorem Machine.run_of_counted (sound : voteRefusal? s vote = none)
    (counted : (m.log.addVote s.scope vote).2 = .ok ()) :
    (Work.ofMachine m).run s w (.message (.vote vote))
      = ((Work.done ⟨{ m with log := (m.log.addVote s.scope vote).1 }, []⟩).andThen
          fun k => k.advance s w vote.body.round).andThen
        fun k => k.settle s w := by
  have ours : ¬(Message.vote vote).height ≠ s.scope.height :=
    not_not.2 (height_of_voteRefusal? sound)
  have added : (Work.ofMachine m).addVote s w vote
      = Work.done ⟨{ m with log := (m.log.addVote s.scope vote).1 }, []⟩ := by
    unfold Work.addVote
    rw [sound]
    dsimp only [Work.ofMachine]
    rw [counted]
    rfl
  unfold Work.run Work.apply Work.takeMessage
  dsimp only
  rw [if_neg ours, added]

/-- What follows on a vote that was counted counts no vote. -/
theorem Machine.acts_of_counted (sound : voteRefusal? s vote = none)
    (counted : (m.log.addVote s.scope vote).2 = .ok ()) :
    ∃ es, Acts s w (aside s vote.body.round)
      { m with log := (m.log.addVote s.scope vote).1 } es
      (m.handle s w (.message (.vote vote))).machine := by
  -- what the rules do then, they would do on any input of that round
  have advances : ∀ k : Work, Work.Reaches s w (aside s vote.body.round) k
      (k.advance s w vote.body.round).1 := fun _ => Work.advance_reaches rfl
  unfold handle
  rw [run_of_counted sound counted]
  exact Work.acts_after
    (Work.done ⟨{ m with log := (m.log.addVote s.scope vote).1 }, []⟩) advances

/-- What follows on a vote that was counted fails by the rules only. -/
theorem Machine.fails_of_counted (sound : voteRefusal? s vote = none)
    (counted : (m.log.addVote s.scope vote).2 = .ok ()) {fault : Fault}
    (failed : (m.handle s w (.message (.vote vote))).result = .error fault) :
    OfRules fault := by
  have fails : ((Work.ofMachine m).run s w (.message (.vote vote))).FailsWith
      OfRules := by
    rw [run_of_counted sound counted]
    exact .andThen (.andThen (.done _) fun _ =>
      (Work.advance_fails _ _).mono fun _ => Regression.ofRules) fun _ => Work.settle_fails _
  exact fails fault failed

/-- The evidence that an input makes. -/
def Machine.convicted (s : Setup) (w : World) (m : Machine) :
    Input → List Evidence
  | .message (.vote vote) =>
    match voteRefusal? s vote with
    | some _ => []
    | none => convictions w (m.log.addVote s.scope vote).2
  | _ => []

/-- A vote adds the evidence it makes, whatever the machine does because of it. -/
theorem Machine.evidence_of_vote (s : Setup) (w : World) (m : Machine)
    (vote : Vote) :
    (m.handle s w (.message (.vote vote))).machine.evidence
      = m.evidence ++ m.convicted s w (.message (.vote vote)) := by
  unfold convicted
  dsimp only
  cases sound : voteRefusal? s vote with
  | some fault =>
    obtain ⟨_, turned, -⟩ := handle_vote_barred (m := m) (w := w) sound
    rw [turned]
    exact (List.append_nil _).symm
  | none =>
    cases counted : (m.log.addVote s.scope vote).2 with
    | error fault => rw [handle_vote_refused sound counted]
    | ok _ =>
      obtain ⟨es, acts⟩ := acts_of_counted (w := w) sound counted
      have kept := acts.keeps_machine (P := fun m' => m'.evidence = m.evidence)
        (fun act held => (act.evidence (aside_ne s _)).trans held) rfl
      rw [kept]
      exact (List.append_nil _).symm

/-- Whatever is handled, evidence is only added. -/
theorem Machine.evidence_handle (s : Setup) (w : World) (m : Machine)
    (input : Input) :
    (m.handle s w input).machine.evidence
      = m.evidence ++ m.convicted s w input := by
  have other : (∀ vote, input ≠ .message (.vote vote)) →
      (m.handle s w input).machine.evidence = m.evidence := fun novote =>
    (m.handle_acts s w input).keeps_machine
      (P := fun m' => m'.evidence = m.evidence)
      (fun act held => (act.evidence novote).trans held) rfl
  cases input with
  | start => exact (other nofun).trans (List.append_nil _).symm
  | timer timer => exact (other nofun).trans (List.append_nil _).symm
  | message message =>
    cases message with
    | vote vote => exact evidence_of_vote s w m vote
    | _ => exact (other nofun).trans (List.append_nil _).symm

/-- Evidence is of the vote that stands and the one that came. -/
theorem Machine.mem_convicted {e : Evidence} (new : e ∈ m.convicted s w input) :
    ∃ vote first, input = .message (.vote vote) ∧ voteRefusal? s vote = none
      ∧ Vote.Countable s.scope vote ∧ m.log.standing? vote = some first
      ∧ first.body.hash ≠ vote.body.hash ∧ e = ⟨first, vote, w.now⟩ := by
  unfold convicted at new
  split at new
  case h_1 vote =>
    split at new
    case h_1 => cases new
    case h_2 sound =>
      unfold convictions at new
      split at new
      case h_1 first second failed =>
        obtain ⟨rfl, countable, stands, differs⟩ := HeightLog.addVote_conflict failed
        exact ⟨second, first, rfl, sound, countable, stands, differs,
          List.mem_singleton.1 new⟩
      case h_2 => cases new
  case h_2 => cases new

-- =============================================================== hearing

/-- What becomes of a vote that may be counted. Another one stands, and nothing
changes but the evidence if they differ; or its round is closed to its author;
or it stands from now on. -/
inductive Hearing (s : Setup) (w : World) (m : Machine) (vote : Vote)
    (outcome : Outcome) : Prop
  | known (first : Vote) (stands : m.log.standing? vote = some first)
      (fault : Fault)
      (named : fault = if first.body.hash = vote.body.hash then
        .vote (.recorded vote.body.kind vote.body.validator)
        else .conflict first vote)
      (same : outcome = ⟨{ m with
        evidence := m.evidence ++ Machine.convictions w (.error fault) },
        [], .error fault⟩)
  | closed (new : m.log.standing? vote = none) (spent : outcome.result = .error
      (.vote (.allowanceSpent vote.body.validator vote.body.round)))
  | counted (stands : outcome.machine.log.standing? vote = some vote)
      (rules : ∀ fault, outcome.result = .error fault → OfRules fault)

/-- A vote that another one stands against, or that stands itself. -/
theorem Machine.handle_known {heard : Vote → Prop} {offered : Proposal → Prop}
    (logged : m.log.Sound s.scope heard offered)
    (countable : Vote.Countable s.scope vote) (sound : voteRefusal? s vote = none)
    (stands : m.log.standing? vote = some first) (w : World) {fault : Fault}
    (named : fault = if first.body.hash = vote.body.hash then
      .vote (.recorded vote.body.kind vote.body.validator)
      else .conflict first vote) :
    m.handle s w (.message (.vote vote))
      = ⟨{ m with evidence := m.evidence ++ convictions w (.error fault) },
        [], .error fault⟩ := by
  have refused := HeightLog.addVote_of_standing logged countable stands
  rw [← named] at refused
  rw [handle_vote_refused sound (congrArg Prod.snd refused), refused]

/-- Nothing else can become of a vote that may be counted. -/
theorem Machine.hearing {heard : Vote → Prop} {offered : Proposal → Prop}
    (logged : m.log.Sound s.scope heard offered)
    (countable : Vote.Countable s.scope vote) (sound : voteRefusal? s vote = none)
    (w : World) :
    Hearing s w m vote (m.handle s w (.message (.vote vote))) := by
  cases stands : m.log.standing? vote with
  | some first =>
    exact .known first stands _ rfl (handle_known logged countable sound stands w rfl)
  | none =>
    cases opens : m.log.openFor? vote.body.round vote.body.validator with
    | none =>
      have refused := HeightLog.addVote_of_closed countable opens
      refine .closed stands ?_
      rw [handle_vote_refused sound (congrArg Prod.snd refused)]
    | some opened =>
      obtain ⟨counted, new⟩ := HeightLog.addVote_of_open logged countable stands
        (opens ▸ rfl)
      obtain ⟨es, acts⟩ := acts_of_counted (w := w) sound counted
      refine .counted ?_ fun fault failed => fails_of_counted sound counted failed
      exact acts.keeps_machine (P := fun m' => m'.log.standing? vote = some vote)
        (fun act held => act.log_keeps.grows.voteOf? held) new

/-- Once a vote was handled that may be counted, one stands in its place. It is
for the same block, or there is evidence now. -/
theorem Machine.stands_of_handle {heard : Vote → Prop}
    {offered : Proposal → Prop} (logged : m.log.Sound s.scope heard offered)
    (countable : Vote.Countable s.scope vote) (sound : voteRefusal? s vote = none)
    (unspent : (∃ first, m.log.standing? vote = some first)
      ∨ ∀ fault, (m.handle s w (.message (.vote vote))).result = .error fault →
        fault.isSpent = false) :
    ∃ first,
      (m.handle s w (.message (.vote vote))).machine.log.standing? vote = some first
        ∧ (first.body.hash = vote.body.hash ∨ ⟨first, vote, w.now⟩
          ∈ (m.handle s w (.message (.vote vote))).machine.evidence) := by
  cases hearing logged countable sound w with
  | known first stands fault named same =>
    rw [same]
    refine ⟨first, stands, ?_⟩
    by_cases agrees : first.body.hash = vote.body.hash
    · exact Or.inl agrees
    · rw [if_neg agrees] at named
      subst named
      exact Or.inr (List.mem_append_right _ (List.mem_singleton_self _))
  | counted stands => exact ⟨vote, stands, Or.inl rfl⟩
  | closed new spent =>
    rcases unspent with ⟨first, stands⟩ | unspent
    · cases new.symm.trans stands
    · cases unspent _ spent

-- =============================================================== dockets

namespace Docket

variable {d : Docket} {deed : Deed} {deeds : List Deed}

/-- What a deed adds to the evidence there ever was. -/
theorem recorded_next (s : Setup) (d : Docket) (deed : Deed) :
    (d.next s deed).recorded = d.recorded
      ++ match deed with
        | .handle w input => d.machine.convicted s w input
        | .takeEvidence => [] := by
  cases deed with
  | takeEvidence => simp [recorded, next, Machine.takeEvidence]
  | handle w input =>
    show d.taken ++ (d.machine.handle s w input).machine.evidence = _
    rw [Machine.evidence_handle, ← List.append_assoc]
    rfl

/-- What is true of a machine and its evidence, whatever is done. -/
structure Sound (s : Setup) (d : Docket) : Prop where
  onward : d.machine.Onward
  log : d.machine.log.Sound s.scope (Heard d.given) (Offered s d.given)
  thrifty : d.machine.log.Thrifty s.scope
  evidence : ∀ e ∈ d.recorded, Convicts s e.first e.second
    ∧ Heard d.given e.first ∧ Heard d.given e.second

/-- Nothing is recorded at first. -/
theorem sound_initial (s : Setup) : Sound s (initial s) where
  onward := Machine.onward_initial s
  log := HeightLog.sound_start s.scope _ _
  thrifty := HeightLog.thrifty_start s.scope
  evidence := by simp [recorded, initial, Machine.initial]

/-- The vote that stands and the one that came convict their validator. -/
theorem Sound.convicts (sound : d.Sound s)
    (stands : d.machine.log.standing? vote = some first)
    (countable : Vote.Countable s.scope vote)
    (passes : Machine.voteRefusal? s vote = none)
    (differs : first.body.hash ≠ vote.body.hash) :
    Convicts s first vote ∧ Heard d.given first := by
  obtain ⟨heard, author, height, round, kind⟩ :=
    HeightLog.voteOf?_spec sound.log stands
  refine ⟨⟨⟨author.symm, countable.height.trans height.symm, round.symm, kind.symm,
    kind ▸ countable.counts, differs, heard.2, verify_of_voteRefusal? passes⟩,
    height, sound.thrifty.power_of_voteOf? stands, countable.power⟩, heard⟩

/-- No deed records anything that was not given, or convicts for less than two
votes. -/
theorem Sound.next (sound : d.Sound s) (deed : Deed) : (d.next s deed).Sound s := by
  cases deed with
  | takeEvidence =>
    refine ⟨⟨sound.onward.placed, sound.onward.ahead⟩, sound.log, sound.thrifty,
      fun e member => sound.evidence e ?_⟩
    rwa [recorded_next, List.append_nil] at member
  | handle w input =>
    have kept := (d.machine.handle_acts s w input).keeps_machine
      (P := fun m => m.Onward ∧ m.log.Thrifty s.scope
        ∧ m.log.Sound s.scope (Heard (d.given ++ [input]))
          (Offered s (d.given ++ [input])))
      (fun act held => ⟨act.onward held.1, act.thrifty held.1 held.2.1,
        act.log_sound held.2.2⟩)
      ⟨sound.onward, sound.thrifty, log_sound_append sound.log [input]⟩
    refine ⟨kept.1, kept.2.2, kept.2.1, fun e member => ?_⟩
    have more : ∀ {vote}, Heard d.given vote → Heard (d.given ++ [input]) vote :=
      fun heard => ⟨List.mem_append_left _ heard.1, heard.2⟩
    rw [recorded_next] at member
    rcases List.mem_append.1 member with old | new
    · obtain ⟨convicts, heard, heard'⟩ := sound.evidence e old
      exact ⟨convicts, more heard, more heard'⟩
    · obtain ⟨vote, first, rfl, passes, countable, stands, differs, rfl⟩ :=
        Machine.mem_convicted new
      obtain ⟨convicts, heard⟩ := sound.convicts stands countable passes differs
      exact ⟨convicts, more heard,
        List.mem_append_right _ (List.mem_singleton_self _), convicts.signed'⟩

/-- By induction on the deeds. -/
theorem Sound.run (sound : d.Sound s) (deeds : List Deed) : (d.run s deeds).Sound s := by
  induction deeds generalizing d with
  | nil => exact sound
  | cons deed deeds ih => exact ih (sound.next deed)

/-- So it holds whatever is done. -/
theorem sound_after (s : Setup) (deeds : List Deed) : (after s deeds).Sound s :=
  (sound_initial s).run deeds

/-- More deeds go on from where the first ones led. -/
theorem run_append (s : Setup) (d : Docket) (deeds more : List Deed) :
    d.run s (deeds ++ more) = (d.run s deeds).run s more :=
  List.foldl_append

/-- Nothing that was counted is taken back, and no evidence is lost. -/
theorem grows_next (s : Setup) (d : Docket) (deed : Deed) :
    d.machine.log.Grows (d.next s deed).machine.log
      ∧ d.recorded <+: (d.next s deed).recorded := by
  constructor
  · cases deed with
    | takeEvidence => exact .refl _
    | handle w input =>
      exact (d.machine.handle_acts s w input).keeps_machine
        (P := fun m => d.machine.log.Grows m.log)
        (fun act held => held.trans act.log_keeps.grows) (.refl _)
  · rw [recorded_next]
    exact List.prefix_append _ _

/-- Nor is anything lost by many deeds. -/
theorem grows_run (s : Setup) (d : Docket) (deeds : List Deed) :
    d.machine.log.Grows (d.run s deeds).machine.log
      ∧ d.recorded <+: (d.run s deeds).recorded := by
  induction deeds generalizing d with
  | nil => exact ⟨.refl _, List.prefix_refl _⟩
  | cons deed deeds ih =>
    have first := grows_next s d deed
    have rest := ih (d.next s deed)
    exact ⟨first.1.trans rest.1, first.2.trans rest.2⟩

end Docket

-- ========================================================== completeness

namespace Convicts

variable {a b : Vote}

/-- Of two votes that convict a validator neither is the first in itself. -/
theorem symm (h : Convicts s a b) : Convicts s b a :=
  ⟨⟨h.author.symm, h.height.symm, h.round.symm, h.kind.symm, h.kind ▸ h.counts,
    h.apart.symm, h.signed', h.signed⟩, h.height.trans h.here, h.power', h.power⟩

/-- Each of them states the power that its validator has. -/
theorem countable (h : Convicts s a b) : Vote.Countable s.scope a :=
  ⟨h.here, h.power, h.counts⟩

/-- Each of them is of this height and signed. -/
theorem passes (h : Convicts s a b) : Machine.voteRefusal? s a = none :=
  Machine.voteRefusal?_eq_none h.here h.counts h.signed

/-- What stands against the one stands against the other. -/
theorem standing?_eq (h : Convicts s a b) (log : HeightLog) :
    log.standing? b = log.standing? a := by
  unfold HeightLog.standing?
  rw [h.author, h.round, h.kind]

end Convicts

/-- Of two votes that convict a validator one is evidence at the latest when the
second of them was handled. -/
theorem Docket.Sound.exists_evidence {d : Docket} (sound : d.Sound s) {a b : Vote}
    (convicts : Convicts s a b)
    (unspent : ∀ fault,
      (d.machine.handle s w (.message (.vote a))).result = .error fault →
      fault.isSpent = false) (between : List Deed) (w' : World) :
    ∃ e ∈ (((d.next s (.vote w a)).run s between).next s (.vote w' b)).recorded,
      (e.second = a ∨ e.second = b) ∧ e.validator = a.body.validator
        ∧ e.round = a.body.round ∧ e.kind = a.body.kind := by
  obtain ⟨first, stands, seen⟩ := Machine.stands_of_handle sound.log
    convicts.countable convicts.passes (Or.inr unspent)
  have handled := sound.next (.vote w a)
  have later := handled.run between
  -- what stands after the first of them stands when the second comes
  have grown := grows_run s (d.next s (.vote w a)) between
  have last := grows_next s ((d.next s (.vote w a)).run s between) (.vote w' b)
  have stands' := (convicts.standing?_eq _).trans (grown.1.voteOf? stands)
  obtain ⟨_, again, seen'⟩ := Machine.stands_of_handle (w := w') later.log
    convicts.symm.countable convicts.symm.passes (Or.inl ⟨first, stands'⟩)
  cases (last.1.voteOf? stands').symm.trans again
  obtain ⟨-, author, -, round, kind⟩ := HeightLog.voteOf?_spec handled.log stands
  rcases seen with agrees | evidence
  · rcases seen' with agrees' | evidence
    · exact absurd (agrees.symm.trans agrees') convicts.apart
    · exact ⟨_, List.mem_append_right _ evidence, Or.inr rfl, author, round, kind⟩
  · have held := List.mem_append_right (d.next s (.vote w a)).taken evidence
    exact ⟨_, last.2.subset (grown.2.subset held), Or.inl rfl, author, round, kind⟩

/-- Evidence is of two votes that convict a validator, both of which were handed
in; and wherever two such votes were handled, and the first of them was not
refused for the allowance, there is evidence that names the validator, the round
and the kind. What is handled before, between and after them does not matter, nor
when evidence is taken away. -/
theorem evidence_sound_and_complete (s : Setup) :
    (∀ deeds, ∀ e ∈ (Docket.after s deeds).recorded,
      Convicts s e.first e.second
        ∧ Heard (Docket.after s deeds).given e.first
        ∧ Heard (Docket.after s deeds).given e.second)
      ∧ ∀ before between rest w w' a b, Convicts s a b →
        (∀ fault, ((Docket.after s before).machine.handle s w
          (.message (.vote a))).result = .error fault → fault.isSpent = false) →
        ∃ e ∈ (Docket.after s (before ++ .vote w a :: between
            ++ .vote w' b :: rest)).recorded,
          (e.second = a ∨ e.second = b) ∧ e.validator = a.body.validator
            ∧ e.round = a.body.round ∧ e.kind = a.body.kind := by
  refine ⟨fun deeds => (Docket.sound_after s deeds).evidence,
    fun before between rest w w' a b convicts unspent => ?_⟩
  obtain ⟨e, evidence, names⟩ := (Docket.sound_after s before).exists_evidence
    convicts unspent between w'
  have whole : Docket.after s (before ++ .vote w a :: between ++ .vote w' b :: rest)
      = ((((Docket.after s before).next s (.vote w a)).run s between).next s
        (.vote w' b)).run s rest := by
    unfold Docket.after
    rw [Docket.run_append, Docket.run_append]
    rfl
  refine ⟨e, ?_, names⟩
  rw [whole]
  exact (Docket.grows_run s _ rest).2.subset evidence

end

open scoped Plain

namespace Plain

/-- The second of four validators has prevoted for nothing before the machine of
the first is started. -/
def undecidedDeeds : List Deed :=
  [.vote world (cast 2 0 .nil .prevote), .handle world .start]

end Plain

open Plain in
/-- Neither of two votes for blocks is the one that stands, and the evidence of
the first of them is taken away before the second comes. -/
theorem evidence_sound_and_complete_of_third_vote :
    Convicts (setup (address 1)) (cast 2 0 (block 0).hash .prevote)
        (cast 2 0 (block 1).hash .prevote)
      ∧ ((Docket.after (setup (address 1)) undecidedDeeds).machine.handle
          (setup (address 1)) world
          (.message (.vote (cast 2 0 (block 0).hash .prevote)))).result
        = .error (.conflict (cast 2 0 .nil .prevote)
          (cast 2 0 (block 0).hash .prevote))
      ∧ ∃ e ∈ (Docket.after (setup (address 1)) (undecidedDeeds
            ++ .vote world (cast 2 0 (block 0).hash .prevote) :: [.takeEvidence]
            ++ .vote world (cast 2 0 (block 1).hash .prevote) :: [])).recorded,
        e.validator = address 2 ∧ e.round = 0 ∧ e.kind = .prevote := by
  have convicts : Convicts (setup (address 1)) (cast 2 0 (block 0).hash .prevote)
      (cast 2 0 (block 1).hash .prevote) :=
    ⟨⟨rfl, rfl, rfl, rfl, by decide, by decide +kernel, by decide +kernel,
      by decide +kernel⟩, rfl, by decide +kernel, by decide +kernel⟩
  have refused : ((Docket.after (setup (address 1)) undecidedDeeds).machine.handle
      (setup (address 1)) world
      (.message (.vote (cast 2 0 (block 0).hash .prevote)))).result
        = .error (.conflict (cast 2 0 .nil .prevote)
          (cast 2 0 (block 0).hash .prevote)) := by
    decide +kernel
  obtain ⟨-, complete⟩ := evidence_sound_and_complete (setup (address 1))
  obtain ⟨e, evidence, -, names⟩ := complete undecidedDeeds [.takeEvidence] [] world
    world _ _ convicts fun fault failed => by
      cases refused.symm.trans failed
      rfl
  exact ⟨convicts, refused, e, evidence, names⟩

end Quorum
