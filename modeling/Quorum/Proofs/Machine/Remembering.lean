/-
Nothing depends on what is remembered of verdicts.

The memory of verdicts is bounded, and what it forgets is judged again. Two
machines of different capacity forget at different moments, so their memories are
never the same for long. What is the same is what they are told: each memory is
fair (`VerdictCache.Fair`), that is, what it has under the hash of a block that
was proposed is what the world thinks of this block. It stays so because blocks
are judged only as they were proposed, under a hash that is their own, and no two
blocks have one hash. Then it is of no account whether a verdict is remembered
or passed again (`Work.judge_agree`).

What is left are the functions. Those that ask for no verdict do the same with
any memory, and those that do agree as long as both memories are fair
(`Work.Agree`). So two machines agree at every input (`Machine.handle_agree`),
and live the same life, however much either of them can remember
(`memory_makes_no_difference`).
-/
import Quorum.Proofs.Machine.Pinning
import Quorum.Proofs.Machine.Recalling
import Quorum.Proofs.Machine.Settled

namespace Quorum

-- ========================================================== fair memories

section

variable [Crypto] {s : Setup} {w : World} {turns : List (World × Input)}
  {c : VerdictCache} {block : Block}

namespace VerdictCache

/-- A memory without verdicts has none that is wrong. -/
theorem fair_empty (capacity : Nat) : (empty capacity).Fair s w turns := nofun

/-- What is fair to a world is fair to one that thinks the same of blocks. -/
theorem Fair.world_congr {w' : World} (fair : c.Fair s w turns)
    (same : w'.validate = w.validate) : c.Fair s w' turns := by
  intro entry member block proposed named
  rw [Work.accepts_congr same]
  exact fair entry member block proposed named

/-- A memory that is asked for a block proposed stays fair. -/
theorem Fair.consult (fair : c.Fair s w turns) (apart : ¬Clash turns)
    (proposed : Proposed turns block) :
    (c.consult block.hash fun () => Work.accepts s w block).2.Fair s w turns := by
  intro entry member other proposed' same
  rcases mem_of_mem_consult member with old | rfl
  · exact fair entry old other proposed' same
  · rw [block_eq_of_apart apart proposed' proposed same]

end VerdictCache

/-- The proposal held is one of the turns, under the hash of its own block, and
the memory is fair. -/
structure Machine.Candid (s : Setup) (w : World) (turns : List (World × Input))
    (m : Machine) : Prop where
  proposed : ∀ p, m.proposal? = some p → Proposed turns p.body.block
  named : ∀ p, m.proposal? = some p → p.body.block.hash = p.body.hash
  fair : m.verdicts.Fair s w turns

end

-- ============================================================= agreement

namespace Work

variable [Crypto]

/-- The same was done, but for the memory, and that is fair. -/
def Agree {α : Type} (s : Setup) (w : World) (turns : List (World × Input))
    (a b : Work × α) : Prop :=
  ∃ memory : VerdictCache, memory.Fair s w turns ∧ b = recalled memory a

/-- From here on, as long as this input is handled, the machine is candid. -/
def Candid (s : Setup) (w : World) (input : Input) (turns : List (World × Input))
    (k : Work) : Prop :=
  ∀ k', Reaches s w input k k' → k'.machine.Candid s w turns

variable {s : Setup} {w : World} {input : Input} {turns : List (World × Input)}
  {k : Work} {memory : VerdictCache}

/-- What may still be reached later may be reached from here. -/
theorem Candid.after {k' : Work} (candid : Candid s w input turns k)
    (reaches : Reaches s w input k k') : Candid s w input turns k' :=
  fun later more => candid later (reaches.trans more)

/-- Two attempts that agree go on in agreement, if the next part agrees from there
with any fair memory. -/
theorem Agree.andThen {a b : Attempt} {next : Work → Attempt}
    (agree : Agree s w turns a b)
    (further : a.2 = .ok () → ∀ memory : VerdictCache, memory.Fair s w turns →
      Agree s w turns (next a.1) (next (a.1.recalling memory))) :
    Agree s w turns (a.andThen next) (b.andThen next) := by
  obtain ⟨memory, fair, rfl⟩ := agree
  obtain ⟨k, result⟩ := a
  cases result with
  | error fault => exact ⟨memory, fair, rfl⟩
  | ok _ => exact further rfl memory fair

variable (candid : Candid s w input turns k) (apart : ¬Clash turns)
  (fair : memory.Fair s w turns)

include candid in
/-- The verdict on the proposal held is the world's on its block. -/
theorem judge_eq_accepts {p : Proposal} (held : k.machine.proposal? = some p) :
    (k.judge s w p.body.hash p.body.block).2 = accepts s w p.body.block := by
  have here := candid k (.refl k)
  rw [← here.named p held]
  exact here.fair.verdict (here.proposed p held)

include candid apart fair

/-- Both memories tell the same verdict, and asking keeps the other one fair. -/
theorem judge_agree {p : Proposal} (held : k.machine.proposal? = some p) :
    Agree s w turns (k.judge s w p.body.hash p.body.block)
      ((k.recalling memory).judge s w p.body.hash p.body.block) := by
  have here := candid k (.refl k)
  have proposed := here.proposed p held
  have verdict := judge_eq_accepts candid held
  rw [← here.named p held] at verdict ⊢
  refine ⟨_, fair.consult apart proposed, Prod.ext rfl ?_⟩
  exact (fair.verdict proposed).trans verdict.symm

/-- The first rule asks for one verdict, and votes by it. -/
theorem prevoteRule_agree :
    Agree s w turns (k.prevoteRule s w) ((k.recalling memory).prevoteRule s w) := by
  unfold prevoteRule
  rw [proposal?_recalling]
  show Agree s w turns _ (if k.machine.step = .propose then _ else _)
  split
  case isFalse => exact ⟨memory, fair, rfl⟩
  case isTrue =>
    cases held : k.machine.proposal? with
    | none => exact ⟨memory, fair, rfl⟩
    | some p =>
      show Agree s w turns _ (if isRipe k.machine p.body then _ else _)
      dsimp only
      split
      case isFalse => exact ⟨memory, fair, rfl⟩
      case isTrue =>
        -- one question; what follows is blind to the memory
        obtain ⟨memory', fair', same⟩ := judge_agree candid apart fair held
        refine ⟨memory', fair', ?_⟩
        unfold prevoteOn
        rw [same]
        exact enterPrevote_recalling _ memory' _ _

/-- The lock rule asks for one verdict, and what it does with it needs no other. -/
theorem lockRule_agree :
    Agree s w turns (k.lockRule s w) ((k.recalling memory).lockRule s w) := by
  unfold lockRule
  rw [proposal?_recalling]
  show Agree s w turns _
    (if k.machine.step = .prevote ∨ k.machine.step = .precommit then _ else _)
  split
  case isFalse => exact ⟨memory, fair, rfl⟩
  case isTrue =>
    cases held : k.machine.proposal? with
    | none => exact ⟨memory, fair, rfl⟩
    | some p =>
      obtain ⟨memory', fair', same⟩ := judge_agree candid apart fair held
      dsimp only
      rw [same]
      show Agree s w turns _ (if !(k.machine.log.getOrFresh k.machine.round).quorumSeen
        ∧ k.machine.prevoteMajority? k.machine.round = some p.body.hash then _ else _)
      split
      case isFalse => exact ⟨memory, fair, rfl⟩
      case isTrue =>
        refine ⟨memory', fair', ?_⟩
        -- whether the verdict is good or not, it is the same for both
        generalize k.judge s w p.body.hash p.body.block = judged
        obtain ⟨k', valid⟩ := judged
        cases valid with
        | false => rfl
        | true => exact congrArg (·, true) (actOnQuorum_recalling k' memory' _)

/-- A decision asks for one verdict too. -/
theorem decideRule_agree :
    Agree s w turns (k.decideRule s w) ((k.recalling memory).decideRule s w) := by
  unfold decideRule
  rw [proposal?_recalling]
  cases held : k.machine.proposal? with
  | none => exact ⟨memory, fair, rfl⟩
  | some p =>
    obtain ⟨memory', fair', same⟩ := judge_agree candid apart fair held
    dsimp only
    rw [same]
    show Agree s w turns _
      (if k.machine.precommitMajority? k.machine.round = some p.body.hash then _ else _)
    split
    case isFalse => exact ⟨memory, fair, rfl⟩
    case isTrue =>
      refine ⟨memory', fair', ?_⟩
      generalize k.judge s w p.body.hash p.body.block = judged
      obtain ⟨k', valid⟩ := judged
      cases valid with
      | false => rfl
      | true => exact congrArg (·, true) (decideOn_recalling k' memory' _)

/-- To decide agrees, and to follow is blind. -/
theorem advance_agree (round : Round) :
    Agree s w turns (k.advance s w round)
      ((k.recalling memory).advance s w round) := by
  unfold advance
  show Agree s w turns _
    (if k.machine.step = .idle ∨ k.machine.decision.isSome then _ else _)
  split
  case isTrue => exact ⟨memory, fair, rfl⟩
  case isFalse =>
    obtain ⟨memory', fair', same⟩ := decideRule_agree candid apart fair
    refine ⟨memory', fair', ?_⟩
    rw [same]
    generalize k.decideRule s w = after
    obtain ⟨k', decides⟩ := after
    cases decides with
    | true => rfl
    | false => exact followRule_recalling k' memory' _

/-- A pass agrees rule by rule, each with the memory that the one before it left. -/
theorem pass_agree :
    Agree s w turns (k.pass s w) ((k.recalling memory).pass s w) := by
  obtain ⟨memory', fair', votes⟩ := prevoteRule_agree candid apart fair
  have candid' : Candid s w input turns ((k.prevoteRule s w).1.prevoteWaitRule s).1 :=
    candid.after ((prevoteRule_reaches k).trans (prevoteWaitRule_reaches _))
  obtain ⟨memory'', fair'', locks⟩ := lockRule_agree candid' apart fair'
  refine ⟨memory'', fair'', ?_⟩
  unfold pass
  simp only [votes, locks, recalled_fst, recalled_snd, prevoteWaitRule_recalling,
    otherMajorityRule_recalling, precommitWaitRule_recalling]
  unfold recalled
  dsimp only

/-- By induction on the passes left, the memory changing with each. -/
theorem passes_agree (limit left : Nat) :
    Agree s w turns (passes s w limit left k)
      (passes s w limit left (k.recalling memory)) := by
  induction left generalizing k memory with
  | zero => exact ⟨memory, fair, rfl⟩
  | succ left ih =>
    obtain ⟨memory', fair', same⟩ := pass_agree candid apart fair
    have further := ih (candid.after (pass_reaches k)) fair'
    unfold passes
    rw [same]
    generalize k.pass s w = after at further ⊢
    obtain ⟨k', changed⟩ := after
    cases changed with
    | true => exact further
    | false => exact ⟨memory', fair', rfl⟩

/-- The rules agree until they rest or are stopped. -/
theorem settle_agree :
    Agree s w turns (k.settle s w) ((k.recalling memory).settle s w) := by
  unfold settle
  show Agree s w turns _ (if k.machine.step = .idle then _ else _)
  split
  case isTrue => exact ⟨memory, fair, rfl⟩
  case isFalse => exact passes_agree candid apart fair _ _

/-- A start asks for a verdict only where it decides at once. -/
theorem start_agree (told : input = .start) :
    Agree s w turns (k.start s w) ((k.recalling memory).start s w) := by
  unfold start
  show Agree s w turns _ (if k.machine.step ≠ .idle then _ else _)
  split
  case isTrue => exact ⟨memory, fair, rfl⟩
  case isFalse idle =>
    rw [Decidable.not_not] at idle
    have begins : Agree s w turns (k.startRound s w 0)
        ((k.recalling memory).startRound s w 0) :=
      ⟨memory, fair, startRound_recalling k memory 0⟩
    refine begins.andThen fun _ memory fair => ?_
    exact advance_agree (candid.after (startRound_reaches (.start told idle rfl)))
      apart fair 0

/-- Taking a message in is blind, but it may let the machine decide. -/
theorem takeMessage_agree {message : Message} (given : input = .message message) :
    Agree s w turns (k.takeMessage s w message)
      ((k.recalling memory).takeMessage s w message) := by
  unfold takeMessage
  split
  case isTrue => exact ⟨memory, fair, rfl⟩
  case isFalse =>
    cases message with
    | proposal proposal =>
      have takes : Agree s w turns (k.addProposal s proposal)
          ((k.recalling memory).addProposal s proposal) :=
        ⟨memory, fair, addProposal_recalling k memory proposal⟩
      refine takes.andThen fun _ memory fair => ?_
      exact advance_agree (candid.after (addProposal_reaches given)) apart fair _
    | vote vote =>
      have counts : Agree s w turns (k.addVote s w vote)
          ((k.recalling memory).addVote s w vote) :=
        ⟨memory, fair, addVote_recalling k memory vote⟩
      refine counts.andThen fun _ memory fair => ?_
      exact advance_agree (candid.after (addVote_reaches given)) apart fair _
    | claim claim => exact ⟨memory, fair, takeClaim_recalling k memory claim⟩
    | holdings holdings =>
      exact ⟨memory, fair, takeHoldings_recalling k memory holdings⟩

/-- A timer asks for no verdict at all. -/
theorem apply_agree :
    Agree s w turns (k.apply s w input) ((k.recalling memory).apply s w input) := by
  cases input with
  | start => exact start_agree candid apart fair rfl
  | message message => exact takeMessage_agree candid apart fair rfl
  | timer timer => exact ⟨memory, fair, takeTimer_recalling k memory timer⟩

/-- The whole of an input agrees. -/
theorem run_agree :
    Agree s w turns (k.run s w input) ((k.recalling memory).run s w input) := by
  refine (apply_agree candid apart fair).andThen fun _ memory fair => ?_
  exact settle_agree (candid.after (apply_reaches k)) apart fair

end Work

-- ================================================================= turns

/-- The outcome with another memory in its machine. -/
def Outcome.recalling (outcome : Outcome) (memory : VerdictCache) : Outcome :=
  { outcome with machine := outcome.machine.recalling memory }

/-- The life with another memory in its machine. -/
def Life.recalling (l : Life) (memory : VerdictCache) : Life :=
  { l with machine := l.machine.recalling memory }

/-- The setup with room for another number of verdicts. -/
def Setup.remembering (s : Setup) (capacity : UInt64) : Setup :=
  { s with settings := { s.settings with verdictCapacity := capacity } }

/-- The rules do not look at the capacity that was set. -/
theorem Work.passes_remembering {s : Setup} {w : World} (capacity : UInt64)
    (limit left : Nat) (k : Work) :
    passes (s.remembering capacity) w limit left k = passes s w limit left k := by
  induction left generalizing k with
  | zero => rfl
  | succ left ih =>
    have same : k.pass (s.remembering capacity) w = k.pass s w := rfl
    unfold passes
    dsimp only
    rw [same, ih]

section

variable [Crypto] {s : Setup} {w : World} {turns : List (World × Input)}

/-- What is known of the machine and its verdicts is known throughout the turn. -/
theorem Work.Reaches.judged {here : World} {input : Input} {k k' : Work}
    (reaches : Reaches s here input k k')
    (judged : Judged s w (turns ++ [(here, input)]) k.machine) :
    Judged s w (turns ++ [(here, input)]) k'.machine := by
  obtain ⟨es, -, acts⟩ := reaches
  exact acts.keeps_machine (fun act judged => judged.keeps act) judged

/-- How much a memory can hold is asked when it is made, and never again. -/
theorem Machine.handle_remembering (s : Setup) (capacity : UInt64) (w : World)
    (m : Machine) (input : Input) :
    m.handle (s.remembering capacity) w input = m.handle s w input := by
  have applied : (Work.ofMachine m).apply (s.remembering capacity) w input
      = (Work.ofMachine m).apply s w input := by
    cases input <;> rfl
  have settled : ∀ k : Work, k.settle (s.remembering capacity) w = k.settle s w := by
    intro k
    unfold Work.settle
    rw [Work.passes_remembering]
    rfl
  unfold handle Work.run
  simp only [applied, settled]

/-- Given a fair memory in place of its own, a candid machine handles an input as it
would have, and is left with a fair memory again. -/
theorem Machine.handle_agree {m : Machine} {input : Input} {memory : VerdictCache}
    (candid : Work.Candid s w input turns (Work.ofMachine m)) (apart : ¬Clash turns)
    (fair : memory.Fair s w turns) :
    ∃ memory' : VerdictCache, memory'.Fair s w turns
      ∧ (m.recalling memory).handle s w input
        = (m.handle s w input).recalling memory' := by
  obtain ⟨memory', fair', same⟩ := Work.run_agree candid apart fair
  refine ⟨memory', fair', ?_⟩
  exact congrArg (fun a : Attempt => Outcome.mk a.1.machine a.1.effects a.2) same

variable {past : List (World × Input)} {turn : World × Input}
  (unchanging : Unchanging w turns) (apart : ¬Clash turns)

include unchanging apart

/-- In an unchanging world with no two blocks of one hash, a machine is candid
during every turn. -/
theorem Work.candid_of_turn (taken : past ++ [turn] <+: turns) :
    Candid s turn.1 turn.2 turns (ofMachine (Life.after s past).machine) := by
  intro k reaches
  have judged : Judged s w (past ++ [turn]) k.machine :=
    reaches.judged ((judged_after s w past).more turn)
  have fair := judged.fair unchanging apart taken
  refine ⟨fun p held => ?_, fun p held => (judged.vetted.held held).2,
    fair.world_congr (unchanging.of_prefix taken).last⟩
  obtain ⟨more, rfl⟩ := taken
  exact (judged.vetted.held held).1.append more

/-- At any of these turns, with a fair memory in place of its own, a machine does
the same, and its memory is fair again. -/
theorem Machine.handle_recalling {memory : VerdictCache}
    (taken : past ++ [turn] <+: turns) (fair : memory.Fair s w turns) :
    ∃ memory' : VerdictCache, memory'.Fair s w turns
      ∧ ((Life.after s past).machine.recalling memory).handle s turn.1 turn.2
        = ((Life.after s past).machine.handle s turn.1 turn.2).recalling memory' := by
  have same := (unchanging.of_prefix taken).last
  obtain ⟨memory', fair', handled⟩ := handle_agree
    (Work.candid_of_turn (s := s) unchanging apart taken) apart
    (fair.world_congr same)
  exact ⟨memory', fair'.world_congr same.symm, handled⟩

/-- The same turns lead to the same life, whatever the capacity, but for the
memory. -/
theorem Life.after_remembering (capacity : UInt64) (taken : past <+: turns) :
    ∃ memory : VerdictCache, memory.Fair s w turns
      ∧ after (s.remembering capacity) past = (after s past).recalling memory := by
  induction past using List.reverseRecOn with
  | nil => exact ⟨.empty capacity.toNat, VerdictCache.fair_empty _, rfl⟩
  | append_singleton past turn ih =>
    obtain ⟨memory, fair, same⟩ := ih ((List.prefix_append _ _).trans taken)
    obtain ⟨memory', fair', handled⟩ :=
      Machine.handle_recalling (s := s) unchanging apart taken fair
    refine ⟨memory', fair', ?_⟩
    rw [after_snoc, after_snoc, same]
    unfold next
    rw [Machine.handle_remembering]
    show Life.mk (((after s past).machine.recalling memory).handle s turn.1
      turn.2).machine _ (_ ++ (((after s past).machine.recalling memory).handle s
        turn.1 turn.2).effects) = _
    rw [handled]
    rfl

end

/-- What a machine remembers of its verdicts makes no difference. In a world
that does not change its mind about blocks, and where no two blocks of one hash
were proposed, take two machines that differ in how many verdicts they can
remember. They live the same life, and every input has the same effects and the
same result with both: what they remember in the end is all they differ in. Nor
does it make a difference if at any turn a machine is given another memory, as
long as it has nothing wrong in it under the hash of a block proposed. For what
is judged is the proposal held and nothing else, under the hash that its block
has, and the verdict is that the block is of this height and that the world
accepts it. -/
theorem memory_makes_no_difference [Crypto] (s : Setup) (w : World)
    (turns : List (World × Input)) (unchanging : Unchanging w turns)
    (apart : ¬Clash turns) (capacity : UInt64) :
    (∃ memory, Life.after (s.remembering capacity) turns
      = (Life.after s turns).recalling memory)
    ∧ ∀ past turn, past ++ [turn] <+: turns →
      let m := (Life.after s past).machine
      let m' := (Life.after (s.remembering capacity) past).machine
      (∃ memory, m'.handle (s.remembering capacity) turn.1 turn.2
        = (m.handle s turn.1 turn.2).recalling memory)
      ∧ (∀ memory : VerdictCache, memory.Fair s w turns →
        ∃ memory', (m.recalling memory).handle s turn.1 turn.2
          = (m.handle s turn.1 turn.2).recalling memory')
      ∧ ∀ k, Work.Reaches s turn.1 turn.2 (Work.ofMachine m) k →
        (∀ p, k.machine.proposal? = some p → p.body.block.hash = p.body.hash
          ∧ (k.judge s turn.1 p.body.hash p.body.block).2
            = Work.accepts s w p.body.block)
        ∧ ∀ es m'', Act s turn.1 turn.2 k.machine es m'' →
          m''.verdicts = k.machine.verdicts
          ∨ ∃ p, k.machine.proposal? = some p ∧ m''.verdicts
            = (k.judge s turn.1 p.body.hash p.body.block).1.machine.verdicts := by
  constructor
  · obtain ⟨memory, -, same⟩ := Life.after_remembering (s := s) unchanging apart
      capacity (List.prefix_refl turns)
    exact ⟨memory, same⟩
  intro past turn taken
  refine ⟨?_, fun memory fair => ?_, fun k reaches => ⟨fun p held => ?_, ?_⟩⟩
  · obtain ⟨memory, fair, same⟩ := Life.after_remembering (s := s) unchanging apart
      capacity ((List.prefix_append past [turn]).trans taken)
    obtain ⟨memory', -, handled⟩ :=
      Machine.handle_recalling (s := s) unchanging apart taken fair
    refine ⟨memory', ?_⟩
    rw [Machine.handle_remembering, same]
    exact handled
  · obtain ⟨memory', -, handled⟩ :=
      Machine.handle_recalling (s := s) unchanging apart taken fair
    exact ⟨memory', handled⟩
  · have candid := (Work.candid_of_turn (s := s) unchanging apart taken).after reaches
    refine ⟨(candid k (.refl k)).named p held, ?_⟩
    rw [Work.judge_eq_accepts candid held,
      Work.accepts_congr (unchanging.of_prefix taken).last]
  · intro es m'' act
    exact act.verdicts_cases

-- =============================================================== examples

open scoped Plain

open Plain in
/-- Two blocks are proposed, and a machine with room for one verdict has
forgotten the first. Otherwise it is where one with room for both is. -/
theorem memory_makes_no_difference_of_outrun :
    Unchanging world outrunTurns ∧ ¬Clash outrunTurns
      ∧ (Life.after (setup (address 1)) outrunTurns).machine.verdicts.size = 2
      ∧ (Life.after ((setup (address 1)).remembering 0)
        outrunTurns).machine.verdicts.size = 1
      ∧ ∃ memory, Life.after ((setup (address 1)).remembering 0) outrunTurns
        = (Life.after (setup (address 1)) outrunTurns).recalling memory := by
  have unchanging : Unchanging world outrunTurns :=
    unchanging_of_world (by simp [outrunTurns, offer, votes, vote, timer])
  -- the turns hold two offers, of which the second is of another block
  have two : ∀ b, Proposed outrunTurns b → b = block 0 ∨ b = block 1 := by
    rintro b ⟨proposal, given, rfl⟩
    simp only [outrunTurns, offer, votes, vote, timer, List.map_append, List.map_cons,
      List.map_nil, List.mem_append, List.mem_cons, Input.message.injEq,
      Message.proposal.injEq, reduceCtorEq, List.not_mem_nil, or_false, false_or] at given
    rcases given with rfl | rfl
    · exact Or.inl rfl
    · exact Or.inr rfl
  have hashes : (block 0).hash ≠ (block 1).hash := by
    decide +kernel
  have apart : ¬Clash outrunTurns := by
    rintro ⟨b, c, proposed, proposed', differs, same⟩
    rcases two b proposed with rfl | rfl <;> rcases two c proposed' with rfl | rfl
    · exact differs rfl
    · exact hashes same
    · exact hashes same.symm
    · exact differs rfl
  refine ⟨unchanging, apart, by decide +kernel, by decide +kernel, ?_⟩
  exact (memory_makes_no_difference (setup (address 1)) world outrunTurns unchanging
    apart 0).1

end Quorum
