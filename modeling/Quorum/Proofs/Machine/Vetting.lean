/-
What a machine pins was found acceptable.

A machine remembers its verdicts by hash, and acts on a remembered one as
on a new one. So what stands behind a verdict is that at some turn the
world accepted a block of this hash (`Passed`): the very block, unless two
different ones with the same hash were proposed. Blocks are judged only as
they are proposed, under a hash that is their own, and every block that a
machine locks, remembers as valid or decides has a good verdict. All of
this is kept by every act (`Vetted.keeps`), because an act judges nothing
but the proposal it finds in its round (`Act.judges`).
-/
import Quorum.Proofs.Machine.Evicting
import Quorum.Proofs.Machine.Recorded

namespace Quorum

-- ============================================================ proposed

/-- A block was proposed at one of these turns. -/
def Proposed (turns : List (World × Input)) (block : Block) : Prop :=
  ∃ proposal, .message (.proposal proposal) ∈ turns.map (·.2)
    ∧ proposal.body.block = block

theorem Proposed.append {turns : List (World × Input)} {block : Block}
    (proposed : Proposed turns block) (more : List (World × Input)) :
    Proposed (turns ++ more) block := by
  obtain ⟨proposal, given, same⟩ := proposed
  refine ⟨proposal, ?_, same⟩
  rw [List.map_append]
  exact List.mem_append_left _ given

-- ====================================================== what acts judge

/-- All that a machine has pinned. -/
def Machine.pins (m : Machine) : List Pinned :=
  m.locked.toList ++ m.valid.toList ++ m.decision.toList

theorem Machine.mem_pins {m : Machine} {pin : Pinned} :
    pin ∈ m.pins ↔ m.locked = some pin ∨ m.valid = some pin
      ∨ m.decision = some pin := by
  unfold pins
  rw [List.mem_append, List.mem_append, Option.mem_toList, Option.mem_toList,
    Option.mem_toList, or_assoc]

/-- What an act judges and pins: nothing but the proposal held. -/
structure Judges (s : Setup) (w : World) (m m' : Machine) : Prop where
  verdicts : ∀ entry ∈ m'.verdicts.entries, entry ∈ m.verdicts.entries
    ∨ ∃ proposal, m.proposal? = some proposal
      ∧ entry = (proposal.body.hash, Work.accepts s w proposal.body.block)
  pins : ∀ pin ∈ m'.pins, pin ∈ m.pins
    ∨ ∃ proposal, m.proposal? = some proposal
      ∧ pin.hash = proposal.body.hash ∧ pin.block = proposal.body.block
      ∧ m.verdict s w pin.hash pin.block = true

section

variable {s : Setup} {w : World}

theorem judges_of_still {m m' : Machine} (verdicts : m'.verdicts = m.verdicts)
    (pins : m'.pins = m.pins) : Judges s w m m' where
  verdicts _ member := Or.inl (verdicts ▸ member)
  pins _ member := Or.inl (pins ▸ member)

theorem judges_of_relogs {m m' : Machine} (relogs : m.Relogs m') :
    Judges s w m m' := by
  obtain ⟨log, rfl, -⟩ := relogs
  exact judges_of_still rfl rfl

/-- The proposal held is judged, and may be pinned by a good verdict. -/
theorem judges_of_judged {m m' : Machine} {proposal : Proposal} {pinned : Pinned}
    (held : m.proposal? = some proposal)
    (pins : pinned = ⟨m.round, proposal.body.hash, proposal.body.block⟩)
    (verdicts : m'.verdicts
      = (m.judged s w pinned.hash pinned.block).verdicts)
    (only : ∀ pin ∈ m'.pins, pin ∈ m.pins
      ∨ pin = pinned ∧ m.verdict s w pinned.hash pinned.block = true) :
    Judges s w m m' := by
  subst pins
  constructor
  case verdicts =>
    intro entry member
    rw [verdicts] at member
    exact (VerdictCache.mem_of_mem_consult member).imp_right fun same =>
      ⟨proposal, held, same⟩
  case pins =>
    intro pin member
    refine (only pin member).imp_right fun ⟨same, good⟩ => ?_
    subst same
    exact ⟨proposal, held, rfl, rfl, good⟩

end

variable [Crypto] {s : Setup} {w : World} {input : Input}

/-- No act judges or pins anything but the proposal it finds. -/
theorem Act.judges {m m' : Machine} {es : List Effect}
    (act : Act s w input m es m') : Judges s w m m' := by
  cases act with
  | judge proposal held =>
    exact judges_of_judged held rfl rfl fun _ member => Or.inl member
  | claim claim => exact judges_of_relogs (Machine.addClaim_relogs s w m claim)
  | beginRound round log cause moved =>
    obtain ⟨opened, same, -⟩ := Machine.opening_relogs s w
      { m with log := log, round := round, step := .propose } round
    rw [same]
    exact judges_of_still rfl rfl
  | prevote proposal step held ripe =>
    exact judges_of_judged held rfl rfl fun _ member => Or.inl member
  | lock proposal pinned step held pins unseen majority valid marked seen =>
    obtain ⟨log, after, -⟩ := Machine.locked_eq seen
    rw [after]
    refine judges_of_judged held pins rfl fun pin member => ?_
    -- locked and valid become the same pin, and the decision stays
    rcases Machine.mem_pins.1 member with now | now | old
    · exact Or.inr ⟨(Option.some.inj now).symm, valid⟩
    · exact Or.inr ⟨(Option.some.inj now).symm, valid⟩
    · exact Or.inl (Machine.mem_pins.2 (Or.inr (Or.inr old)))
  | remember proposal pinned step held pins unseen majority valid =>
    refine judges_of_judged held pins rfl fun pin member => ?_
    rcases Machine.mem_pins.1 member with old | now | old
    · exact Or.inl (Machine.mem_pins.2 (Or.inl old))
    · exact Or.inr ⟨(Option.some.inj now).symm, valid⟩
    · exact Or.inl (Machine.mem_pins.2 (Or.inr (Or.inr old)))
  | wait kind waits =>
    exact judges_of_relogs (Machine.armed_relogs m m.round kind.slot)
  | decideBlock proposal pinned started undecided held pins majority valid
      pinning decided =>
    obtain ⟨log, after, -⟩ := Machine.decided_eq decided
    rw [after]
    refine judges_of_judged held pins rfl fun pin member => ?_
    rcases Machine.mem_pins.1 member with old | old | now
    · exact Or.inl (Machine.mem_pins.2 (Or.inl old))
    · exact Or.inl (Machine.mem_pins.2 (Or.inr (Or.inl old)))
    · exact Or.inr ⟨(Option.some.inj now).symm, valid⟩
  | _ => exact judges_of_still rfl rfl

-- =============================================================== turns

/-- At one of these turns the world accepted a block of this hash that was
proposed at one of them. -/
def Passed (s : Setup) (turns : List (World × Input)) (hash : BlockHash) :
    Prop :=
  ∃ turn ∈ turns, ∃ block, Proposed turns block ∧ block.hash = hash
    ∧ Work.accepts s turn.1 block = true

/-- Two different blocks with one hash were proposed at these turns. -/
def Clash (turns : List (World × Input)) : Prop :=
  ∃ block other, Proposed turns block ∧ Proposed turns other
    ∧ block ≠ other ∧ block.hash = other.hash

variable {turns : List (World × Input)} {block : Block} {hash : BlockHash}

/-- Where no hash was proposed for two blocks, a hash tells the block. -/
theorem block_eq_of_apart {other : Block} (apart : ¬ Clash turns)
    (proposed : Proposed turns block) (proposed' : Proposed turns other)
    (same : block.hash = other.hash) : block = other := by
  by_contra differs
  exact apart ⟨block, other, proposed, proposed', differs, same⟩

theorem Passed.append (passed : Passed s turns hash)
    (more : List (World × Input)) : Passed s (turns ++ more) hash := by
  obtain ⟨turn, taken, block, proposed, rest⟩ := passed
  exact ⟨turn, List.mem_append_left _ taken, block, proposed.append more, rest⟩

/-- Where no hash was proposed for two blocks, the block itself was
accepted. -/
theorem Passed.accepted (passed : Passed s turns block.hash)
    (proposed : Proposed turns block) (apart : ¬ Clash turns) :
    ∃ turn ∈ turns, Work.accepts s turn.1 block = true := by
  obtain ⟨turn, taken, other, named, same, accepted⟩ := passed
  have one : other = block := block_eq_of_apart apart named proposed same
  exact ⟨turn, taken, one ▸ accepted⟩

/-- What a machine's good verdicts and its pinned blocks rest on. -/
structure Vetted (s : Setup) (turns : List (World × Input)) (m : Machine) :
    Prop where
  sound : m.log.Sound s.scope (Heard (turns.map (·.2)))
    (Offered s (turns.map (·.2)))
  remembered : ∀ hash, (hash, true) ∈ m.verdicts.entries → Passed s turns hash
  proposed : ∀ pin ∈ m.pins, Proposed turns pin.block
  hash_eq : ∀ pin ∈ m.pins, pin.block.hash = pin.hash
  passed : ∀ pin ∈ m.pins, Passed s turns pin.hash

theorem Vetted.more {m : Machine} (h : Vetted s turns m) (turn : World × Input) :
    Vetted s (turns ++ [turn]) m where
  sound := by
    rw [List.map_append]
    exact log_sound_append h.sound _
  remembered hash known := (h.remembered hash known).append [turn]
  proposed pin member := (h.proposed pin member).append [turn]
  hash_eq := h.hash_eq
  passed pin member := (h.passed pin member).append [turn]

/-- An act judges a proposal of an earlier turn, or of its own, as the world
answers at its own. -/
theorem Vetted.keeps {m m' : Machine} {es : List Effect}
    (h : Vetted s (turns ++ [(w, input)]) m) (act : Act s w input m es m') :
    Vetted s (turns ++ [(w, input)]) m' := by
  -- the world is asked at the last turn, and what it is asked about was proposed by then
  have now : (w, input) ∈ turns ++ [(w, input)] :=
    List.mem_append_right _ (List.mem_singleton_self _)
  have held : ∀ {proposal}, m.proposal? = some proposal →
      Proposed (turns ++ [(w, input)]) proposal.body.block
        ∧ proposal.body.block.hash = proposal.body.hash := by
    intro proposal held
    obtain ⟨given, m₀, faultless⟩ := offered_of_proposal? h.sound held
    exact ⟨⟨proposal, given, rfl⟩, (block_of_proposalFault? faultless).1⟩
  have judges := act.judges
  constructor
  case sound =>
    have before := h.sound
    rw [List.map_append] at before ⊢
    exact act.log_sound before
  case remembered =>
    intro hash known
    rcases judges.verdicts _ known with old | ⟨proposal, place, same⟩
    · exact h.remembered hash old
    · obtain ⟨proposed, named⟩ := held place
      obtain ⟨rfl, accepted⟩ := Prod.mk.inj same
      exact ⟨_, now, _, proposed, named, accepted.symm⟩
  case proposed =>
    intro pin member
    rcases judges.pins pin member with old | ⟨proposal, place, -, block, -⟩
    · exact h.proposed pin old
    · rw [block]
      exact (held place).1
  case hash_eq =>
    intro pin member
    rcases judges.pins pin member with old | ⟨proposal, place, hash, block, -⟩
    · exact h.hash_eq pin old
    · rw [block, hash]
      exact (held place).2
  case passed =>
    intro pin member
    rcases judges.pins pin member with old | ⟨proposal, place, hash, block, good⟩
    · exact h.passed pin old
    · rcases VerdictCache.mem_or_of_consult good with known | accepted
      · exact h.remembered _ known
      · rw [block] at accepted
        rw [hash]
        exact ⟨_, now, _, (held place).1, (held place).2, accepted⟩

/-- Whatever a machine is given, all that it pins was proposed under its own
hash, and a block of this hash was accepted. -/
theorem vetted_after (s : Setup) (turns : List (World × Input)) :
    Vetted s turns (Life.after s turns).machine := by
  refine Life.after_keeps (P := fun turns m _ => Vetted s turns m) ?_ ?_ ?_ turns
  · intro turns w input m m' es asked act held
    exact held.keeps act
  · intro turns m asked turn held
    exact held.more turn
  · exact ⟨HeightLog.sound_start s.scope _ _, nofun, nofun, nofun, nofun⟩

end Quorum
