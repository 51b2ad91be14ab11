/-
Who waits for a proposal has the timer for it, or made one.

A round is opened with the timer that ends the wait for its proposal, or with a
proposal of one's own and without the timer. Both are said when the round begins
and stay true as long as the machine is in the proposing step (`Proposing`).

A proposal that was made is one that the machine itself could prevote on: it is
of the round, by the one whose turn it is, and if it carries a block forward, the
majority that it names is there (`Machine.Remembers`).
-/
import Quorum.Proofs.Machine.Arming
import Quorum.Proofs.Machine.Resting
import Quorum.Proofs.Machine.Vetting

namespace Quorum

-- ================================================ statement vocabulary

/-- A proposal of the current round by the one whose turn it is, which is this
machine, on a block that can be prevoted on. -/
structure Own [Crypto] (s : Setup) (m : Machine) (p : Proposal) : Prop where
  proposer : p.body.proposer = s.signer.address
  turn : s.scope.validators.proposerAddress s.scope.height m.round
    = s.signer.address
  height : p.body.height = s.scope.height
  round : p.body.round = m.round
  named : p.body.block.hash = p.body.hash
  ripe : Work.isRipe m p.body = true

/-- Who is in the proposing step has the timer for it, or made a proposal of its
own. -/
def Awaits [Crypto] (s : Setup) (m : Machine) (asked : List Effect) : Prop :=
  m.step = .propose →
    Scheduled asked ⟨s.scope.height, m.round, .propose⟩
      ∨ ∃ p, .publish (.proposal p) ∈ asked ∧ Own s m p

/-- What is remembered as valid had its majority in its round. -/
def Machine.Remembers (m : Machine) : Prop :=
  ∀ pin, m.valid = some pin → m.step ≠ .idle ∧ pin.round ≤ m.round
    ∧ m.prevoteMajority? pin.round = some pin.hash

-- ============================================================ what is kept

theorem Machine.Reached.round_le {m : Machine} {round : Round} {step : Step}
    (h : m.Reached round step) : round ≤ m.round := by
  rcases h with before | ⟨same, -⟩
  · exact UInt32.le_of_lt before
  · exact same ▸ UInt32.le_refl _

/-- A started machine stays started. -/
theorem Moves.started {m m' : Machine} {es : List Effect} (moves : Moves m es m')
    (started : m.step ≠ .idle) : m'.step ≠ .idle := by
  cases moves with
  | silent _ _ _ _ step => exact step_ne_idle_of_le started step
  | votes ballot _ _ _ _ _ real _ step =>
    rw [step]
    revert real
    cases ballot.kind <;> decide
  | begins _ _ _ _ _ step =>
    rw [step]
    decide

/-- A proposal that can be prevoted on can be in the rest of its round. -/
theorem isRipe_mono {m m' : Machine} {offer : Offer}
    (grows : m.log.Grows m'.log) (same : m'.round = m.round)
    (ripe : Work.isRipe m offer = true) : Work.isRipe m' offer = true := by
  unfold Work.isRipe at ripe ⊢
  split
  case h_1 => rfl
  case h_2 validRound claimed =>
    rw [claimed] at ripe
    simp only [Bool.and_eq_true, decide_eq_true_eq, beq_iff_eq] at ripe ⊢
    rw [same]
    exact ⟨ripe.1, grows.prevoteMajority ripe.2⟩

section

variable [Crypto] {s : Setup} {w : World} {input : Input} {m m' : Machine}
  {es asked : List Effect}

/-- What an act remembers as valid has the majority of this round. -/
theorem Act.valid_cases (act : Act s w input m es m') :
    m'.valid = m.valid
      ∨ ∃ pin, m'.valid = some pin ∧ m.step ≠ .idle ∧ pin.round = m.round
        ∧ m.prevoteMajority? m.round = some pin.hash := by
  cases act with
  | claim claim =>
    obtain ⟨log, same, -⟩ := Machine.addClaim_relogs s w m claim
    rw [same]
    exact Or.inl rfl
  | beginRound round log cause moved =>
    obtain ⟨opened, same, -⟩ := Machine.opening_relogs s w
      { m with log := log, round := round, step := .propose } round
    rw [same]
    exact Or.inl rfl
  | lock proposal pinned step held pins unseen majority =>
    refine Or.inr ⟨pinned, rfl, ?_, by rw [pins], majority⟩
    rw [step]
    decide
  | remember proposal pinned step held pins unseen majority =>
    refine Or.inr ⟨pinned, rfl, ?_, by rw [pins], majority⟩
    rw [step]
    decide
  | wait kind waits =>
    obtain ⟨log, same, -⟩ := Machine.armed_relogs m m.round kind.slot
    rw [same]
    exact Or.inl rfl
  | decideBlock proposal pinned started undecided held pins majority valid
      pinning decided =>
    obtain ⟨log, after, -⟩ := Machine.decided_eq decided
    rw [after]
    exact Or.inl rfl
  | _ => exact Or.inl rfl

theorem Machine.Remembers.keeps (h : m.Remembers) (signs : SignsForward m asked)
    (act : Act s w input m es m') : m'.Remembers := by
  have forward := (signs.forward act.moves).round_le
  have grows := act.log_keeps.grows
  intro pin held
  rcases act.valid_cases with same | ⟨pinned, now, started, here, majority⟩
  · obtain ⟨started, behind, majority⟩ := h pin (same ▸ held)
    exact ⟨act.moves.started started, UInt32.le_trans behind forward,
      grows.prevoteMajority majority⟩
  · cases now.symm.trans held
    rw [← here] at forward majority
    exact ⟨act.moves.started started, forward, grows.prevoteMajority majority⟩

-- ============================================================ the opening

theorem Own.keeps {p : Proposal} (own : Own s m p) (grows : m.log.Grows m'.log)
    (same : m'.round = m.round) : Own s m' p where
  proposer := own.proposer
  turn := same ▸ own.turn
  height := own.height
  round := own.round.trans same.symm
  named := own.named
  ripe := isRipe_mono grows same own.ripe

/-- What a machine opens a round with is a proposal that it can prevote on. -/
theorem own_of_blockToPropose {block : Block} {validRound : Option Round}
    (turn : s.scope.validators.proposerAddress s.scope.height m.round
      = s.signer.address)
    (remembered : ∀ pin, m.valid = some pin → pin.round < m.round
      ∧ m.prevoteMajority? pin.round = some pin.block.hash)
    (made : Work.blockToPropose s w m = .ok (block, validRound)) :
    Own s m (Signed.make s.signer (Offer.ofBlock m.round w.now s.signer.address
      validRound s.scope.height block)) := by
  refine ⟨rfl, turn, rfl, rfl, rfl, ?_⟩
  unfold Work.blockToPropose at made
  unfold Work.isRipe
  split at made
  case h_1 pin valid =>
    cases made
    obtain ⟨before, majority⟩ := remembered pin valid
    simpa [Signed.make, Offer.ofBlock] using ⟨before, majority⟩
  case h_2 =>
    split at made
    · cases made
      rfl
    · cases made

/-- A round that opens has its timer scheduled, or a proposal made for it. -/
theorem awaits_opening (asked : List Effect)
    (remembered : ∀ pin, m.valid = some pin → pin.round < m.round
      ∧ m.prevoteMajority? pin.round = some pin.block.hash)
    (armed : AllScheduled s (Machine.opening s w m m.round).1
      (asked ++ (Machine.opening s w m m.round).2)) :
    Awaits s (Machine.opening s w m m.round).1
      (asked ++ (Machine.opening s w m m.round).2) := by
  intro _
  have waits : ∀ {m' : Machine} {es : List Effect},
      m' = m.armed m.round .propose → AllScheduled s m' es →
      Scheduled es ⟨s.scope.height, m'.round, .propose⟩ := by
    intro m' es same armed
    obtain ⟨log, relogged, -⟩ := Machine.armed_relogs m m.round .propose
    have set : (m'.log.getOrFresh m'.round).isArmed .propose = true := by
      have round : m'.round = m.round := by rw [same, relogged]
      rw [round, same]
      exact Machine.isArmed_armed m m.round .propose
    obtain ⟨kind, slot, scheduled⟩ := armed m'.round .propose set
    cases kind <;> first | exact scheduled | cases slot
  unfold Machine.opening at armed ⊢
  split
  case isTrue turn =>
    rw [if_pos turn] at armed
    split
    case h_1 block validRound made =>
      refine Or.inr ⟨_, ?_, own_of_blockToPropose turn remembered made⟩
      simp
    case h_2 fault none_ =>
      rw [none_] at armed
      exact Or.inl (waits rfl armed)
  case isFalse other =>
    rw [if_neg other] at armed
    exact Or.inl (waits rfl armed)

/-- What a life up to a turn says of the wait for proposals. -/
structure Proposing (s : Setup) (turns : List (World × Input)) (m : Machine)
    (asked : List Effect) : Prop where
  signs : SignsForward m asked
  vetted : Vetted s turns m
  armed : AllScheduled s m asked
  remembers : m.Remembers
  awaits : Awaits s m asked

/-- When a round begins, what is remembered as valid had its majority in an
earlier one. -/
theorem Proposing.remembered {turns : List (World × Input)}
    (h : Proposing s turns m asked) {round : Round} {log : HeightLog}
    (cause : Cause s input m round) (moved : m.log.setRound round = .ok log) :
    ∀ pin, m.valid = some pin → pin.round < round
      ∧ Machine.prevoteMajority?
        { m with log := log, round := round, step := .propose } pin.round
        = some pin.block.hash := by
  have begun := h.signs.begins_later (HeightLog.round_setRound moved).1 cause.later
  intro pin held
  obtain ⟨started, behind, majority⟩ := h.remembers pin held
  have later := begun.resolve_left fun first => started first.1
  have pinned : pin ∈ m.pins := Machine.mem_pins.2 (Or.inr (Or.inl held))
  rw [Machine.prevoteMajority?_eq_record, HeightLog.getOrFresh_setRound moved,
    ← Machine.prevoteMajority?_eq_record, majority,
    h.vetted.hash_eq pin pinned]
  exact ⟨UInt32.lt_of_le_of_lt behind later, rfl⟩

theorem Proposing.keeps {turns : List (World × Input)}
    (h : Proposing s (turns ++ [(w, input)]) m asked)
    (act : Act s w input m es m') :
    Proposing s (turns ++ [(w, input)]) m' (asked ++ es) := by
  have armed := h.armed.keeps act
  refine ⟨h.signs.keeps act.moves, h.vetted.keeps act, armed,
    h.remembers.keeps h.signs act, fun here => ?_⟩
  rcases act.of_propose here with ⟨before, same⟩
    | ⟨round, log, cause, moved, after, asks⟩
  · rw [same]
    rcases h.awaits before with scheduled | ⟨p, sent, own⟩
    · exact Or.inl (scheduled.append es)
    · exact Or.inr ⟨p, List.mem_append_left _ sent,
        own.keeps act.log_keeps.grows same⟩
  · subst after asks
    have remembered := h.remembered cause moved
    have opened := awaits_opening (s := s) (w := w)
      (m := { m with log := log, round := round, step := .propose })
      (asked ++ [.emit (.roundStarted s.scope.height round),
        .emit (.stepChanged s.scope.height round .propose)]) remembered
    rw [List.append_assoc] at opened
    exact opened armed here

/-- Whatever a machine is given, it waits with its timer or has proposed. -/
theorem proposing_after (s : Setup) (turns : List (World × Input)) :
    Proposing s turns (Life.after s turns).machine (Life.after s turns).asked := by
  refine Life.after_keeps (P := fun turns m asked => Proposing s turns m asked)
    ?_ ?_ ?_ turns
  · intro turns w input m m' es asked act held
    exact held.keeps act
  · intro turns m asked turn held
    exact { held with vetted := held.vetted.more turn }
  · refine ⟨(reachable_after s []).signsForward, vetted_after s [],
      allScheduled_initial s, nofun, nofun⟩

end

end Quorum
