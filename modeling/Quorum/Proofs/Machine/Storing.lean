/-
What is stored is in its place, and belongs there.

Rounds, votes and proposals come in by many ways: rounds are opened by votes, by
claims and when others begin, votes and proposals are checked in one place and
stored in another. Most of what is true of a stored vote or proposal is what it
was checked for, and is kept since (`Reachable.log_sound`, `Reachable.thrifty`);
that no proposal is ahead of the machine is in `Machine.Onward`. Two things are
left to see.

No round up to the current one is missing (`HeightLog.Filled`). Rounds are never
taken away, so this need be looked at only where a round begins, and all rounds up
to it are opened then.

A tally does not say which validators it counts for. That it counts for those of
the machine means that a new tally would count the same votes in the same way:
all its counters and its majority are made of the votes it has
(`Tally.OfOwnVotes`). To record a vote keeps this, and nothing else touches a
tally but for claims.
-/
import Quorum.Proofs.Machine.Bounding
import Quorum.Proofs.Record.Shuffling

namespace Quorum

-- ================================================ statement vocabulary

/-- A tally counts its votes as a new one for this round and kind does, at the
height and with the validators given. Claims apart, there is nothing else in
it. -/
def Tally.OfOwnVotes (s : Scope) (round : Round) (kind : VoteKind) (t : Tally) : Prop :=
  (ofVotes s round kind t.votes).Alike t

/-- All rounds up to the current one are there. -/
def HeightLog.Filled (h : HeightLog) : Prop :=
  ∀ round, round ≤ h.round → ∃ l, h.get? round = some l

section

variable [Crypto]

/-- A tally of a round and kind, with votes that belong there. -/
structure Tally.WellFormed (s : Scope) (round : Round) (kind : VoteKind) (t : Tally) :
    Prop where
  round_eq : t.round = round
  kind_eq : t.kind = kind
  counted : t.OfOwnVotes s round kind
  /-- A vote is found under its own validator, and nobody has two. -/
  filed : ∀ vote ∈ t.votes, t.voteOf? vote.body.validator = some vote
  votes : ∀ address vote, t.voteOf? address = some vote →
    vote.body.validator = address ∧ t.Fits s vote ∧ vote.verify = true

/-- A proposal that belongs in a round, which is not ahead of the current one. -/
structure Proposal.WellFormed (s : Scope) (current round : Round) (p : Proposal) :
    Prop where
  near : round ≤ current
  round_eq : p.body.round = round
  height : p.body.height = s.height
  signed : p.verify = true
  turn : p.body.proposer = s.validators.proposerAddress s.height round
  placed : p.body.block.height = s.height
  named : p.body.block.hash = p.body.hash
  carries : ∀ valid, p.body.validRound = some valid → valid < round

/-- The record of a round, with what belongs there. -/
structure RoundLog.WellFormed (s : Scope) (current round : Round) (l : RoundLog) :
    Prop where
  round_eq : l.round = round
  prevotes : l.prevotes.WellFormed s round .prevote
  precommits : l.precommits.WellFormed s round .precommit
  proposal : ∀ p, l.proposal = some p → p.WellFormed s current round

/-- What a machine has stored is complete, each round is there once, and what is
in it belongs there. -/
structure Machine.WellFormed (s : Setup) (m : Machine) : Prop where
  placed : m.log.round = m.round
  filled : m.log.Filled
  single : ∀ l ∈ m.log.rounds, m.log.get? l.round = some l
  rounds : ∀ round l, m.log.get? round = some l → l.WellFormed s.scope m.round round

end

-- ================================================================ tallies

namespace Tally

variable {s : Scope} {round : Round} {kind : VoteKind} {t t' : Tally}

/-- Tallies that differ in claims only still do after a vote. -/
theorem Alike.record (alike : t.Alike t') (s : Scope) (vote : Vote) :
    (t.record s vote).Alike (t'.record s vote) := by
  obtain ⟨votes, power, shares, majority⟩ := alike
  constructor
  case votes => rw [record_votes, record_votes, votes]
  case power => rw [record_power, record_power, power]
  case shares => rw [record_shares, record_shares, shares]
  case majority =>
    unfold Tally.record Tally.powerFor
    dsimp only
    rw [shares, majority]
    split <;> rfl

/-- A new tally is made of no votes. -/
theorem ofOwnVotes_empty (s : Scope) (round : Round) (kind : VoteKind) :
    OfOwnVotes s round kind { round := round, kind := kind } := .refl _

/-- Claims are not counted. -/
theorem OfOwnVotes.congr (own : t.OfOwnVotes s round kind) (alike : t.Alike t') :
    t'.OfOwnVotes s round kind := by
  unfold OfOwnVotes at own ⊢
  rw [alike.votes]
  exact own.trans alike

/-- A new tally admits what the tally admits that has the same votes. -/
theorem OfOwnVotes.record {vote : Vote} (own : t.OfOwnVotes s round kind)
    (round_eq : t.round = round) (kind_eq : t.kind = kind)
    (admitted : t.refusal? s vote = none) :
    (t.record s vote).OfOwnVotes s round kind := by
  have fits := fits_of_refusal? admitted
  have unknown : t.voteOf? vote.body.validator = none := by
    rw [refusal?_of_fits fits, Option.map_eq_none_iff] at admitted
    exact admitted
  have sound := (sound_complete_ofVotes s round kind t.votes).1
  have added : (ofVotes s round kind t.votes).call s (.vote vote)
      = (ofVotes s round kind t.votes).record s vote := by
    rcases call_vote_cases s (ofVotes s round kind t.votes) vote
      with ⟨recorded, -⟩ | ⟨-, known⟩
    · exact recorded
    · obtain ⟨first, known⟩ := known ⟨fits.height,
        fits.round.trans (round_eq.trans sound.round_eq.symm),
        fits.kind.trans (kind_eq.trans sound.kind_eq.symm), fits.power⟩
      unfold voteOf? at unknown known
      rw [← own.votes, unknown] at known
      cases known
  unfold OfOwnVotes
  rw [record_votes]
  have next : ofVotes s round kind (t.votes ++ [vote])
      = (ofVotes s round kind t.votes).call s (.vote vote) := by
    unfold ofVotes after
    rw [List.map_append, List.foldl_append]
    rfl
  rw [next, added]
  exact Alike.record own s vote

end Tally

-- ================================================================= rounds

namespace RoundLog

variable {s : Scope} {round : Round} {l l' : RoundLog}

/-- Both tallies of a round are made of their own votes. -/
structure OfOwnVotes (s : Scope) (round : Round) (l : RoundLog) : Prop where
  prevotes : l.prevotes.OfOwnVotes s round .prevote
  precommits : l.precommits.OfOwnVotes s round .precommit

/-- Both tallies of a fresh round are new. -/
theorem ofOwnVotes_fresh (s : Scope) (round : Round) :
    (RoundLog.fresh round).OfOwnVotes s round :=
  ⟨Tally.ofOwnVotes_empty s round .prevote, Tally.ofOwnVotes_empty s round .precommit⟩

theorem OfOwnVotes.congr (own : l.OfOwnVotes s round)
    (prevotes : l.prevotes.Alike l'.prevotes)
    (precommits : l.precommits.Alike l'.precommits) : l'.OfOwnVotes s round :=
  ⟨own.prevotes.congr prevotes, own.precommits.congr precommits⟩

/-- A vote is recorded in the tally of its kind, the other stays. -/
theorem OfOwnVotes.setTally (own : l.OfOwnVotes s round) {kind : VoteKind} {t : Tally}
    {vote : Vote} (found : l.tally? kind = some t) (round_eq : t.round = round)
    (kind_eq : t.kind = kind) (admitted : t.refusal? s vote = none) :
    (l.setTally kind (t.record s vote)).OfOwnVotes s round := by
  cases kind with
  | null => cases found
  | prevote =>
    cases found
    exact ⟨own.prevotes.record round_eq kind_eq admitted, own.precommits⟩
  | precommit =>
    cases found
    exact ⟨own.prevotes, own.precommits.record round_eq kind_eq admitted⟩

end RoundLog

namespace HeightLog

variable {h h' : HeightLog}

/-- At the start round 0 is all there has to be. -/
theorem filled_start : start.Filled := by
  intro round reach
  have zero : round = 0 := UInt32.le_zero_iff.1 reach
  exact ⟨RoundLog.fresh 0, by rw [zero]; rfl⟩

/-- No round is lost, so where the round is the same all are still there. -/
theorem Filled.grows (filled : h.Filled) (same : h'.round = h.round)
    (grows : h.Grows h') : h'.Filled := by
  intro round reach
  obtain ⟨l, here⟩ := filled round (same ▸ reach)
  exact grows.exists_get? here

/-- All rounds that are passed over come into being. -/
theorem Filled.setRound (filled : h.Filled) {round : Round}
    (moved : h.setRound round = .ok h') : h'.Filled := by
  obtain ⟨forward, rfl⟩ := setRound_eq_ok_iff.1 moved
  intro other reach
  have reach : other ≤ round := reach
  refine exists_get?_openRounds ?_
  rw [UInt32.le_iff_toNat_le] at forward reach
  by_cases before : other ≤ h.round
  · exact Or.inl (filled other before)
  · rw [UInt32.le_iff_toNat_le] at before
    exact Or.inr ⟨by omega, by omega⟩

end HeightLog

-- =================================================================== acts

section

variable [Crypto] {s : Setup} {w : World} {input : Input} {m m' : Machine}
  {es : List Effect}

/-- Only the begin of a round moves the log, and it opens all rounds on the way. -/
theorem Act.filled (act : Act s w input m es m') (onward : m.Onward)
    (filled : m.log.Filled) : m'.log.Filled := by
  cases act.opens onward with
  | counts vote given sound log =>
    exact filled.grows (log ▸ HeightLog.round_addVote _ _ _) act.log_keeps.grows
  | hears w claim given log =>
    obtain ⟨relogged, same, round, -⟩ := Machine.addClaim_relogs s w m claim
    refine filled.grows ?_ act.log_keeps.grows
    rw [log, same]
    exact round
  | moves round log begun moved after =>
    -- what is written into the new round does not take a round away
    have opened := filled.setRound moved
    intro other reach
    rw [after.round] at reach
    by_cases here : other = log.round
    · rw [here]
      exact after.current (opened log.round (UInt32.le_refl _))
    · rw [after.others other here]
      exact opened other reach
  | stays after => exact filled.grows after.round act.log_keeps.grows

/-- Whatever is recorded is recorded in the tally of its round and kind. -/
theorem Act.ofOwnVotes {heard : Vote → Prop} {offered : Proposal → Prop} {round : Round}
    (act : Act s w input m es m') (sound : m.log.Sound s.scope heard offered)
    (own : (m.log.getOrFresh round).OfOwnVotes s.scope round) :
    (m'.log.getOrFresh round).OfOwnVotes s.scope round := by
  refine act.keeps_tallies (P := fun l => l.OfOwnVotes s.scope round)
    (fun _ _ prevotes precommits held => held.congr prevotes precommits) ?_ own
  intro kind t vote found admitted held
  have tally := (sound.getOrFresh round).tally kind t found
  rw [HeightLog.round_getOrFresh] at tally
  exact held.setTally found tally.round_eq tally.kind_eq admitted

-- ================================================================== lives

variable {admits : Life → Input → Prop} {l : Life}

/-- No round up to the current one is ever missing. -/
theorem Reachable.filled (h : Reachable s admits l) : l.machine.log.Filled :=
  h.keeps_onward (P := fun m => m.log.Filled)
    (fun act onward held => act.filled onward held) HeightLog.filled_start

/-- All that is counted in a round is what is recorded there. -/
theorem Reachable.ofOwnVotes (h : Reachable s admits l) (round : Round) :
    (l.machine.log.getOrFresh round).OfOwnVotes s.scope round := by
  refine (Leads.keeps
    (P := fun given m _ => m.log.Sound s.scope (Heard given) (Offered s given)
      ∧ (m.log.getOrFresh round).OfOwnVotes s.scope round)
    (fun _ _ act held => ⟨act.log_sound held.1, act.ofOwnVotes held.1 held.2⟩)
    (fun input held => ⟨log_sound_append held.1 [input], held.2⟩) h
    ⟨HeightLog.sound_start s.scope _ _, ?_⟩).2
  dsimp only [Life.initial]
  rw [Machine.getOrFresh_initial]
  exact RoundLog.ofOwnVotes_fresh s.scope round

-- ============================================================ well-formed

/-- A tally has only such votes as it admitted, and those were heard. -/
theorem Tally.Sound.wellFormed {given : List Input} {round : Round} {kind : VoteKind}
    {t : Tally} (sound : t.Sound s.scope (Heard given) round kind)
    (tidy : t.Tidy s.scope) (own : t.OfOwnVotes s.scope round kind) :
    t.WellFormed s.scope round kind where
  round_eq := sound.round_eq
  kind_eq := sound.kind_eq
  counted := own
  filed _ := sound.voteOf?_of_mem
  votes address vote known := by
    obtain ⟨recorded, author⟩ := voteOf?_spec known
    refine ⟨author, ⟨sound.height_of_mem vote recorded, ?_, ?_, tidy.power vote recorded⟩,
      (sound.heard_of_mem vote recorded).2⟩
    · rw [sound.round_eq]
      exact sound.round_of_mem vote recorded
    · rw [sound.kind_eq]
      exact sound.kind_of_mem vote recorded

/-- A proposal was checked in its round, by a machine in that round. -/
theorem Faultless.wellFormed {round current : Round} {p : Proposal}
    (faultless : Faultless s m p) (here : p.body.round = round)
    (near : round ≤ current) : p.WellFormed s.scope current round where
  near := near
  round_eq := here
  height := faultless.height
  signed := faultless.signed
  turn := here ▸ faultless.turn
  placed := faultless.placed
  named := faultless.named
  carries := here ▸ Machine.validRoundFault?_eq_none_iff.1 faultless.carries

/-- Whatever a machine is given, its store is well formed. No round up to the current
one is missing, every round has the tallies of its number, every recorded vote is
filed under its validator, belongs in its tally and is signed, and every proposal
belongs in its round, which is not ahead. -/
theorem store_well_formed (s : Setup) (turns : List (World × Input)) :
    (Life.after s turns).machine.WellFormed s := by
  have life := reachable_after s turns
  refine ⟨life.onward.placed, life.filled, fun l => life.ordered.get?_of_mem,
    fun round l found => ?_⟩
  have here : l.round = round := HeightLog.round_of_get? found
  have sound := life.log_sound round l found
  have tidy := life.thrifty.tidy round l found
  have own := life.ofOwnVotes round
  rw [HeightLog.getOrFresh_of_get? found] at own
  constructor
  case round_eq => exact here
  case prevotes =>
    exact (here ▸ sound.tally .prevote _ rfl).wellFormed (tidy .prevote _ rfl) own.prevotes
  case precommits =>
    exact (here ▸ sound.tally .precommit _ rfl).wellFormed (tidy .precommit _ rfl)
      own.precommits
  case proposal =>
    intro p held
    obtain ⟨placed, -, m, faultless⟩ := sound.proposal p held
    refine (faultless_iff.1 faultless).wellFormed (placed.trans here) ?_
    -- no later round has a proposal
    refine UInt32.not_lt.1 fun ahead => ?_
    have empty := life.onward.ahead round ahead
    rw [HeightLog.getOrFresh_of_get? found, held] at empty
    cases empty

end

end Quorum
