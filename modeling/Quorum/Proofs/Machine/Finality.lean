/-
A decision is final.

Whatever a machine is given, forged timers and repeated starts among it:
once it has decided a block it stays with that block and in that round,
begins no other round, and hands the block over at most once.

# The argument

A round begins for one of three reasons (`Cause`), and a decision is
against each of them: a machine that decided has started, and the two
other reasons ask for no decision. So from the decision on the round
stays, and with it the step only goes forward. Handing over is what moves
the step to the end of the round, and no later step is there to hand over
from again.
-/
import Quorum.Proofs.Machine.Plain
import Quorum.Proofs.Machine.Signing

namespace Quorum

-- ========================================================= what is told

/-- The round that an effect tells the beginning of. -/
def Effect.beginning? : Effect → Option Round
  | .emit (.roundStarted _ round) => some round
  | _ => none

/-- The decision that an effect tells of. -/
def Effect.decision? : Effect → Option (Round × BlockHash)
  | .emit (.quorumReached round hash .precommit) => some (round, hash)
  | _ => none

/-- The block, with its certificate, that an effect hands over. -/
def Effect.completion? : Effect → Option (Block × Certificate)
  | .emit (.completed block certificate) => some (block, certificate)
  | _ => none

/-- The rounds begun among effects, first one first. -/
def beginningsOf (asked : List Effect) : List Round :=
  asked.filterMap Effect.beginning?

/-- The decisions told of among effects, first one first. -/
def decisionsOf (asked : List Effect) : List (Round × BlockHash) :=
  asked.filterMap Effect.decision?

/-- The blocks handed over among effects, first one first. -/
def completionsOf (asked : List Effect) : List (Block × Certificate) :=
  asked.filterMap Effect.completion?

/-- Effects that tell of no round, no decision and no block. -/
structure Plainly (es : List Effect) : Prop where
  beginnings : beginningsOf es = []
  decisions : decisionsOf es = []
  completions : completionsOf es = []

/-- A timer tells watchers nothing. -/
theorem plainly_scheduling (s : Setup) (m : Machine) (round : Round)
    (kind : TimerKind) : Plainly (m.scheduling s round kind) where
  beginnings := filterMap_scheduling s (fun _ _ => rfl) m round kind
  decisions := filterMap_scheduling s (fun _ _ => rfl) m round kind
  completions := filterMap_scheduling s (fun _ _ => rfl) m round kind

/-- A vote tells them of no round and no decision. -/
theorem plainly_casting (s : Setup) (w : World) (round : Round)
    (hash : BlockHash) (kind : VoteKind) :
    Plainly (Machine.casting s w round hash kind) where
  beginnings := filterMap_casting s (fun _ => rfl) w round hash kind
  decisions := filterMap_casting s (fun _ => rfl) w round hash kind
  completions := filterMap_casting s (fun _ => rfl) w round hash kind

/-- Nor does what opens a round, once its beginning was told. -/
theorem plainly_opening [Crypto] (s : Setup) (w : World) (m : Machine)
    (round : Round) : Plainly (Machine.opening s w m round).2 := by
  have waits := plainly_scheduling s m round .propose
  constructor
  case beginnings =>
    exact filterMap_opening s w m round waits.beginnings (fun _ _ => rfl)
      (fun _ => rfl) (fun _ => rfl)
  case decisions =>
    exact filterMap_opening s w m round waits.decisions (fun _ _ => rfl)
      (fun _ => rfl) (fun _ => rfl)
  case completions =>
    exact filterMap_opening s w m round waits.completions (fun _ _ => rfl)
      (fun _ => rfl) (fun _ => rfl)

/-- An effect that tells nothing of this kind can stand in front. -/
theorem Plainly.cons {es : List Effect} (h : Plainly es) {effect : Effect}
    (beginning : effect.beginning? = none) (decision : effect.decision? = none)
    (completion : effect.completion? = none) : Plainly (effect :: es) where
  beginnings := (List.filterMap_cons_none beginning).trans h.beginnings
  decisions := (List.filterMap_cons_none decision).trans h.decisions
  completions := (List.filterMap_cons_none completion).trans h.completions

/-- Where nothing is asked for nothing is told. -/
theorem plainly_nil : Plainly [] := ⟨rfl, rfl, rfl⟩

/-- Entering the step of prevotes is told, but that is no conclusion. -/
theorem plainly_prevoting (s : Setup) (w : World) (round : Round)
    (hash : BlockHash) : Plainly (Machine.prevoting s w round hash) :=
  ((plainly_casting s w round hash .prevote).cons rfl rfl rfl).cons rfl rfl rfl

/-- Nor is entering the step of precommits. -/
theorem plainly_precommitting (s : Setup) (w : World) (round : Round)
    (hash : BlockHash) : Plainly (Machine.precommitting s w round hash) :=
  ((plainly_casting s w round hash .precommit).cons rfl rfl rfl).cons rfl rfl rfl

/-- Plain effects after plain ones are plain. -/
theorem Plainly.append {es es' : List Effect} (h : Plainly es)
    (h' : Plainly es') : Plainly (es ++ es') where
  beginnings := (filterMap_append_of_nil h'.beginnings).trans h.beginnings
  decisions := (filterMap_append_of_nil h'.decisions).trans h.decisions
  completions := (filterMap_append_of_nil h'.completions).trans h.completions

-- ========================================================= what acts do

/-- What an act means for the round and the decision of a machine. -/
inductive Concludes (s : Setup) (w : World) (input : Input) (m : Machine)
    (es : List Effect) (m' : Machine) : Prop
  /-- It leaves the decision and the round, and goes back no step. -/
  | goesOn (decision : m'.decision = m.decision) (round : m'.round = m.round)
      (step : m.step ≤ m'.step) (plainly : Plainly es)
  /-- It begins a round, for a reason. -/
  | begins (cause : Cause s input m m'.round)
      (decision : m'.decision = m.decision) (step : m'.step = .propose)
      (decisions : decisionsOf es = []) (completions : completionsOf es = [])
  /-- It decides the block proposed in its round, and tells of that. -/
  | decides (proposal : Proposal) (pinned : Pinned)
      (held : m.proposal? = some proposal)
      (majority : m.precommitMajority? m.round = some proposal.body.hash)
      (pins : pinned = ⟨m.round, proposal.body.hash, proposal.body.block⟩)
      (started : m.step ≠ .idle) (undecided : m.decision = none)
      (decided : m'.decision = some pinned) (round : m'.round = m.round)
      (step : m'.step = m.step) (beginnings : beginningsOf es = [])
      (decisions : decisionsOf es = [(pinned.round, pinned.hash)])
      (completions : completionsOf es = [])
  /-- It hands over the decided block at the end of the round. -/
  | completes (pinned : Pinned) (certificate : Certificate)
      (decided : m.decision = some pinned) (decision : m'.decision = m.decision)
      (round : m'.round = m.round) (unfinished : m.step ≠ .endCommit)
      (step : m'.step = .endCommit) (beginnings : beginningsOf es = [])
      (decisions : decisionsOf es = [])
      (completions : completionsOf es = [(pinned.block, certificate)])
      (accepted : w.validate pinned.block = .ok ())
      (certified : m.certificateOf? s pinned.round = some certificate)

/-- A round begins only where nothing is decided. -/
theorem Cause.free {s : Setup} {input : Input} {m : Machine} {round : Round}
    (cause : Cause s input m round) : m.step = .idle ∨ m.decision = none := by
  cases cause with
  | start told idle first => exact Or.inl idle
  | follow message given of_round started undecided later ahead =>
    exact Or.inr undecided
  | next kind fired ends ended undecided after => exact Or.inr undecided

/-- Nothing comes after the end. -/
theorem step_eq_endCommit {step : Step} (late : .endCommit ≤ step) :
    step = .endCommit := by
  revert late
  cases step <;> decide

/-- The end comes last. -/
theorem step_le_endCommit (step : Step) : step ≤ .endCommit := by
  cases step <;> decide

section

variable {s : Setup} {w : World} {input : Input} {m m' : Machine}
  {asked es : List Effect}

/-- Where round, step and decision stay nothing is concluded. -/
theorem concludes_of_still (plainly : Plainly es)
    (decision : m'.decision = m.decision) (round : m'.round = m.round)
    (step : m'.step = m.step) : Concludes s w input m es m' :=
  .goesOn decision round (step ▸ Nat.le_refl _) plainly

/-- What differs only in the log concludes nothing. -/
theorem concludes_of_relogs (plainly : Plainly es) (relogs : m.Relogs m') :
    Concludes s w input m es m' := by
  obtain ⟨log, rfl, -⟩ := relogs
  exact concludes_of_still plainly rfl rfl rfl

/-- Nothing but handing over and deciding concludes anything. -/
theorem Act.concludes [Crypto] (act : Act s w input m es m') :
    Concludes s w input m es m' := by
  cases act with
  | judge => exact concludes_of_still plainly_nil rfl rfl rfl
  | count => exact concludes_of_still plainly_nil rfl rfl rfl
  | claim claim =>
    refine concludes_of_relogs ⟨?_, ?_, ?_⟩ (Machine.addClaim_relogs s w m claim)
    · exact filterMap_answering (fun _ => rfl) _
    · exact filterMap_answering (fun _ => rfl) _
    · exact filterMap_answering (fun _ => rfl) _
  | passOn holdings votes =>
    refine concludes_of_still ⟨?_, ?_, ?_⟩ rfl rfl rfl
    · exact filterMap_forward (fun _ => rfl) votes
    · exact filterMap_forward (fun _ => rfl) votes
    · exact filterMap_forward (fun _ => rfl) votes
  | takeUp => exact concludes_of_still plainly_nil rfl rfl rfl
  -- a round begins for a cause that knows of no decision
  | beginRound round log cause moved =>
    have plainly := plainly_opening s w
      { m with log := log, round := round, step := .propose } round
    obtain ⟨opened, same, -⟩ := Machine.opening_relogs s w
      { m with log := log, round := round, step := .propose } round
    rw [same]
    exact .begins cause rfl rfl plainly.decisions plainly.completions
  | prevote proposal step held ripe =>
    have ahead : m.step ≤ .prevote := by rw [step]; decide
    exact .goesOn rfl rfl ahead (plainly_prevoting s w _ _)
  | prevoteNothing step fired =>
    have ahead : m.step ≤ .prevote := by rw [step]; decide
    exact .goesOn rfl rfl ahead (plainly_prevoting s w _ _)
  | precommit hash step fired =>
    have ahead : m.step ≤ .precommit := by
      rcases step with step | step <;> rw [step] <;> decide
    exact .goesOn rfl rfl ahead (plainly_precommitting s w _ _)
  | precommitNothing step fired =>
    have ahead : m.step ≤ .precommit := by rw [step]; decide
    exact .goesOn rfl rfl ahead (plainly_precommitting s w _ _)
  | lock proposal pinned step held pins unseen majority valid marked seen =>
    obtain ⟨log, after, -⟩ := Machine.locked_eq seen
    rw [after]
    refine concludes_of_still ?_ rfl rfl rfl
    exact (plainly_scheduling s marked _ _).append
      (plainly_nil.cons rfl rfl rfl)
  | remember => exact concludes_of_still plainly_nil rfl rfl rfl
  | discard =>
    exact concludes_of_still (plainly_nil.cons rfl rfl rfl) rfl rfl rfl
  | wait kind waits =>
    exact concludes_of_relogs (plainly_scheduling s m _ _)
      (Machine.armed_relogs m m.round kind.slot)
  -- the decision is told with the round and the hash that it has
  | decideBlock proposal pinned started undecided held pins majority valid
      pinning decided =>
    have plainly := plainly_scheduling s pinning m.round .endCommitWait
    obtain ⟨log, after, -⟩ := Machine.decided_eq decided
    rw [after]
    refine .decides proposal pinned held ?_ pins started undecided rfl rfl rfl
      plainly.beginnings ?_ plainly.completions
    · rw [majority, pins]
    · rw [pins]
      exact congrArg (_ :: ·) plainly.decisions
  | finish =>
    exact .goesOn rfl rfl (step_le_endCommit _) (plainly_nil.cons rfl rfl rfl)
  | complete kind pinned certificate started unfinished fired ends decided
      accepted certified =>
    exact .completes pinned certificate decided rfl rfl unfinished rfl rfl rfl
      rfl accepted certified
  | report =>
    exact concludes_of_still (plainly_nil.cons rfl rfl rfl) rfl rfl rfl

/-- An act stays in its round, or begins another for a reason. -/
theorem Concludes.round_cases (h : Concludes s w input m es m') :
    m'.round = m.round ∨ Cause s input m m'.round := by
  cases h with
  | goesOn _ round => exact Or.inl round
  | begins cause => exact Or.inr cause
  | decides _ _ _ _ _ _ _ _ round => exact Or.inl round
  | completes _ _ _ _ round => exact Or.inl round

/-- Nothing is handed over but a decided block, at the end of a round. -/
theorem Concludes.completion_cases (h : Concludes s w input m es m') :
    completionsOf es = []
      ∨ ∃ d certificate, m.decision = some d ∧ m.step ≠ .endCommit
        ∧ completionsOf es = [(d.block, certificate)]
        ∧ w.validate d.block = .ok ()
        ∧ m.certificateOf? s d.round = some certificate := by
  cases h with
  | goesOn _ _ _ plainly => exact Or.inl plainly.completions
  | begins _ _ _ _ completions => exact Or.inl completions
  | decides _ _ _ _ _ _ _ _ _ _ _ _ completions => exact Or.inl completions
  | completes d certificate decided _ _ unfinished _ _ _ completions accepted certified =>
    exact Or.inr ⟨d, certificate, decided, unfinished, completions, accepted, certified⟩

-- ======================================================== the invariant

/-- If the earlier effect tells of a decision, the later begins no round. -/
def Effect.LastBefore (earlier later : Effect) : Prop :=
  earlier.decision?.isSome = true → later.beginning? = none

/-- More may be told behind, unless it is of a round after a decision. -/
theorem ordered_append {asked es : List Effect}
    (ordered : asked.Pairwise Effect.LastBefore)
    (apart : decisionsOf (asked ++ es) = [] ∨ beginningsOf es = []) :
    (asked ++ es).Pairwise Effect.LastBefore := by
  rcases apart with undecided | beginnings
  · have untold := List.filterMap_eq_nil_iff.1 undecided
    refine List.pairwise_of_forall_mem_list fun earlier member later _ tells => ?_
    rw [untold earlier member] at tells
    cases tells
  · have stays := List.filterMap_eq_nil_iff.1 beginnings
    refine List.pairwise_append.2 ⟨ordered, ?_, ?_⟩
    · exact List.pairwise_of_forall_mem_list fun _ _ later member _ =>
        stays later member
    · exact fun _ _ later member _ => stays later member

/-- What is told of a decision, and what comes of it. -/
structure Concluded (m : Machine) (asked : List Effect) : Prop where
  /-- A decision is of the round the machine is in. -/
  placed : ∀ d, m.decision = some d → d.round = m.round
  started : ∀ d, m.decision = some d → m.step ≠ .idle
  /-- The decision, and no other, was told of, and only once. -/
  told : decisionsOf asked
    = m.decision.toList.map fun d => (d.round, d.hash)
  /-- No round began after that. -/
  ordered : asked.Pairwise Effect.LastBefore
  /-- The decided block was not handed over, or once, at the round's end. -/
  completed : completionsOf asked = []
    ∨ m.step = .endCommit ∧ ∃ d certificate, m.decision = some d
      ∧ completionsOf asked = [(d.block, certificate)]

/-- After the decision no round begins, and the step goes only forward. -/
theorem Concludes.of_decided (h : Concludes s w input m es m') {d : Pinned}
    (decided : m.decision = some d) (started : m.step ≠ .idle) :
    m'.decision = some d ∧ m'.round = m.round ∧ m.step ≤ m'.step
      ∧ beginningsOf es = [] ∧ decisionsOf es = [] := by
  cases h with
  | goesOn decision round step plainly =>
    exact ⟨decision.trans decided, round, step, plainly.beginnings,
      plainly.decisions⟩
  | begins cause =>
    rcases cause.free with idle | undecided
    · exact absurd idle started
    · rw [undecided] at decided
      cases decided
  | decides _ _ _ _ _ _ undecided =>
    rw [undecided] at decided
    cases decided
  | completes pinned certificate _ decision round unfinished step beginnings
      decisions completions =>
    exact ⟨decision.trans decided, round, step ▸ step_le_endCommit _,
      beginnings, decisions⟩

/-- Whoever has started does not come to rest again. -/
theorem step_ne_idle_of_le {step step' : Step} (started : step ≠ .idle)
    (later : step ≤ step') : step' ≠ .idle := by
  intro idle
  subst idle
  cases step with
  | idle => exact started rfl
  | _ => exact absurd later (by decide)

/-- What an act keeps of it once the machine has decided. -/
theorem Concluded.keeps_decided (h : Concluded m asked)
    (act : Concludes s w input m es m') {d : Pinned}
    (decided : m.decision = some d) : Concluded m' (asked ++ es) := by
  obtain ⟨stays, round, step, beginnings, decisions⟩ :=
    act.of_decided decided (h.started d decided)
  have same : m'.decision = m.decision := stays.trans decided.symm
  constructor
  case placed => rw [same, round]; exact h.placed
  case started =>
    intro _ _
    exact step_ne_idle_of_le (h.started d decided) step
  case told =>
    rw [same, ← h.told]
    exact filterMap_append_of_nil decisions
  case ordered => exact ordered_append h.ordered (Or.inr beginnings)
  case completed =>
    unfold completionsOf
    rw [List.filterMap_append]
    cases act with
    | goesOn _ _ _ plainly =>
      have silent : es.filterMap Effect.completion? = [] := plainly.completions
      rw [silent, List.append_nil, same]
      refine h.completed.imp_right fun ⟨ended, given⟩ => ⟨?_, given⟩
      rw [ended] at step
      exact step_eq_endCommit step
    -- both causes to begin a round are gone
    | begins cause =>
      rcases cause.free with idle | undecided
      · exact absurd idle (h.started d decided)
      · rw [undecided] at decided
        cases decided
    | decides _ _ _ _ _ _ undecided =>
      rw [undecided] at decided
      cases decided
    | completes pinned certificate pins _ _ unfinished ends _ _ completions =>
      -- had it been handed over before, the round would have been over
      have first : completionsOf asked = [] :=
        h.completed.resolve_right fun before => unfinished before.1
      refine Or.inr ⟨ends, pinned, certificate, same.trans pins, ?_⟩
      show completionsOf asked ++ completionsOf es = _
      rw [first, completions]
      rfl

/-- What an act keeps of it as long as the machine has not decided. -/
theorem Concluded.keeps_undecided (h : Concluded m asked)
    (act : Concludes s w input m es m') (undecided : m.decision = none) :
    Concluded m' (asked ++ es) := by
  have untold : decisionsOf asked = [] := by
    rw [h.told, undecided]
    rfl
  have unfinished : completionsOf asked = [] := by
    refine h.completed.resolve_right fun ⟨_, d, _, decided, _⟩ => ?_
    rw [undecided] at decided
    cases decided
  -- an act that leaves the machine undecided tells of nothing
  have stays : ∀ (_ : m'.decision = m.decision) (_ : decisionsOf es = [])
      (_ : completionsOf es = []), Concluded m' (asked ++ es) := by
    intro same decisions completions
    rw [undecided] at same
    have silent : decisionsOf (asked ++ es) = [] :=
      (filterMap_append_of_nil decisions).trans untold
    refine ⟨?_, ?_, ?_, ordered_append h.ordered (Or.inl silent), Or.inl ?_⟩
    · rw [same]
      nofun
    · rw [same]
      nofun
    · rw [same]
      exact silent
    · exact (filterMap_append_of_nil completions).trans unfinished
  cases act with
  | goesOn decision round step plainly =>
    exact stays decision plainly.decisions plainly.completions
  | begins cause decision step decisions completions =>
    exact stays decision decisions completions
  | decides proposal pinned held majority pins started _ decided round step
      beginnings decisions completions =>
    refine ⟨?_, ?_, ?_, ordered_append h.ordered (Or.inr beginnings), Or.inl ?_⟩
    · intro d now
      rw [decided] at now
      cases now
      rw [round, pins]
    · intro _ _
      rw [step]
      exact started
    · rw [decided]
      show (asked ++ es).filterMap _ = _
      rw [List.filterMap_append]
      show decisionsOf asked ++ decisionsOf es = _
      rw [untold, decisions]
      rfl
    · exact (filterMap_append_of_nil completions).trans unfinished
  | completes pinned certificate decided =>
    rw [undecided] at decided
    cases decided

/-- Every act keeps it. -/
theorem Concluded.keeps (h : Concluded m asked)
    (act : Concludes s w input m es m') : Concluded m' (asked ++ es) := by
  cases decided : m.decision with
  | none => exact h.keeps_undecided act decided
  | some d => exact h.keeps_decided act decided

end

-- =============================================================== lives

section

variable [Crypto] {s : Setup} {admits : Life → Input → Prop} {l l' : Life}

/-- It holds as long as the machine lives, whatever it is given. -/
theorem Reachable.concluded (h : Reachable s admits l) :
    Concluded l.machine l.asked := by
  refine Leads.keeps (P := fun _ m asked => Concluded m asked) ?_
    (fun _ held => held) h ?_
  · intro l w input m m' es asked _ _ act held
    exact held.keeps act.concludes
  · exact ⟨nofun, nofun, rfl, .nil, Or.inl rfl⟩

/-- From a decision on, decision and round stay and no round begins. -/
theorem Leads.of_decided (leads : Leads s admits l l')
    (start : Reachable s admits l) {d : Pinned}
    (decided : l.machine.decision = some d) :
    l'.machine.decision = some d ∧ l'.machine.round = d.round
      ∧ ∃ since, l'.asked = l.asked ++ since ∧ beginningsOf since = [] := by
  have held := start.concluded
  have going := Leads.keeps (P := fun _ m asked =>
    m.decision = some d ∧ m.round = d.round ∧ m.step ≠ .idle
      ∧ ∃ since, asked = l.asked ++ since ∧ beginningsOf since = [])
    ?_ (fun _ kept => kept) leads
    ⟨decided, (held.placed d decided).symm, held.started d decided, [],
      (List.append_nil _).symm, rfl⟩
  · exact ⟨going.1, going.2.1, going.2.2.2⟩
  · intro l₀ w input m m' es asked _ _ act kept
    obtain ⟨pinned, round, started, since, asks, none_⟩ := kept
    obtain ⟨pinned', round', step, beginnings, -⟩ :=
      act.concludes.of_decided pinned started
    refine ⟨pinned', round'.trans round, step_ne_idle_of_le started step,
      since ++ es, ?_, ?_⟩
    · rw [asks, List.append_assoc]
    · exact (filterMap_append_of_nil beginnings).trans none_

/-- Finality. Whatever a machine is given, from rest on and in whatever
world: it hands over at most one block in its life, and that is the block
it decided; after it told of its decision it begins no round; and from a
decision on, the round is that of the decision, the decision stays what it
is, and so does the round, and no round begins, whatever is given next. -/
theorem decision_final (s : Setup) (turns : List (World × Input)) :
    (completionsOf (Life.after s turns).asked).length ≤ 1
      ∧ (∀ given ∈ completionsOf (Life.after s turns).asked,
        ∃ d, (Life.after s turns).machine.decision = some d
          ∧ given.1 = d.block)
      ∧ (Life.after s turns).asked.Pairwise Effect.LastBefore
      ∧ ∀ d, (Life.after s turns).machine.decision = some d →
        (Life.after s turns).machine.round = d.round
          ∧ ∀ more, (Life.after s (turns ++ more)).machine.decision = some d
            ∧ (Life.after s (turns ++ more)).machine.round = d.round
            ∧ ∃ since, (Life.after s (turns ++ more)).asked
                = (Life.after s turns).asked ++ since
              ∧ ∀ height round, .emit (.roundStarted height round) ∉ since := by
  have start := reachable_after s turns
  have held := start.concluded
  refine ⟨?_, ?_, held.ordered, fun d decided => ⟨?_, fun more => ?_⟩⟩
  · rcases held.completed with none_ | ⟨_, d, certificate, _, one⟩
    · rw [none_]
      exact Nat.zero_le 1
    · rw [one]
      exact Nat.le_refl 1
  · intro given handed
    rcases held.completed with none_ | ⟨_, d, certificate, decided, one⟩
    · rw [none_] at handed
      cases handed
    · rw [one] at handed
      rw [List.mem_singleton.1 handed]
      exact ⟨d, decided, rfl⟩
  · exact (held.placed d decided).symm
  · have leads : Leads s anything (Life.after s turns)
        (Life.after s (turns ++ more)) := by
      rw [Life.after_append]
      exact leads_run s _ more fun _ _ _ => trivial
    obtain ⟨stays, round, since, asked, beginnings⟩ :=
      leads.of_decided start decided
    refine ⟨stays, round, since, asked, fun height round tells => ?_⟩
    have none_ := List.filterMap_eq_nil_iff.1 beginnings _ tells
    cases none_

end

open scoped Plain

namespace Plain

/-- The first of four validators decides the empty block in round 0 and hands
it over. -/
def finishing : List (World × Input) :=
  [(world, .start), offer 2 0 none (block 0)]
    ++ votes [2, 3, 4] 0 .prevote ++ votes [2, 3, 4] 0 .precommit
    ++ [timer 0 .endCommitWait]

/-- Then it meets votes of a later round, forged timers and another start. -/
def lingering : List (World × Input) :=
  ([2, 3, 4].map fun byte => vote byte 1 (block 1).hash .prevote)
    ++ [timer 0 .precommit, timer 0 .endCommitWait, timer 1 .precommit,
      (world, .start)]

end Plain

open Plain in
/-- A block that was handed over stays the only one. -/
theorem decision_final_of_handed_over :
    (Life.after (setup (address 1)) finishing).machine.decision
        = some ⟨0, (block 0).hash, block 0⟩
      ∧ (completionsOf (Life.after (setup (address 1)) finishing).asked).map
        (·.1) = [block 0]
      ∧ (Life.after (setup (address 1)) (finishing ++ lingering)).machine.decision
        = some ⟨0, (block 0).hash, block 0⟩
      ∧ (completionsOf (Life.after (setup (address 1))
        (finishing ++ lingering)).asked).length ≤ 1 := by
  have decided : (Life.after (setup (address 1)) finishing).machine.decision
      = some ⟨0, (block 0).hash, block 0⟩ := by
    decide +kernel
  have handed : (completionsOf (Life.after (setup (address 1))
      finishing).asked).map (·.1) = [block 0] := by
    decide +kernel
  obtain ⟨-, -, -, final⟩ := decision_final (setup (address 1)) finishing
  exact ⟨decided, handed, ((final _ decided).2 lingering).1,
    (decision_final (setup (address 1)) (finishing ++ lingering)).1⟩

end Quorum
