/-
A slot is armed once, and a timer is asked for where that happens.

The record of a round marks which of its five slots were armed, and no mark is
ever taken back. An act asks for one timer at most: for a slot that was free, in
the round that the machine is in then, and it marks the slot (`Timing`).

So the marks and the timers that were asked for are the same thing told twice.
What is armed was scheduled (`AllScheduled`), and what was scheduled is armed, by
which it is not scheduled again (`ArmedOnce`).
-/
import Quorum.Proofs.Machine.Rewriting
import Quorum.Proofs.Machine.Signing

namespace Quorum

-- ======================================================== timers asked for

/-- The timer that an effect asks for, with whatever delay. -/
def Effect.timer? : Effect → Option Timer
  | .schedule timer _ => some timer
  | _ => none

/-- The timers asked for among effects, first one first. -/
def timersOf (asked : List Effect) : List Timer :=
  asked.filterMap Effect.timer?

/-- A timer is among those asked for if it is scheduled with some delay. -/
theorem mem_timersOf {asked : List Effect} {timer : Timer} :
    timer ∈ timersOf asked ↔ Scheduled asked timer := by
  constructor
  · intro member
    obtain ⟨effect, asks, named⟩ := List.mem_filterMap.1 member
    cases effect with
    | schedule scheduled delay =>
      cases named
      exact ⟨delay, asks⟩
    | _ => cases named
  · intro scheduled
    obtain ⟨delay, asks⟩ := scheduled
    exact List.mem_filterMap.2 ⟨_, asks, rfl⟩

/-- What is asked for later comes later. -/
theorem timersOf_append (asked es : List Effect) :
    timersOf (asked ++ es) = timersOf asked ++ timersOf es :=
  List.filterMap_append

/-- Arming a slot asks for the timer of that round and kind. -/
theorem mem_timersOf_scheduling {s : Setup} {m : Machine} {round : Round}
    {kind : TimerKind} {timer : Timer}
    (asks : timer ∈ timersOf (m.scheduling s round kind)) :
    timer = ⟨s.scope.height, round, kind⟩ := by
  unfold Machine.scheduling at asks
  split at asks
  case isTrue => cases asks
  case isFalse => exact List.mem_singleton.1 asks

/-- A vote asks for no timer. -/
theorem timersOf_casting (s : Setup) (w : World) (round : Round)
    (hash : BlockHash) (kind : VoteKind) :
    timersOf (Machine.casting s w round hash kind) = [] :=
  filterMap_casting s (fun _ => rfl) w round hash kind

-- ============================================================= what acts arm

/-- The first step in which a timer is of use. -/
def TimerKind.firstStep : TimerKind → Step
  | .propose => .propose
  | .prevote => .prevote
  | .precommit => .propose
  | .precommitWait _ => .prevote
  | .endCommitWait => .propose

theorem propose_le {step : Step} (started : step ≠ .idle) : .propose ≤ step := by
  revert started
  cases step <;> decide

/-- What an act does about timers. -/
inductive Timing (s : Setup) (m : Machine) (es : List Effect) (m' : Machine) : Prop
  /-- It asks for none, and leaves the marks. -/
  | still (silent : timersOf es = [])
      (same : ∀ round slot, (m'.log.getOrFresh round).isArmed slot
        = (m.log.getOrFresh round).isArmed slot)
  /-- It asks for one in the round that the machine is in then, and marks it. No
  started machine asks for one too early. -/
  | arms (kind : TimerKind) (due : m'.step ≠ .idle → kind.firstStep ≤ m'.step)
      (free : (m.log.getOrFresh m'.round).isArmed kind.slot = false)
      (asks : timersOf es = [⟨s.scope.height, m'.round, kind⟩])
      (marks : ∀ round slot, (m'.log.getOrFresh round).isArmed slot
        = (decide (round = m'.round ∧ slot = kind.slot)
          || (m.log.getOrFresh round).isArmed slot))

section

variable {s : Setup} {w : World} {m m' : Machine} {es asked : List Effect}

/-- An act that leaves the log alone arms nothing. -/
theorem timing_of_same_log (silent : timersOf es = []) (same : m'.log = m.log) :
    Timing s m es m' :=
  .still silent fun _ _ => by rw [same]

/-- To store the record of a round with the marks it had arms nothing. -/
theorem isArmed_put {h : HeightLog} {l : RoundLog}
    (same : l.armed = (h.getOrFresh l.round).armed) (round : Round)
    (slot : TimerSlot) :
    ((h.put l).getOrFresh round).isArmed slot = (h.getOrFresh round).isArmed slot := by
  unfold RoundLog.isArmed
  rw [HeightLog.getOrFresh_put]
  split
  case isTrue here => rw [here, same]
  case isFalse => rfl

/-- To mark that a majority was acted on arms nothing. -/
theorem isArmed_sawQuorum (m : Machine) (seen round : Round) (slot : TimerSlot) :
    ((m.sawQuorum seen).log.getOrFresh round).isArmed slot
      = (m.log.getOrFresh round).isArmed slot := by
  refine isArmed_put ?_ round slot
  dsimp only
  rw [HeightLog.round_getOrFresh]

/-- To arm a slot asks for its timer, or for none where it was armed before. -/
theorem timing_of_scheduling (asking : Machine) (kind : TimerKind)
    (due : m'.step ≠ .idle → kind.firstStep ≤ m'.step)
    (alike : ∀ round slot, (asking.log.getOrFresh round).isArmed slot
      = (m.log.getOrFresh round).isArmed slot)
    (asks : timersOf es = timersOf (asking.scheduling s m'.round kind))
    (armed : m'.log = (asking.armed m'.round kind.slot).log) : Timing s m es m' := by
  have marks : ∀ round slot, (m'.log.getOrFresh round).isArmed slot
      = (decide (round = m'.round ∧ slot = kind.slot)
        || (m.log.getOrFresh round).isArmed slot) := by
    intro round slot
    rw [armed, Machine.isArmed_armed_eq, alike]
  unfold Machine.scheduling at asks
  by_cases before : (asking.log.getOrFresh m'.round).isArmed kind.slot = true
  · rw [if_pos before] at asks
    rw [alike] at before
    refine .still asks fun round slot => ?_
    rw [marks]
    by_cases here : round = m'.round ∧ slot = kind.slot
    · rw [here.1, here.2, before, Bool.or_true]
    · rw [decide_eq_false here, Bool.false_or]
  · rw [if_neg before] at asks
    rw [alike, Bool.not_eq_true] at before
    exact .arms kind due before asks marks

variable [Crypto] {input : Input}

/-- A round that begins arms the wait for a proposal, unless there is a proposal to
send. The log may have grown by rounds passed over, which have nothing armed. -/
theorem timing_of_opening {round : Round} {log : HeightLog}
    (moved : m.log.setRound round = .ok log) :
    Timing s m
      (.emit (.roundStarted s.scope.height round)
        :: .emit (.stepChanged s.scope.height round .propose)
        :: (Machine.opening s w
          { m with log := log, round := round, step := .propose } round).2)
      (Machine.opening s w
        { m with log := log, round := round, step := .propose } round).1 := by
  have reads : ∀ r slot, (log.getOrFresh r).isArmed slot
      = (m.log.getOrFresh r).isArmed slot := by
    intro r slot
    rw [HeightLog.getOrFresh_setRound moved r]
  obtain ⟨_, waiting, -⟩ := Machine.armed_relogs
    { m with log := log, round := round, step := .propose } round .propose
  have here : (Machine.armed { m with log := log, round := round, step := .propose }
      round .propose).round = round := by rw [waiting]
  have due : TimerKind.propose.firstStep ≤ (Machine.armed
      { m with log := log, round := round, step := .propose } round .propose).step := by
    rw [waiting]
    exact Nat.le_refl _
  unfold Machine.opening
  split
  case isTrue =>
    split
    case h_1 => exact .still rfl reads
    case h_2 =>
      exact timing_of_scheduling _ .propose (fun _ => due) reads (by rw [here]; rfl)
        (by rw [here]; rfl)
  case isFalse =>
    exact timing_of_scheduling _ .propose (fun _ => due) reads (by rw [here]; rfl)
        (by rw [here]; rfl)

/-- No act arms more than one slot, and none does it silently. -/
theorem Act.timing (act : Act s w input m es m') : Timing s m es m' := by
  cases act with
  | judge => exact timing_of_same_log rfl rfl
  -- counting a vote may open its round, and a fresh round has nothing armed
  | count vote given sound =>
    refine .still rfl fun round slot => ?_
    rcases HeightLog.addVote_cases s.scope m.log vote
      with ⟨fault, -, reads⟩ | ⟨t, -, -, -, reads⟩
    · exact congrArg (·.isArmed slot) (reads round)
    · dsimp only
      rw [reads]
      unfold RoundLog.isArmed
      split
      · rw [RoundLog.armed_setTally]
      · rfl
  | claim claim =>
    refine .still (filterMap_answering (fun _ => rfl) _) fun round slot => ?_
    unfold RoundLog.isArmed
    rw [(Machine.marked_addClaim s w m claim round).2]
  | passOn holdings votes =>
    exact timing_of_same_log (filterMap_forward (fun _ => rfl) votes) rfl
  | takeUp proposal given sound =>
    refine .still rfl (isArmed_put ?_)
    dsimp only
    rw [HeightLog.round_getOrFresh]
  | beginRound round log cause moved => exact timing_of_opening moved
  | prevote => exact timing_of_same_log (timersOf_casting s w _ _ _) rfl
  | prevoteNothing => exact timing_of_same_log (timersOf_casting s w _ _ _) rfl
  | precommit => exact timing_of_same_log (timersOf_casting s w _ _ _) rfl
  | precommitNothing => exact timing_of_same_log (timersOf_casting s w _ _ _) rfl
  -- the lock puts a precommit on its timer
  | lock proposal pinned step held pins unseen majority valid marked seen =>
    obtain ⟨log, after, -⟩ := Machine.locked_eq seen
    have here : (marked.armed m.round .precommitWait).round = m.round :=
      congrArg (·.round) after
    have same : (marked.armed m.round .precommitWait).step = .prevote :=
      (congrArg (·.step) after).trans step
    refine timing_of_scheduling marked (.precommitWait pinned.hash) ?_ ?_
      ?_ ?_
    · intro _
      rw [same]
      exact Nat.le_refl _
    · intro round slot
      rw [seen]
      exact isArmed_sawQuorum (m.judged s w pinned.hash pinned.block) m.round round slot
    · dsimp only
      rw [here, timersOf_append]
      exact List.append_nil _
    · dsimp only
      rw [here]
      rfl
  | remember proposal pinned =>
    exact .still rfl (isArmed_sawQuorum (m.judged s w pinned.hash pinned.block) m.round)
  | discard =>
    refine .still rfl (isArmed_put (h := m.log) ?_)
    show _ = (m.log.getOrFresh (m.log.getOrFresh m.round).round).armed
    rw [HeightLog.round_getOrFresh]
    rfl
  | wait kind waits =>
    obtain ⟨_, waiting, -⟩ := Machine.armed_relogs m m.round kind.slot
    have here : (m.armed m.round kind.slot).round = m.round := by rw [waiting]
    have same : (m.armed m.round kind.slot).step = m.step := by rw [waiting]
    -- every wait is armed in a step its timer is of use in
    refine timing_of_scheduling m kind ?_ (fun _ _ => rfl) (by rw [here]) (by rw [here])
    rw [same]
    intro started
    cases waits with
    | prevotes step => exact step ▸ Nat.le_refl _
    | precommits => exact propose_le started
    | nothing step => exact step ▸ Nat.le_refl _
  | decideBlock proposal pinned started undecided held pins majority valid
      pinning decided =>
    obtain ⟨log, after, -⟩ := Machine.decided_eq decided
    have here : (pinning.armed m.round .endCommitWait).round = m.round :=
      congrArg (·.round) after
    refine timing_of_scheduling pinning .endCommitWait propose_le ?_ ?_ ?_
    · rw [decided]
      exact fun _ _ => rfl
    · rw [here]
      rfl
    · rw [here]
      rfl
  | finish => exact timing_of_same_log rfl rfl
  | complete => exact timing_of_same_log rfl rfl
  | report => exact timing_of_same_log rfl rfl

-- ================================================================== marks

/-- All that is armed was scheduled. -/
def AllScheduled (s : Setup) (m : Machine) (asked : List Effect) : Prop :=
  ∀ round slot, (m.log.getOrFresh round).isArmed slot = true →
    ∃ kind : TimerKind, kind.slot = slot
      ∧ Scheduled asked ⟨s.scope.height, round, kind⟩

omit [Crypto] in
/-- At first nothing is armed. -/
theorem allScheduled_initial (s : Setup) :
    AllScheduled s (Machine.initial s) [] := by
  intro round slot armed
  rw [Machine.getOrFresh_initial] at armed
  cases armed

omit [Crypto] in
/-- What was scheduled stays scheduled. -/
theorem Scheduled.append {timer : Timer} (more : List Effect)
    (h : Scheduled asked timer) : Scheduled (asked ++ more) timer := by
  obtain ⟨delay, asks⟩ := h
  exact ⟨delay, List.mem_append_left _ asks⟩

/-- What is armed stays scheduled, whatever is done. -/
theorem AllScheduled.keeps (h : AllScheduled s m asked)
    (act : Act s w input m es m') : AllScheduled s m' (asked ++ es) := by
  intro round slot armed
  have earlier : (m.log.getOrFresh round).isArmed slot = true →
      ∃ kind : TimerKind, kind.slot = slot
        ∧ Scheduled (asked ++ es) ⟨s.scope.height, round, kind⟩ := by
    intro before
    obtain ⟨kind, same, asks⟩ := h round slot before
    exact ⟨kind, same, asks.append es⟩
  cases act.timing with
  | still silent same =>
    rw [same] at armed
    exact earlier armed
  -- the slot is the one armed now, or was armed before
  | arms kind due free asks marks =>
    rw [marks, Bool.or_eq_true, decide_eq_true_iff] at armed
    rcases armed with ⟨rfl, rfl⟩ | before
    · refine ⟨kind, rfl, mem_timersOf.1 ?_⟩
      rw [timersOf_append, asks]
      exact List.mem_append_right _ (List.mem_singleton_self _)
    · exact earlier before

/-- The round and the slot that a timer is armed in. -/
def Timer.place (timer : Timer) : Round × TimerSlot :=
  (timer.round, timer.kind.slot)

/-- All that was scheduled is armed, and no slot was scheduled twice. -/
structure ArmedOnce (m : Machine) (asked : List Effect) : Prop where
  armed : ∀ timer ∈ timersOf asked,
    (m.log.getOrFresh timer.round).isArmed timer.kind.slot = true
  once : ((timersOf asked).map Timer.place).Nodup

/-- The slot that an act arms was free, so its timer is asked for the first time. -/
theorem ArmedOnce.keeps (h : ArmedOnce m asked) (act : Act s w input m es m') :
    ArmedOnce m' (asked ++ es) := by
  cases act.timing with
  | still silent same =>
    have unchanged : timersOf (asked ++ es) = timersOf asked := by
      rw [timersOf_append, silent, List.append_nil]
    constructor
    case armed =>
      intro timer asks
      rw [unchanged] at asks
      rw [same]
      exact h.armed timer asks
    case once =>
      rw [unchanged]
      exact h.once
  | arms kind due free asks marks =>
    have more : timersOf (asked ++ es)
        = timersOf asked ++ [⟨s.scope.height, m'.round, kind⟩] := by
      rw [timersOf_append, asks]
    constructor
    case armed =>
      intro timer named
      rw [more] at named
      rw [marks, Bool.or_eq_true]
      rcases List.mem_append.1 named with earlier | now
      · exact Or.inr (h.armed timer earlier)
      · rw [List.mem_singleton.1 now]
        exact Or.inl (decide_eq_true ⟨rfl, rfl⟩)
    case once =>
      rw [more, List.map_append]
      refine List.nodup_append'.2 ⟨h.once, List.nodup_singleton _, ?_⟩
      -- a timer of this slot would have armed it before
      rw [List.map_singleton, List.disjoint_singleton]
      intro taken
      obtain ⟨timer, earlier, place⟩ := List.mem_map.1 taken
      obtain ⟨round, slot⟩ := Prod.mk.inj place
      have armed := h.armed timer earlier
      rw [round, slot, free] at armed
      cases armed

/-- Whatever a machine is given, it arms no slot for a second time. -/
theorem Reachable.armedOnce {admits : Life → Input → Prop} {l : Life}
    (h : Reachable s admits l) : ArmedOnce l.machine l.asked :=
  Leads.keeps (P := fun _ m asked => ArmedOnce m asked)
    (fun _ _ act held => held.keeps act) (fun _ held => held) h
    ⟨nofun, List.nodup_nil⟩

end

end Quorum
