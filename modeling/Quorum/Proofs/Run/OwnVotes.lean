/-
A node and the votes in its own name.

They come to a node in three ways: it has just signed one; it passes one on to
somebody who is missing it; or somebody hands one in. Of a round and kind a machine
signs one vote, and nobody else signs in its name, so all of them are copies of it.
The copy that is handled first is counted: no vote of the machine stands in its
place then, and its round is not ahead (`InLine.counts`). From there on a vote
stands, and for ever, so every other copy is refused, however it came
(`InLine.repeats`).

Which copy is first is a matter of the queue. It is never one that is passed on,
because that was recorded. It is the one that the machine has just signed
(`InLine.first`), unless somebody is quicker: a vote is announced before it is put
into the queue, and who hears of it may hand it in between.
-/
import Quorum.Proofs.Machine.Exchanging
import Quorum.Run.Node

namespace Quorum

-- ================================================ statement vocabulary

/-- Nobody else signs in its name: a vote in its name that comes is one that it
cast. Where a queue is `prompt`, a vote is in it before anybody hands in a copy. -/
def unforged [Crypto] (s : Setup) (prompt : Prop) (turns : List (World × Input))
    (pending : List Effect) (input : Input) : Prop :=
  ∀ vote, input = .message (.vote vote) → vote.verify = true →
    vote.body.validator = s.signer.address →
    vote.body ∈ (Life.after s turns).ballots ∧ (prompt → vote.body ∉ ballotsOf pending)

/-- How an input came into the queue of a machine. -/
inductive Origin where
  /-- Somebody handed it in. -/
  | outside
  /-- The machine has just made it. -/
  | made
  /-- The machine held it, and passed it on. -/
  | passedOn
deriving DecidableEq

/-- How the machine's own effects come back to it. -/
def Effect.origin : Effect → Origin
  | .forward _ => .passedOn
  | _ => .made

/-- What an effect puts into the queue of the machine that asks for it. -/
def Effect.returned? (s : Setup) (e : Effect) : Option (Origin × Input) :=
  (e.input? s.signer.address).map fun input => (e.origin, input)

/-- Turns of a machine that works off a queue, what is still to be done of the
effects of the last one, and what is in the queue. -/
inductive Queued [Crypto] (s : Setup) (prompt : Prop) :
    List (World × Input) → List Effect → List (Origin × Input) → Prop
  | rest : Queued s prompt [] [] []
  /-- Anything is handed in at any time, but for forged votes. -/
  | post {turns : List (World × Input)} {pending : List Effect}
      {queue : List (Origin × Input)} (input : Input)
      (honest : unforged s prompt turns pending input) :
      Queued s prompt turns pending queue →
      Queued s prompt turns pending (queue ++ [(.outside, input)])
  /-- The start and timers keep no order. Any of them may come before all that is
  in the queue, and one of the queue may be late. -/
  | overtake {turns : List (World × Input)} {pending : List Effect}
      {queue : List (Origin × Input)} (input : Input)
      (nomessage : ∀ message, input ≠ .message message) :
      Queued s prompt turns pending queue →
      Queued s prompt turns pending ((.outside, input) :: queue)
  | skip {turns : List (World × Input)} {pending : List Effect}
      {queue : List (Origin × Input)} {origin : Origin} {input : Input}
      (nomessage : ∀ message, input ≠ .message message) :
      Queued s prompt turns pending ((origin, input) :: queue) →
      Queued s prompt turns pending queue
  | handle {turns : List (World × Input)} {queue : List (Origin × Input)}
      {origin : Origin} {input : Input} (w : World) :
      Queued s prompt turns [] ((origin, input) :: queue) →
      Queued s prompt (turns ++ [(w, input)])
        ((Life.after s turns).machine.handle s w input).effects queue
  | dispatch {turns : List (World × Input)} {effect : Effect} {pending : List Effect}
      {queue : List (Origin × Input)} :
      Queued s prompt turns (effect :: pending) queue →
      Queued s prompt turns pending (queue ++ (effect.returned? s).toList)

/-- A copy of a vote was handled. -/
def Copied [Crypto] (turns : List (World × Input)) (vote : Vote) : Prop :=
  ∃ copy, Heard (turns.map (·.2)) copy ∧ copy.body = vote.body

/-- A vote is counted, and no vote of its validator was counted there before. -/
def Counts [Crypto] (s : Setup) (w : World) (m : Machine) (vote : Vote) : Prop :=
  let after := m.handle s w (.message (.vote vote))
  m.log.standing? vote = none ∧ after.machine.log.standing? vote = some vote
    ∧ (2 ≤ s.settings.maxPasses.toNat → after.result = .ok ())

/-- A vote is refused as one that is recorded, and nothing changes. -/
def Repeats [Crypto] (s : Setup) (w : World) (m : Machine) (vote : Vote) : Prop :=
  m.handle s w (.message (.vote vote))
    = ⟨m, [], .error (.vote (.recorded vote.body.kind vote.body.validator))⟩

/-- What becomes of a vote that comes after these turns, by how it came. -/
def Fares [Crypto] (s : Setup) (prompt : Prop) (turns : List (World × Input))
    (w : World) (vote : Vote) : Origin → Prop
  | .outside =>
    let m := (Life.after s turns).machine
    vote.verify = true → vote.body.validator = s.signer.address →
      Copied turns vote ∧ Repeats s w m vote
        ∨ ¬prompt ∧ ¬Copied turns vote ∧ Counts s w m vote
  | .made =>
    let m := (Life.after s turns).machine
    ¬Copied turns vote ∧ Counts s w m vote
      ∨ ¬prompt ∧ Copied turns vote ∧ Repeats s w m vote
  | .passedOn => Copied turns vote ∧ Repeats s w (Life.after s turns).machine vote

-- =========================================================== the queue

section

variable {s : Setup} {vote : Vote} {origin : Origin} {e : Effect}

/-- A vote is returned because it was signed or passed on. -/
theorem Effect.returned?_spec
    (back : e.returned? s = some (origin, .message (.vote vote))) :
    origin = .made ∧ e = .publish (.vote vote)
      ∨ origin = .passedOn ∧ e = .forward vote := by
  obtain ⟨input, own, same⟩ := Option.map_eq_some_iff.1 back
  cases same
  cases e with
  | emit => cases own
  | publish message =>
    dsimp only [Effect.input?] at own
    split at own
    case isTrue =>
      cases own
      exact Or.inl ⟨rfl, rfl⟩
    case isFalse => cases own
  | forward other =>
    dsimp only [Effect.input?] at own
    split at own
    case isTrue =>
      cases own
      exact Or.inr ⟨rfl, rfl⟩
    case isFalse => cases own
  | schedule timer delay =>
    dsimp only [Effect.input?] at own
    split at own
    case isTrue => cases own
    case isFalse => cases own

/-- A vote of its own that it signs comes back. -/
theorem Effect.returned?_publish (own : vote.body.validator = s.signer.address) :
    (Effect.publish (.vote vote)).returned? s = some (.made, .message (.vote vote)) := by
  have mine : (Message.vote vote).isOwnInput s.signer.address = true :=
    beq_iff_eq.2 own
  unfold Effect.returned?
  dsimp only [Effect.input?]
  rw [if_pos mine]
  rfl

/-- How an input came does not change which one it is. -/
theorem map_returned? (s : Setup) (es : List Effect) :
    (es.filterMap (Effect.returned? s)).map (·.2)
      = es.filterMap (Effect.input? s.signer.address) := by
  rw [List.map_filterMap]
  congr
  funext e
  unfold Effect.returned?
  simp

/-- Where an entry is found in a queue with more behind it. -/
theorem split_append {α : Type} {xs ys front back : List α} {x : α}
    (split : xs ++ ys = front ++ x :: back) :
    (∃ rest, xs = front ++ x :: rest)
      ∨ ∃ more, front = xs ++ more ∧ ys = more ++ x :: back := by
  rcases List.append_eq_append_iff.1 split with ⟨more, here, there⟩ | ⟨rest, here, there⟩
  · exact Or.inr ⟨more, here, there⟩
  · cases rest with
    | nil => exact Or.inr ⟨[], by simpa using here.symm, there.symm⟩
    | cons y rest =>
      cases there
      exact Or.inl ⟨rest, here⟩

/-- An option is one entry at most. -/
theorem eq_some_of_toList {α : Type} {o : Option α} {front back : List α} {x : α}
    (split : o.toList = front ++ x :: back) : front = [] ∧ o = some x := by
  cases o with
  | none => simp at split
  | some only =>
    cases front with
    | nil =>
      cases split
      exact ⟨rfl, rfl⟩
    | cons y front => simp at split

end

section

variable [Crypto] {s : Setup} {prompt : Prop} {w : World} {input : Input} {m : Machine}
  {vote : Vote} {turns : List (World × Input)} {effect : Effect}
  {pending : List Effect} {queue : List (Origin × Input)} {origin : Origin}

-- ========================================================== passing on

/-- What is passed on is recorded. -/
theorem Machine.mem_answer {holdings : Holdings} {votes : List Vote}
    (answers : m.answer s holdings = .ok votes) (among : vote ∈ votes) :
    ∃ address, m.log.voteOf? holdings.body.round holdings.body.kind address
      = some vote := by
  unfold answer at answers
  dsimp only at answers
  split at answers
  case h_1 => cases answers
  case h_2 =>
    split at answers
    case h_1 =>
      cases answers
      cases among
    case h_2 t found =>
      cases answers
      obtain ⟨among, -⟩ := List.mem_filter.1 among
      obtain ⟨flagged, -, held⟩ := List.mem_filterMap.1 among
      refine ⟨flagged.1.address, Option.bind_eq_some_iff.2 ⟨t, ?_, held⟩⟩
      exact HeightLog.tally?_getOrFresh found

/-- The vote that is passed on. -/
def Effect.passed? : Effect → Option Vote
  | .forward vote => some vote
  | _ => none

/-- Votes are passed on in answer to a list of held votes, and nothing else is done
then. -/
theorem Act.passes {m' : Machine} {es : List Effect} (act : Act s w input m es m')
    (passed : .forward vote ∈ es) :
    m' = m ∧ ∃ holdings votes, m.answer s holdings = .ok votes ∧ vote ∈ votes := by
  have shown : vote ∈ es.filterMap Effect.passed? :=
    List.mem_filterMap.2 ⟨_, passed, rfl⟩
  have blind : es.filterMap Effect.passed? ≠ [] := List.ne_nil_of_mem shown
  cases act with
  | passOn holdings votes given missed =>
    obtain ⟨_, among, same⟩ := List.mem_map.1 passed
    cases same
    exact ⟨rfl, holdings, votes, missed, among⟩
  | claim claim => exact absurd (filterMap_answering (fun _ => rfl) _) blind
  | beginRound =>
    exact absurd (filterMap_opening s w _ _
      (filterMap_scheduling s (fun _ _ => rfl) _ _ _) (fun _ _ => rfl)
      (fun _ => rfl) (fun _ => rfl)) blind
  | prevote => exact absurd (filterMap_casting s (fun _ => rfl) w _ _ _) blind
  | prevoteNothing => exact absurd (filterMap_casting s (fun _ => rfl) w _ _ _) blind
  | precommit => exact absurd (filterMap_casting s (fun _ => rfl) w _ _ _) blind
  | precommitNothing =>
    exact absurd (filterMap_casting s (fun _ => rfl) w _ _ _) blind
  | wait => exact absurd (filterMap_scheduling s (fun _ _ => rfl) _ _ _) blind
  | decideBlock => exact absurd (filterMap_scheduling s (fun _ _ => rfl) _ _ _) blind
  | lock =>
    rw [List.filterMap_append, filterMap_scheduling s (fun _ _ => rfl)] at blind
    exact absurd rfl blind
  | _ => exact absurd rfl blind

/-- A vote that is passed on stands. -/
theorem stands_of_forward (turns : List (World × Input)) (w : World)
    (input : Input) (passed : .forward vote
      ∈ ((Life.after s turns).machine.handle s w input).effects) :
    ((Life.after s turns).machine.handle s w input).machine.log.standing? vote
      = some vote := by
  have logged := (reachable_after s turns).log_sound
  rw [Life.given_after] at logged
  have kept := Acts.keeps (P := fun m asked =>
      m.log.Sound s.scope (Heard (turns.map (·.2) ++ [input]))
        (Offered s (turns.map (·.2) ++ [input]))
      ∧ ∀ vote, .forward vote ∈ asked → m.log.standing? vote = some vote)
    ?_ ((Life.after s turns).machine.handle_acts s w input)
    ⟨log_sound_append logged [input],
      fun vote (nothing : Effect.forward vote ∈ []) => nomatch nothing⟩
  · exact kept.2 vote passed
  · intro m m' es asked act ⟨logged, stand⟩
    refine ⟨act.log_sound logged, fun vote passed => ?_⟩
    rcases List.mem_append.1 passed with before | now
    · exact act.log_keeps.grows.voteOf? (stand vote before)
    · obtain ⟨rfl, holdings, votes, answers, among⟩ := act.passes now
      obtain ⟨address, known⟩ := Machine.mem_answer answers among
      exact HeightLog.standing?_of_voteOf? logged known

-- =============================================================== turns

/-- A turn takes nothing out of the record. -/
theorem log_grows_of_turn (s : Setup) (turns : List (World × Input)) (w : World)
    (input : Input) : (Life.after s turns).machine.log.Grows
      (Life.after s (turns ++ [(w, input)])).machine.log := by
  rw [Life.after_snoc]
  exact ((Life.after s turns).machine.handle_acts s w input).keeps_machine
    (P := fun m => (Life.after s turns).machine.log.Grows m.log)
    (fun act held => held.trans act.log_keeps.grows) (.refl _)

/-- What is signed in a turn ascends, and is apart from what was signed before. -/
theorem signs_of_turn (s : Setup) (turns : List (World × Input)) (w : World)
    (input : Input) :
    (ballotsOf ((Life.after s turns).machine.handle s w input).effects).Pairwise
        Ballot.Before
      ∧ ∀ ballot ∈ (Life.after s turns).ballots,
        ballot ∉ ballotsOf ((Life.after s turns).machine.handle s w input).effects := by
  have signs := (reachable_after s (turns ++ [(w, input)])).signsForward.ballots
  rw [Life.after_snoc] at signs
  have signs : (ballotsOf ((Life.after s turns).asked
    ++ ((Life.after s turns).machine.handle s w input).effects)).Pairwise Ballot.Before :=
    signs
  rw [ballotsOf_append, List.pairwise_append] at signs
  refine ⟨signs.2.1, fun ballot cast again => ?_⟩
  exact (signs.2.2 ballot cast ballot again).apart ⟨rfl, rfl⟩

omit [Crypto] in
/-- A vote that is sent is one of the ballots cast. -/
theorem mem_ballotsOf {es : List Effect} (sent : .publish (.vote vote) ∈ es) :
    vote.body ∈ ballotsOf es :=
  List.mem_filterMap.2 ⟨_, sent, rfl⟩

omit [Crypto] in
/-- And a ballot that is cast is sent as a vote. -/
theorem exists_of_mem_ballotsOf {es : List Effect} {ballot : Ballot}
    (cast : ballot ∈ ballotsOf es) :
    ∃ vote, .publish (.vote vote) ∈ es ∧ vote.body = ballot := by
  obtain ⟨effect, sent, shown⟩ := List.mem_filterMap.1 cast
  unfold Effect.ballot? at shown
  split at shown
  case h_1 vote =>
    cases shown
    exact ⟨vote, sent, rfl⟩
  case h_2 => cases shown

/-- A ballot that was signed is its own, and the vote verifies. -/
theorem ours_of_publish (sent : .publish (.vote vote) ∈ (Life.after s turns).asked) :
    vote.body.Ours s ∧ (s.signer.Faithful → vote.verify = true) := by
  cases (sending_after s turns).sendable _ sent with
  | vote ballot ours =>
    exact ⟨ours, fun faithful => faithful.verify ours.validator⟩

/-- A ballot that it cast is for this height, in its name, and with its power. -/
theorem ours_of_cast (cast : vote.body ∈ (Life.after s turns).ballots) :
    vote.body.Ours s := by
  obtain ⟨first, sent, same⟩ := exists_of_mem_ballotsOf cast
  exact same ▸ (ours_of_publish sent).1

/-- A vote that stands was given. -/
theorem heard_of_standing {copy : Vote}
    (stands : (Life.after s turns).machine.log.standing? vote = some copy) :
    Heard (turns.map (·.2)) copy := by
  have logged := (reachable_after s turns).log_sound
  rw [Life.given_after] at logged
  exact (HeightLog.voteOf?_spec logged stands).1

/-- Whatever says the same as a vote that stands is refused. -/
theorem repeats_of_standing {copy : Vote}
    (stands : (Life.after s turns).machine.log.standing? vote = some copy)
    (same : copy.body = vote.body) (verified : vote.verify = true) (w : World) :
    Repeats s w (Life.after s turns).machine vote := by
  have start := reachable_after s turns
  have countable := HeightLog.countable_of_voteOf? start.log_sound start.thrifty stands
  have countable : Vote.Countable s.scope vote :=
    ⟨same ▸ countable.height, same ▸ countable.power, same ▸ countable.counts⟩
  have passes := Machine.voteRefusal?_eq_none countable.height countable.counts verified
  have agrees : copy.body.hash = vote.body.hash := congrArg Ballot.hash same
  unfold Repeats
  rw [Machine.handle_known start.log_sound countable passes stands w (if_pos agrees).symm]
  simp [Machine.convictions]

-- ============================================================= in line

/-- Of what was given in two parts, a vote was heard in one of them. -/
theorem heard_append {given more : List Input} :
    Heard (given ++ more) vote ↔ Heard given vote ∨ Heard more vote := by
  unfold Heard
  rw [List.mem_append, or_and_right]

/-- Of what is in line, a vote is in one part or in the other. -/
theorem heard_entries {given : List Input} {entries more : List (Origin × Input)}
    (heard : Heard (given ++ (entries ++ more).map (·.2)) vote) :
    Heard (given ++ entries.map (·.2)) vote
      ∨ ∃ origin, (origin, .message (.vote vote)) ∈ more := by
  rw [List.map_append, ← List.append_assoc] at heard
  rcases heard_append.1 heard with before | ⟨among, -⟩
  · exact Or.inl before
  · obtain ⟨⟨origin, _⟩, among, rfl⟩ := List.mem_map.1 among
    exact Or.inr ⟨origin, among⟩

/-- What is no message is not heard. -/
theorem heard_skip (nomessage : ∀ message, input ≠ .message message)
    {given more : List Input} (heard : Heard (given ++ input :: more) vote) :
    Heard (given ++ more) vote := by
  obtain ⟨among, verified⟩ := heard
  refine ⟨?_, verified⟩
  rcases List.mem_append.1 among with before | behind
  · exact List.mem_append_left _ before
  rcases List.mem_cons.1 behind with same | behind
  · exact absurd same.symm (nomessage _)
  · exact List.mem_append_right _ behind

/-- What was heard is heard among more. -/
theorem heard_more {given more : List Input} (heard : Heard (given ++ more) vote) :
    Heard (given ++ input :: more) vote :=
  ⟨(List.append_sublist_append_left _).2 (List.sublist_cons_self _ _)
    |>.subset heard.1, heard.2⟩

/-- What is true at any moment of a machine and its queue. -/
structure InLine (s : Setup) (prompt : Prop) (turns : List (World × Input))
    (pending : List Effect) (queue : List (Origin × Input)) : Prop where
  /-- Votes in its name are votes that it cast. -/
  known : ∀ vote, Heard (turns.map (·.2) ++ queue.map (·.2)) vote →
    vote.body.validator = s.signer.address → vote.body ∈ (Life.after s turns).ballots
  /-- Those that were handled are counted, they or a copy. -/
  counted : ∀ vote, Heard (turns.map (·.2)) vote →
    vote.body.validator = s.signer.address →
    ∃ copy, (Life.after s turns).machine.log.standing? vote = some copy
  asked : ∀ effect ∈ pending, effect ∈ (Life.after s turns).asked
  made : ∀ vote, (.made, .message (.vote vote)) ∈ queue →
    .publish (.vote vote) ∈ (Life.after s turns).asked
  passedOn : ∀ vote,
    .forward vote ∈ pending ∨ (.passedOn, .message (.vote vote)) ∈ queue →
    (Life.after s turns).machine.log.standing? vote = some vote
  cast : ∀ vote, .publish (.vote vote) ∈ (Life.after s turns).asked →
    .publish (.vote vote) ∈ pending ∨ (.made, .message (.vote vote)) ∈ queue
      ∨ Copied turns vote
  ascends : (ballotsOf pending).Pairwise Ballot.Before
  /-- No copy is in line of a vote that is still to be put into the queue. -/
  next : prompt → ∀ vote, Heard (turns.map (·.2) ++ queue.map (·.2)) vote →
    vote.body ∉ ballotsOf pending
  /-- No copy is before a vote that it has just made. -/
  first : prompt → ∀ front vote back,
    queue = front ++ (.made, .message (.vote vote)) :: back →
    ∀ other, Heard (turns.map (·.2) ++ front.map (·.2)) other → other.body ≠ vote.body

namespace InLine

-- ========================================== the first copy, and others

/-- What stands in the place of a vote that it cast is a copy. -/
theorem copy_of_standing {copy : Vote} (h : InLine s prompt turns pending queue)
    (cast : vote.body ∈ (Life.after s turns).ballots)
    (stands : (Life.after s turns).machine.log.standing? vote = some copy) :
    Heard (turns.map (·.2)) copy ∧ copy.body = vote.body := by
  have start := reachable_after s turns
  have logged := start.log_sound
  rw [Life.given_after] at logged
  obtain ⟨heard, author, -, round, kind⟩ := HeightLog.voteOf?_spec logged stands
  refine ⟨heard, start.signsForward.ballot_unique ?_ cast round kind⟩
  exact h.known copy (heard_append.2 (Or.inl heard))
    (author.trans (ours_of_cast cast).validator)

/-- Once a copy of a vote that it cast was handled, a copy stands. -/
theorem standing_of_copied (h : InLine s prompt turns pending queue)
    (cast : vote.body ∈ (Life.after s turns).ballots) (copied : Copied turns vote) :
    ∃ copy, (Life.after s turns).machine.log.standing? vote = some copy
      ∧ copy.body = vote.body := by
  obtain ⟨other, heard, same⟩ := copied
  obtain ⟨copy, stands⟩ := h.counted other heard (same ▸ (ours_of_cast cast).validator)
  unfold HeightLog.standing? at stands
  rw [same] at stands
  exact ⟨copy, stands, (h.copy_of_standing cast stands).2⟩

/-- The first copy is counted. -/
theorem counts (h : InLine s prompt turns pending queue)
    (cast : vote.body ∈ (Life.after s turns).ballots) (verified : vote.verify = true)
    (new : ¬Copied turns vote) (w : World) :
    Counts s w (Life.after s turns).machine vote := by
  have start := reachable_after s turns
  have ours := ours_of_cast cast
  have countable : Vote.Countable s.scope vote := by
    refine ⟨ours.height, ?_, ours.counts⟩
    rw [ours.validator]
    exact ours.power
  have none : (Life.after s turns).machine.log.standing? vote = none := by
    cases stands : (Life.after s turns).machine.log.standing? vote with
    | none => rfl
    | some copy => exact absurd ⟨copy, h.copy_of_standing cast stands⟩ new
  -- its round has begun, so it is open
  have near : (Life.after s turns).machine.log.isAhead vote.body.round = false := by
    have behind := UInt32.le_iff_toNat_le.1 (start.signsForward.reached _ cast).round_le
    rw [← start.onward.placed] at behind
    exact decide_eq_false (by omega)
  obtain ⟨opened, opens⟩ := HeightLog.exists_openFor? vote.body.validator near
  exact ⟨none, Machine.counts_vote start.onward start.log_sound countable verified none
    (opens ▸ rfl) w⟩

/-- Every other is refused. -/
theorem repeats (h : InLine s prompt turns pending queue)
    (cast : vote.body ∈ (Life.after s turns).ballots) (verified : vote.verify = true)
    (copied : Copied turns vote) (w : World) :
    Repeats s w (Life.after s turns).machine vote := by
  obtain ⟨copy, stands, same⟩ := h.standing_of_copied cast copied
  exact repeats_of_standing stands same verified w

/-- In a prompt queue, a copy of what somebody hands in was handled. -/
theorem copied_of_outside
    (h : InLine s prompt turns pending ((.outside, .message (.vote vote)) :: queue))
    (prompt : prompt) (verified : vote.verify = true)
    (cast : vote.body ∈ (Life.after s turns).ballots) : Copied turns vote := by
  have here : ∀ front : List (Origin × Input), Heard (turns.map (·.2)
      ++ ((.outside, .message (.vote vote)) :: front).map (·.2)) vote := fun front =>
    ⟨List.mem_append_right _ List.mem_cons_self, verified⟩
  obtain ⟨first, sent, same⟩ := exists_of_mem_ballotsOf cast
  rcases h.cast first sent with pends | waits | ⟨copy, heard, copies⟩
  · exact absurd (same ▸ mem_ballotsOf pends) (h.next prompt vote (here queue))
  · -- it would be behind the one that was handed in
    rcases List.mem_cons.1 waits with now | behind
    · cases now
    · obtain ⟨front, back, rfl⟩ := List.append_of_mem behind
      exact absurd same.symm (h.first prompt (_ :: front) first back rfl vote (here front))
  · exact ⟨copy, heard, copies.trans same⟩

/-- How a vote fares is a matter of whether a copy was handled before it. -/
theorem fares (h : InLine s prompt turns pending ((origin, .message (.vote vote)) :: queue))
    (faithful : s.signer.Faithful) (w : World) : Fares s prompt turns w vote origin := by
  cases origin with
  | outside =>
    intro verified own
    have cast := h.known vote ⟨List.mem_append_right _ List.mem_cons_self, verified⟩ own
    by_cases copied : Copied turns vote
    · exact Or.inl ⟨copied, h.repeats cast verified copied w⟩
    · refine Or.inr ⟨fun prompt => ?_, copied, h.counts cast verified copied w⟩
      exact copied (h.copied_of_outside prompt verified cast)
  | made =>
    have sent := h.made vote List.mem_cons_self
    have cast := mem_ballotsOf sent
    have verified := (ours_of_publish sent).2 faithful
    by_cases copied : Copied turns vote
    · refine Or.inr ⟨fun prompt => ?_, copied, h.repeats cast verified copied w⟩
      obtain ⟨copy, heard, same⟩ := copied
      refine h.first prompt [] vote queue rfl copy ?_ same
      rwa [List.map_nil, List.append_nil]
    · exact Or.inl ⟨copied, h.counts cast verified copied w⟩
  | passedOn =>
    have stands := h.passedOn vote (Or.inr List.mem_cons_self)
    have heard := heard_of_standing stands
    exact ⟨⟨vote, heard, rfl⟩, repeats_of_standing stands rfl heard.2 w⟩

-- ================================================== one step at a time

/-- Before anything is given there is nothing in line. -/
theorem rest (s : Setup) (prompt : Prop) : InLine s prompt [] [] [] where
  known := fun _ heard _ => nomatch heard.1
  counted := fun _ heard _ => nomatch heard.1
  asked := nofun
  made := nofun
  passedOn := fun _ waits => nomatch waits
  cast := nofun
  ascends := .nil
  next := fun _ _ heard => nomatch heard.1
  first := fun _ front _ _ split => by simp at split

/-- What somebody hands in comes last. Only for a prompt queue does it matter
when. -/
theorem post (h : InLine s prompt turns pending queue)
    (honest : unforged s prompt turns pending input) :
    InLine s prompt turns pending (queue ++ [(.outside, input)]) where
  known := by
    intro vote heard own
    rw [List.map_append, ← List.append_assoc] at heard
    rcases heard_append.1 heard with before | ⟨now, verified⟩
    · exact h.known vote before own
    · cases List.mem_singleton.1 now
      exact (honest vote rfl verified own).1
  counted := h.counted
  asked := h.asked
  made := by
    intro vote member
    rcases List.mem_append.1 member with before | now
    · exact h.made vote before
    · cases List.mem_singleton.1 now
  passedOn := by
    intro vote waits
    rcases waits with pends | member
    · exact h.passedOn vote (Or.inl pends)
    rcases List.mem_append.1 member with before | now
    · exact h.passedOn vote (Or.inr before)
    · cases List.mem_singleton.1 now
  cast := fun vote sent =>
    (h.cast vote sent).imp_right (Or.imp_left (List.mem_append_left _))
  ascends := h.ascends
  next := by
    intro prompt vote heard pends
    rw [List.map_append, ← List.append_assoc] at heard
    rcases heard_append.1 heard with before | ⟨now, verified⟩
    · exact h.next prompt vote before pends
    · cases List.mem_singleton.1 now
      obtain ⟨first, sent, same⟩ := exists_of_mem_ballotsOf pends
      have own := (ours_of_publish (h.asked _ sent)).1.validator
      exact (honest vote rfl verified (same ▸ own)).2 prompt pends
  first := by
    intro prompt front vote back split
    rcases split_append split with ⟨rest, before⟩ | ⟨more, -, now⟩
    · exact h.first prompt front vote rest before
    · have member : (Origin.made, Input.message (.vote vote)) ∈ [(.outside, input)] :=
        now ▸ List.mem_append_right _ List.mem_cons_self
      cases List.mem_singleton.1 member

/-- What is no message may also come first, as a start does or a timer that
fires. -/
theorem overtake (h : InLine s prompt turns pending queue)
    (nomessage : ∀ message, input ≠ .message message) :
    InLine s prompt turns pending ((.outside, input) :: queue) where
  known := fun vote heard => h.known vote (heard_skip nomessage heard)
  counted := h.counted
  asked := h.asked
  made := by
    intro vote member
    rcases List.mem_cons.1 member with now | before
    · cases now
    · exact h.made vote before
  passedOn := by
    intro vote waits
    refine h.passedOn vote (waits.imp_right fun member => ?_)
    rcases List.mem_cons.1 member with now | before
    · cases now
    · exact before
  cast := fun vote sent =>
    (h.cast vote sent).imp_right (Or.imp_left (List.mem_cons_of_mem _))
  ascends := h.ascends
  next := fun prompt vote heard => h.next prompt vote (heard_skip nomessage heard)
  first := by
    intro prompt front vote back split other heard
    cases front with
    | nil => cases split
    | cons entry front =>
      cases split
      exact h.first prompt front vote back rfl other (heard_skip nomessage heard)

/-- What is no message can be taken out of the queue. -/
theorem skip (h : InLine s prompt turns pending ((origin, input) :: queue))
    (nomessage : ∀ message, input ≠ .message message) :
    InLine s prompt turns pending queue where
  known := fun vote heard => h.known vote (heard_more heard)
  counted := h.counted
  asked := h.asked
  made := fun vote member => h.made vote (List.mem_cons_of_mem _ member)
  passedOn := fun vote waits =>
    h.passedOn vote (waits.imp_right (List.mem_cons_of_mem _))
  cast := by
    intro vote sent
    refine (h.cast vote sent).imp_right (Or.imp_left fun waits => ?_)
    rcases List.mem_cons.1 waits with next | behind
    · cases next
      exact absurd rfl (nomessage _)
    · exact behind
  ascends := h.ascends
  next := fun prompt vote heard => h.next prompt vote (heard_more heard)
  first := by
    intro prompt front vote back split other heard
    subst split
    exact h.first prompt ((origin, input) :: front) vote back rfl other (heard_more heard)

/-- What is put into the queue is a vote that pends, or one that was handled. -/
theorem heard_dispatch (h : InLine s prompt turns (effect :: pending) queue)
    (heard : Heard (turns.map (·.2)
      ++ (queue ++ (effect.returned? s).toList).map (·.2)) vote) :
    Heard (turns.map (·.2) ++ queue.map (·.2)) vote ∨ effect = .publish (.vote vote) := by
  rcases heard_entries heard with before | ⟨origin, back⟩
  · exact Or.inl before
  rcases Effect.returned?_spec (Option.mem_toList.1 back) with ⟨-, sent⟩ | ⟨-, rfl⟩
  · exact Or.inr sent
  · have stands := h.passedOn vote (Or.inl List.mem_cons_self)
    exact Or.inl (heard_append.2 (Or.inl (heard_of_standing stands)))

/-- The next effect of a turn puts an input at the end of the queue, or none. -/
theorem dispatch (h : InLine s prompt turns (effect :: pending) queue) :
    InLine s prompt turns pending (queue ++ (effect.returned? s).toList) where
  known := by
    intro vote heard own
    rcases h.heard_dispatch heard with before | rfl
    · exact h.known vote before own
    · exact mem_ballotsOf (h.asked _ List.mem_cons_self)
  counted := h.counted
  asked := fun later among => h.asked later (List.mem_cons_of_mem _ among)
  made := by
    intro vote member
    rcases List.mem_append.1 member with before | now
    · exact h.made vote before
    · rcases Effect.returned?_spec (Option.mem_toList.1 now) with ⟨-, rfl⟩ | ⟨other, -⟩
      · exact h.asked _ List.mem_cons_self
      · cases other
  passedOn := by
    intro vote waits
    rcases waits with pends | member
    · exact h.passedOn vote (Or.inl (List.mem_cons_of_mem _ pends))
    rcases List.mem_append.1 member with before | now
    · exact h.passedOn vote (Or.inr before)
    · rcases Effect.returned?_spec (Option.mem_toList.1 now) with ⟨other, -⟩ | ⟨-, rfl⟩
      · cases other
      · exact h.passedOn vote (Or.inl List.mem_cons_self)
  cast := by
    intro vote sent
    rcases h.cast vote sent with pends | waits | copied
    · rcases List.mem_cons.1 pends with now | later
      -- a vote of its own that it sends is put into the queue
      · have own := (ours_of_publish sent).1.validator
        have back := now ▸ Effect.returned?_publish own
        exact Or.inr (Or.inl (List.mem_append_right _ (Option.mem_toList.2 back)))
      · exact Or.inl later
    · exact Or.inr (Or.inl (List.mem_append_left _ waits))
    · exact Or.inr (Or.inr copied)
  ascends := h.ascends.sublist (List.Sublist.filterMap _ (List.sublist_cons_self _ _))
  next := by
    intro prompt vote heard pends
    -- of one place it signs one vote, so what is put in is not what pends
    rcases h.heard_dispatch heard with before | rfl
    · refine h.next prompt vote before ?_
      exact (List.Sublist.filterMap _ (List.sublist_cons_self _ _)).subset pends
    · exact ((List.pairwise_cons.1 h.ascends).1 _ pends).apart ⟨rfl, rfl⟩
  first := by
    intro prompt front vote back split other heard
    rcases split_append split with ⟨rest, rfl⟩ | ⟨more, rfl, now⟩
    · exact h.first prompt front vote rest rfl other heard
    · obtain ⟨rfl, back⟩ := eq_some_of_toList now
      rw [List.append_nil] at heard
      rcases Effect.returned?_spec back with ⟨-, rfl⟩ | ⟨bad, -⟩
      · intro same
        exact h.next prompt other heard (same ▸ mem_ballotsOf List.mem_cons_self)
      · cases bad

/-- Once a vote in its name was handled, one stands. -/
theorem counted_next (h : InLine s prompt turns [] ((origin, input) :: queue)) (w : World)
    (heard : Heard ((turns ++ [(w, input)]).map (·.2)) vote)
    (own : vote.body.validator = s.signer.address) :
    ∃ copy, (Life.after s (turns ++ [(w, input)])).machine.log.standing? vote
      = some copy := by
  have grows := log_grows_of_turn s turns w input
  rw [List.map_append] at heard
  rcases heard_append.1 heard with before | ⟨now, verified⟩
  · obtain ⟨copy, stands⟩ := h.counted vote before own
    exact ⟨copy, grows.voteOf? stands⟩
  · cases List.mem_singleton.1 now
    have cast := h.known vote ⟨List.mem_append_right _ List.mem_cons_self, verified⟩ own
    by_cases copied : Copied turns vote
    · obtain ⟨copy, stands, -⟩ := h.standing_of_copied cast copied
      exact ⟨copy, grows.voteOf? stands⟩
    · rw [Life.after_snoc]
      exact ⟨vote, (h.counts cast verified copied w).2.1⟩

/-- A vote that it signed before is in the queue still, or was handled. -/
theorem cast_next (h : InLine s prompt turns [] ((origin, input) :: queue))
    (faithful : s.signer.Faithful) (w : World)
    (sent : .publish (.vote vote) ∈ (Life.after s turns).asked) :
    (.made, .message (.vote vote)) ∈ queue ∨ Copied (turns ++ [(w, input)]) vote := by
  unfold Copied
  rw [List.map_append]
  rcases h.cast vote sent with pends | waits | ⟨copy, heard, same⟩
  · cases pends
  · rcases List.mem_cons.1 waits with next | behind
    · cases next
      have verified := (ours_of_publish sent).2 faithful
      exact Or.inr ⟨vote, ⟨List.mem_append_right _ List.mem_cons_self, verified⟩, rfl⟩
    · exact Or.inl behind
  · exact Or.inr ⟨copy, heard_append.2 (Or.inl heard), same⟩

/-- The first of the queue is handled, once nothing pends of the turn before. -/
theorem handle (h : InLine s prompt turns [] ((origin, input) :: queue))
    (faithful : s.signer.Faithful) (w : World) :
    InLine s prompt (turns ++ [(w, input)])
      ((Life.after s turns).machine.handle s w input).effects queue := by
  have asked : (Life.after s (turns ++ [(w, input)])).asked = (Life.after s turns).asked
      ++ ((Life.after s turns).machine.handle s w input).effects :=
    congrArg Life.asked (Life.after_snoc s turns (w, input))
  obtain ⟨ascends, apart⟩ := signs_of_turn s turns w input
  -- what was handled is still before all that is in the queue
  have moved : ∀ {vote} {more : List (Origin × Input)},
      Heard ((turns ++ [(w, input)]).map (·.2) ++ more.map (·.2)) vote →
      Heard (turns.map (·.2) ++ ((origin, input) :: more).map (·.2)) vote := by
    intro vote more heard
    simpa using heard
  constructor
  case known =>
    -- it was given before this turn, since it was in line
    intro vote heard own
    show vote.body ∈ ballotsOf _
    rw [asked, ballotsOf_append]
    exact List.mem_append_left _ (h.known vote (moved heard) own)
  case counted => exact fun _ => h.counted_next w
  case asked =>
    intro effect among
    rw [asked]
    exact List.mem_append_right _ among
  case made =>
    intro vote member
    rw [asked]
    exact List.mem_append_left _ (h.made vote (List.mem_cons_of_mem _ member))
  case passedOn =>
    intro vote waits
    rcases waits with pends | member
    · rw [Life.after_snoc]
      exact stands_of_forward turns w input pends
    · have stood := h.passedOn vote (Or.inr (List.mem_cons_of_mem _ member))
      exact (log_grows_of_turn s turns w input).voteOf? stood
  -- cast before this turn it waits or was handled, cast in it it pends
  case cast =>
    intro vote sent
    rw [asked] at sent
    rcases List.mem_append.1 sent with before | now
    · exact Or.inr (h.cast_next faithful w before)
    · exact Or.inl now
  case ascends => exact ascends
  case next =>
    intro _ vote heard signed
    obtain ⟨first, sent, same⟩ := exists_of_mem_ballotsOf signed
    have own := (ours_of_publish (asked ▸ List.mem_append_right _ sent)).1.validator
    exact apart _ (h.known vote (moved heard) (same ▸ own)) signed
  case first =>
    intro prompt front vote back split other heard
    subst split
    exact h.first prompt ((origin, input) :: front) vote back rfl other (moved heard)

end InLine

/-- Any way to work off a queue is a sequence of these steps. -/
theorem Queued.inLine (faithful : s.signer.Faithful)
    (queued : Queued s prompt turns pending queue) :
    InLine s prompt turns pending queue := by
  induction queued with
  | rest => exact .rest s prompt
  | post input honest _ ih => exact ih.post honest
  | overtake input nomessage _ ih => exact ih.overtake nomessage
  | skip nomessage _ ih => exact ih.skip nomessage
  | handle w _ ih => exact ih.handle faithful w
  | dispatch _ ih => exact ih.dispatch

/-- The effects of a turn that are dispatched with nothing in between. -/
theorem Queued.dispatched {es : List Effect} (queued : Queued s prompt turns es queue) :
    Queued s prompt turns [] (queue ++ es.filterMap (Effect.returned? s)) := by
  induction es generalizing queue with
  | nil => simpa using queued
  | cons effect es ih =>
    have later := ih queued.dispatch
    rw [List.append_assoc] at later
    rw [List.filterMap_cons]
    cases shown : effect.returned? s with
    | none => simpa [shown] using later
    | some entry => simpa [shown] using later

-- =============================================================== nodes

/-- A node that works off this queue. -/
structure Node.Follows (n : Node) (prompt : Prop) (turns : List (World × Input))
    (queue : List (Origin × Input)) : Prop where
  queued : Queued n.setup prompt turns [] queue
  machine : n.machine = (Life.after n.setup turns).machine
  waits : n.queue = queue.map (·.2)

/-- Where a vote is counted, a node tells what the vote brings about, and no fault. -/
theorem Node.handleInput_of_counts {n : Node} (counts : Counts n.setup w n.machine vote)
    (enough : 2 ≤ n.setup.settings.maxPasses.toNat) :
    (n.handleInput w (.message (.vote vote))).1
      = (n.machine.handle n.setup w (.message (.vote vote))).effects.filterMap
        Effect.event? := by
  have ok := counts.2.2 enough
  unfold Node.handleInput
  dsimp only at ok ⊢
  rw [ok]

/-- Where it is refused, a node tells that, and is as before. -/
theorem Node.handleInput_of_repeats {n : Node}
    (repeats : Repeats n.setup w n.machine vote) :
    n.handleInput w (.message (.vote vote)) = ([.faultOccurred
      (.vote (.recorded vote.body.kind vote.body.validator))], n) := by
  unfold Node.handleInput
  rw [repeats]
  simp [dispatch, Fault.isFatal]

namespace Node.Follows

variable {n n' : Node}

/-- A start comes before all that waits. -/
theorem start (h : n.Follows prompt turns queue) (started : n.start = .ok n') :
    n'.Follows prompt turns ((.outside, .start) :: queue) := by
  unfold Node.start at started
  split at started
  case h_1 => cases started
  case h_2 => cases started
  case h_3 =>
    cases started
    exact ⟨h.queued.overtake .start nofun, h.machine, congrArg (.start :: ·) h.waits⟩

/-- What is put at the end of the queue was handed in. -/
theorem append (h : n.Follows prompt turns queue)
    (honest : unforged n.setup prompt turns [] input)
    (setup : n'.setup = n.setup) (machine : n'.machine = n.machine)
    (added : n'.queue = n.queue ++ [input]) :
    n'.Follows prompt turns (queue ++ [(.outside, input)]) := by
  refine ⟨?_, ?_, ?_⟩
  · rw [setup]
    exact h.queued.post input honest
  · rw [setup, machine]
    exact h.machine
  · rw [added, h.waits, List.map_append]
    rfl

/-- A message that is posted to a working node waits at the end. -/
theorem post {message : Message} (h : n.Follows prompt turns queue)
    (honest : unforged n.setup prompt turns [] (.message message))
    (posted : n.post message = .ok n') :
    n'.Follows prompt turns (queue ++ [(.outside, .message message)]) := by
  unfold Node.post at posted
  split at posted
  case h_1 => cases posted
  case h_2 =>
    cases posted
    exact h.append honest rfl rfl rfl

/-- An input that was taken from the queue is a turn. -/
theorem handleInput (queued : Queued n.setup prompt turns [] ((origin, input) :: queue))
    (machine : n.machine = (Life.after n.setup turns).machine)
    (waits : n.queue = queue.map (·.2))
    (running : (n.handleInput w input).2.phase = .running) :
    (n.handleInput w input).2.Follows prompt (turns ++ [(w, input)]) (queue
      ++ ((Life.after n.setup turns).machine.handle n.setup w input).effects.filterMap
        (Effect.returned? n.setup)) := by
  have queued := (queued.handle w).dispatched
  have after : (Life.after n.setup (turns ++ [(w, input)])).machine
      = (n.machine.handle n.setup w input).machine := by
    rw [Life.after_snoc, machine]
    rfl
  rw [← machine] at queued ⊢
  have kept : ({ n with machine := (n.machine.handle n.setup w input).machine }.dispatch
      (n.machine.handle n.setup w input).effects).Follows prompt (turns ++ [(w, input)])
        (queue ++ (n.machine.handle n.setup w input).effects.filterMap
          (Effect.returned? n.setup)) := by
    refine ⟨queued, after.symm, ?_⟩
    rw [List.map_append, map_returned?, ← waits]
    rfl
  unfold Node.handleInput at running ⊢
  dsimp only at running ⊢
  split at running
  case h_1 => exact kept
  case h_2 fault failed =>
    dsimp only at running ⊢
    split at running
    case isTrue => cases running
    case isFalse rejected =>
      rw [if_neg rejected]
      exact kept

/-- A node that works after its queue was worked off did so before. -/
theorem running_of_drain {budget : Nat} (running : (n.drain w budget).2.phase = .running) :
    n.phase = .running := by
  cases budget with
  | zero => exact running
  | succ budget =>
    unfold Node.drain at running
    split at running
    case h_1 working _ => exact working
    case h_2 => exact running

/-- As long as a node works, what it does are turns at its queue. -/
theorem drain (budget : Nat) (h : n.Follows prompt turns queue)
    (running : (n.drain w budget).2.phase = .running) :
    ∃ turns queue, (n.drain w budget).2.Follows prompt turns queue := by
  induction budget generalizing n turns queue with
  | zero => exact ⟨turns, queue, h⟩
  | succ budget ih =>
    unfold Node.drain at running ⊢
    split at running
    case h_2 => exact ⟨turns, queue, h⟩
    case h_1 input rest working waiting =>
      dsimp only at running ⊢
      have waits := h.waits
      rw [waiting] at waits
      cases queue with
      | nil => cases waits
      | cons entry queue =>
        obtain ⟨origin, _⟩ := entry
        cases waits
        exact ih (handleInput (n := { n with queue := _ }) h.queued h.machine rfl
          (running_of_drain running)) running

/-- A node that works after its timers fired did so before. -/
theorem running_of_fireUntil {budget limit rounds : Nat}
    (running : (n.fireUntil w budget limit rounds).2.phase = .running) :
    n.phase = .running := by
  induction rounds generalizing n with
  | zero => exact running
  | succ rounds ih =>
    unfold Node.fireUntil at running
    split at running
    case h_1 => exact running
    case h_2 => exact (running_of_drain (ih running) :)

/-- So are timers that fire. -/
theorem fireUntil {budget limit : Nat} (rounds : Nat) (h : n.Follows prompt turns queue)
    (running : (n.fireUntil w budget limit rounds).2.phase = .running) :
    ∃ turns queue, (n.fireUntil w budget limit rounds).2.Follows prompt turns queue := by
  induction rounds generalizing n turns queue with
  | zero => exact ⟨turns, queue, h⟩
  | succ rounds ih =>
    unfold Node.fireUntil at running ⊢
    split at running
    case h_1 => exact ⟨turns, queue, h.queued, h.machine, h.waits⟩
    case h_2 due timer _ =>
      dsimp only at running ⊢
      have fired : Node.Follows { n with
          clock := due
          timers := n.timers.erase (due, timer)
          queue := n.queue ++ [.timer timer] }
          prompt turns (queue ++ [(.outside, .timer timer)]) :=
        h.append nofun rfl rfl rfl
      obtain ⟨turns, queue, worked⟩ := fired.drain budget (running_of_fireUntil running)
      exact ih worked running

/-- A new node has handled nothing. -/
theorem fresh (s : Setup) (prompt : Prop) :
    Node.Follows { setup := s, machine := Machine.initial s } prompt [] [] :=
  ⟨.rest, rfl, rfl⟩

/-- A node that comes to a vote it has just signed tells no fault, if its queue is
prompt. One that comes to a vote it passed on tells nothing else. -/
theorem tells (h : n.Follows prompt turns ((origin, .message (.vote vote)) :: queue))
    (faithful : n.setup.signer.Faithful) (w : World) :
    (origin = .made → prompt → 2 ≤ n.setup.settings.maxPasses.toNat →
        (n.handleInput w (.message (.vote vote))).1
          = (n.machine.handle n.setup w (.message (.vote vote))).effects.filterMap
            Effect.event?)
      ∧ (origin = .passedOn → n.handleInput w (.message (.vote vote))
        = ([.faultOccurred (.vote (.recorded vote.body.kind vote.body.validator))], n)) := by
  have fares := (h.queued.inLine faithful).fares faithful w
  constructor
  case left =>
    rintro rfl prompt enough
    rcases fares with ⟨-, counts⟩ | ⟨overtaken, -⟩
    · exact Node.handleInput_of_counts (h.machine ▸ counts) enough
    · exact absurd prompt overtaken
  case right =>
    rintro rfl
    exact Node.handleInput_of_repeats (h.machine ▸ fares.2)

end Node.Follows

/-- Whatever is handed to a node, and whatever it is asked for, at any time and in
any order, as long as nobody else signs in its name: every vote that it signed is on
its way into the queue, in it, or counted. Of its copies the one that is handled
first is counted, and no vote of its own was counted there before. Every other is
refused, and nothing changes then. The vote that it has just signed is the first, if
it is in the queue before anybody hands in a copy. One that it passes on comes back,
too, and never is the first. -/
theorem own_votes_counted_once (faithful : s.signer.Faithful)
    (queued : Queued s prompt turns pending queue) :
    (∀ vote, .publish (.vote vote) ∈ (Life.after s turns).asked →
      .publish (.vote vote) ∈ pending ∨ (.made, .message (.vote vote)) ∈ queue
        ∨ ∃ copy, (Life.after s turns).machine.log.standing? vote = some copy
          ∧ copy.body = vote.body)
      ∧ ∀ origin vote rest, queue = (origin, .message (.vote vote)) :: rest →
        ∀ w, Fares s prompt turns w vote origin := by
  have line := queued.inLine faithful
  constructor
  · intro vote sent
    refine (line.cast vote sent).imp_right (Or.imp_right fun copied => ?_)
    exact line.standing_of_copied (mem_ballotsOf sent) copied
  · intro origin vote rest next w
    subst next
    exact line.fares faithful w

end

open scoped Plain

namespace Plain

/-- The first of four validators is offered the empty block. -/
def offeredTurns : List (World × Input) := [(world, .start), offer 2 0 none (block 0)]

/-- It prevotes for it. -/
def ownVote : Vote := cast 1 0 (block 0).hash .prevote

/-- The second has heard nothing. -/
def nothingHeard : Holdings :=
  Signed.make (Signer.plain (address 2))
    ⟨1, 0, (block 0).hash, 0, address 2, .prevote, [false, false, false, false]⟩

/-- Its vote comes back, and then the second says what it has heard. -/
def askedTurns : List (World × Input) :=
  offeredTurns ++ [(world, .message (.vote ownVote)), (world, .message (.holdings nothingHeard))]

/-- A queue that is equal to another is worked off alike. -/
theorem queued_of_eq {s : Setup} {prompt : Prop} {turns : List (World × Input)}
    {queue queue' : List (Origin × Input)} (queued : Queued s prompt turns [] queue)
    (same : queue = queue') : Queued s prompt turns [] queue' := same ▸ queued

/-- The offer is handled next. -/
theorem queued_offer (prompt : Prop) :
    Queued (setup (address 1)) prompt [(world, .start)] []
      [(.outside, (offer 2 0 none (block 0)).2)] := by
  have start : Queued (setup (address 1)) prompt [] [] [(.outside, .start)] :=
    Queued.rest.post .start nofun
  have offered := start.post (offer 2 0 none (block 0)).2 nofun
  exact queued_of_eq (offered.handle world).dispatched (by decide +kernel)

/-- Its prevote is what waits next. -/
theorem queued_offeredTurns (prompt : Prop) :
    Queued (setup (address 1)) prompt offeredTurns []
      [(.made, .message (.vote ownVote))] :=
  queued_of_eq ((queued_offer prompt).handle world).dispatched (by decide +kernel)

/-- The vote that the second is missing is passed on, and comes back. -/
theorem queued_askedTurns (prompt : Prop) :
    Queued (setup (address 1)) prompt askedTurns []
      [(.passedOn, .message (.vote ownVote))] := by
  have asked := (queued_offeredTurns prompt).post (.message (.holdings nothingHeard)) nofun
  have counted : Queued (setup (address 1)) prompt
      (offeredTurns ++ [(world, .message (.vote ownVote))]) []
      [(.outside, .message (.holdings nothingHeard))] :=
    queued_of_eq (asked.handle world).dispatched (by decide +kernel)
  exact queued_of_eq (counted.handle world).dispatched (by decide +kernel)

/-- The second hears of the vote at once, and hands it in before it is in the
queue. -/
def echoedTurns : List (World × Input) :=
  offeredTurns ++ [(world, .message (.vote ownVote))]

/-- The copy was quicker, and the vote is still in the queue. -/
theorem queued_echoedTurns :
    Queued (setup (address 1)) False echoedTurns []
      [(.made, .message (.vote ownVote))] := by
  have honest : unforged (setup (address 1)) False offeredTurns
      ((Life.after (setup (address 1)) [(world, .start)]).machine.handle
        (setup (address 1)) world (offer 2 0 none (block 0)).2).effects
      (.message (.vote ownVote)) := by
    intro vote same _ _
    cases same
    exact ⟨by decide +kernel, False.elim⟩
  have echoed := ((queued_offer False).handle world).post _ honest
  have returned : Queued (setup (address 1)) False offeredTurns []
      [(.outside, .message (.vote ownVote)), (.made, .message (.vote ownVote))] :=
    queued_of_eq echoed.dispatched (by decide +kernel)
  exact queued_of_eq (returned.handle world).dispatched (by decide +kernel)

end Plain

open Plain in
/-- A vote is counted when it comes back from being cast, and refused when it comes
back from being passed on, or when a copy was quicker. -/
theorem own_votes_counted_once_of_asked :
    (setup (address 1)).signer.Faithful
      ∧ Queued (setup (address 1)) True offeredTurns []
        [(.made, .message (.vote ownVote))]
      ∧ Queued (setup (address 1)) True askedTurns []
        [(.passedOn, .message (.vote ownVote))]
      ∧ Queued (setup (address 1)) False echoedTurns []
        [(.made, .message (.vote ownVote))]
      ∧ Fares (setup (address 1)) True offeredTurns world ownVote .made
      ∧ Fares (setup (address 1)) True askedTurns world ownVote .passedOn
      ∧ Fares (setup (address 1)) False echoedTurns world ownVote .made := by
  have made := queued_offeredTurns True
  have passedOn := queued_askedTurns True
  have overtaken := queued_echoedTurns
  have trusted := faithful (address 1)
  exact ⟨trusted, made, passedOn, overtaken,
    (own_votes_counted_once trusted made).2 _ _ _ rfl world,
    (own_votes_counted_once trusted passedOn).2 _ _ _ rfl world,
    (own_votes_counted_once trusted overtaken).2 _ _ _ rfl world⟩

namespace Plain

/-- A working node that has handled nothing, with the offer in its queue. -/
def offeredNode : Node where
  setup := setup (address 1)
  machine := Machine.initial (setup (address 1))
  phase := .running
  queue := offeredTurns.map (·.2)

end Plain

open Plain in
/-- A node is given nothing but an offer and a list of held votes. It works off its
queue in between, and passes its own vote on, which comes back and is refused. -/
theorem own_vote_refused :
    let before := (offeredNode.drain world 3).2
    before.queue = [] ∧ before.machine.log.standing? ownVote = some ownVote
      ∧ ∃ asked, before.post (.holdings nothingHeard) = .ok asked
        ∧ (asked.drain world 2).1 = [.messagePublished (.vote ownVote),
          .faultOccurred (.vote (.recorded .prevote (address 1)))] := by
  refine ⟨by decide +kernel, by decide +kernel, _, rfl, by decide +kernel⟩

end Quorum
