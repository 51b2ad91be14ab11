/-
What a machine can be made to remember.

Rounds are opened at three places: a vote or a claim opens its own, and to begin
a round opens all up to it. All else is written into the current round, which is
there (`Act.opens`). So the allowance of the validators bounds the rounds of
every machine, whatever it is given (`Thrifty.keeps`), and what keeps its tallies
short is kept along with it.

An outsider is found out before a round is opened for it, and nobody is refused
for his allowance but where the round is far ahead and not there.
-/
import Quorum.Proofs.Machine.Moving
import Quorum.Proofs.Machine.Pinning
import Quorum.Proofs.Machine.Plain
import Quorum.Proofs.Record.Allowance

namespace Quorum

-- ================================================ statement vocabulary

/-- What a machine remembers is bounded by its round and by the number of
validators. -/
structure Machine.Bounded (s : Setup) (m : Machine) : Prop where
  rounds : m.log.rounds.length
    ≤ m.round.toNat + 2 + catchUpAllowance * s.scope.validators.size
  charged : ∀ address, m.log.charged address ≤ catchUpAllowance
  outsiders : ∀ address, s.scope.validators.contains address = false →
    m.log.charged address = 0
  tallies : ∀ l ∈ m.log.rounds, ∀ kind t, l.tally? kind = some t →
    t.Short s.scope

/-- Who may open a round by a message, and which rounds are open to all. -/
structure Admission (s : Setup) (m : Machine) (message : Message)
    (outcome : Outcome) : Prop where
  /-- An outsider is charged for no round, and opens none. -/
  outsider : s.scope.validators.contains message.author = false →
    outcome.machine.log.charges = m.log.charges
      ∧ ∀ round l, outcome.machine.log.get? round = some l →
        ∃ l, m.log.get? round = some l
  /-- A round that is there, or not beyond the next one, is refused to nobody. -/
  near : (∃ l, m.log.get? message.round = some l)
      ∨ message.round.toNat ≤ m.round.toNat + 1 →
    ∀ fault, outcome.result = .error fault → fault.isSpent = false

-- =========================================================== the record

namespace Machine

/-- To arm a slot of the current round writes to that round alone. -/
theorem rewritten_armed (s : Scope) (m : Machine) {round : Round}
    (here : round = m.log.round) (slot : TimerSlot) :
    m.log.Rewritten s (m.armed round slot).log := by
  unfold armed
  split
  · exact .refl _
  · exact HeightLog.rewritten_mark (f := (·.arm slot))
      (fun l => l.round_arm slot) (fun _ tidy => tidy.arm slot) here

/-- So does marking that its majority was acted on. -/
theorem rewritten_sawQuorum (s : Scope) (m : Machine) {round : Round}
    (here : round = m.log.round) :
    m.log.Rewritten s (m.sawQuorum round).log :=
  HeightLog.rewritten_mark (f := fun l => { l with quorumSeen := true })
    (fun _ => rfl) (fun _ tidy => tidy.congr rfl rfl) here

end Machine

section

variable [Crypto] {s : Setup} {w : World} {input : Input} {m m' : Machine}
  {es : List Effect}

-- ================================================================== acts

/-- How an act writes into the log. -/
inductive Opens (s : Setup) (input : Input) (m : Machine) (es : List Effect)
    (m' : Machine) : Prop
  | counts (vote : Vote) (given : input = .message (.vote vote))
      (sound : Machine.voteRefusal? s vote = none)
      (log : m'.log = (m.log.addVote s.scope vote).1)
  | hears (w : World) (claim : Claim) (given : input = .message (.claim claim))
      (log : m'.log = (m.addClaim s w claim).1.log)
  | moves (round : Round) (log : HeightLog) (begun : round ∈ beginningsOf es)
      (moved : m.log.setRound round = .ok log)
      (after : log.Rewritten s.scope m'.log)
  /-- It writes into the current round only. -/
  | stays (after : m.log.Rewritten s.scope m'.log)

namespace Machine

/-- And so does opening it. -/
theorem rewritten_opening (s : Setup) (w : World) (m : Machine) {round : Round}
    (here : round = m.log.round) :
    m.log.Rewritten s.scope (opening s w m round).1.log := by
  unfold opening
  split
  · split
    · exact .refl _
    · exact rewritten_armed s.scope m here .propose
  · exact rewritten_armed s.scope m here .propose

end Machine

/-- Only votes, claims and new rounds open any; all else is written into the round
that is there. -/
theorem Act.opens (act : Act s w input m es m') (onward : m.Onward) :
    Opens s input m es m' := by
  have here : m.round = m.log.round := onward.placed.symm
  cases act with
  | count vote given sound => exact .counts vote given sound rfl
  | claim claim given => exact .hears w claim given rfl
  | takeUp proposal given sound =>
    exact .stays (HeightLog.rewritten_mark
      (f := fun l => { l with proposal := some proposal })
      (fun _ => rfl) (fun _ tidy => tidy.congr rfl rfl)
      ((round_of_proposalRefusal? sound).trans here))
  | beginRound round log cause moved =>
    refine .moves round log (mem_beginningsOf List.mem_cons_self) moved ?_
    exact Machine.rewritten_opening s w
      { m with log := log, round := round, step := .propose }
      (HeightLog.round_setRound moved).2.symm
  | lock proposal pinned step held pins unseen majority valid marked seen =>
    -- the round is written to twice: it has seen a majority, and has a timer
    have quorum : m.log.Rewritten s.scope marked.log := by
      rw [seen]
      exact Machine.rewritten_sawQuorum s.scope m here
    exact .stays (quorum.trans (Machine.rewritten_armed s.scope marked
      (here.trans quorum.round.symm) .precommitWait))
  | remember => exact .stays (Machine.rewritten_sawQuorum s.scope m here)
  | discard =>
    exact .stays (HeightLog.rewritten_mark (f := RoundLog.discard)
      (fun _ => rfl) (fun _ tidy => tidy.congr rfl rfl) here)
  | wait kind => exact .stays (Machine.rewritten_armed s.scope m here kind.slot)
  | decideBlock proposal pinned started undecided held pins majority valid
      pinning decided =>
    have same : m.log = pinning.log := congrArg (·.log) decided.symm
    refine .stays ?_
    rw [same]
    exact Machine.rewritten_armed s.scope pinning
      (here.trans (congrArg _ same)) .endCommitWait
  | _ => exact .stays (.refl _)

/-- A claim that is looked at is a validator's. -/
theorem contains_of_claimRefusal? {claim : Claim}
    (accepted : Machine.claimRefusal? s claim = none) :
    s.scope.validators.contains claim.body.validator = true := by
  by_contra outside
  have outside : (!s.scope.validators.contains claim.body.validator) = true := by
    simpa using outside
  unfold Machine.claimRefusal? at accepted
  dsimp only at accepted
  rw [if_pos outside] at accepted
  repeat' split at accepted
  all_goals cases accepted

/-- A claim opens a round for a validator only. -/
theorem thrifty_addClaim {claim : Claim} (thrifty : m.log.Thrifty s.scope) :
    (m.addClaim s w claim).1.log.Thrifty s.scope := by
  cases refusal : Machine.claimRefusal? s claim with
  | some fault =>
    have same : (m.addClaim s w claim).1 = m := by
      unfold Machine.addClaim
      dsimp only
      rw [refusal]
    rw [same]
    exact thrifty
  | none =>
    have known := contains_of_claimRefusal? refusal
    cases Machine.claiming_addClaim s w m claim with
    | barred _ same =>
      rw [same]
      exact thrifty
    | changed _ _ _ _ opens _ _ same =>
      rw [same]
      exact thrifty.openFor? known opens
    | recorded _ _ _ opens found added same =>
      rw [same]
      exact thrifty.put_opened known opens found fun tidy => tidy.addClaim known added

/-- Whatever a machine does, it lives within the allowance of the validators. -/
theorem Act.thrifty (act : Act s w input m es m') (onward : m.Onward)
    (thrifty : m.log.Thrifty s.scope) : m'.log.Thrifty s.scope := by
  cases act.opens onward with
  | counts vote given sound log =>
    rw [log]
    exact thrifty.addVote (kind_ne_null_of_voteRefusal? sound)
  | hears w claim given log =>
    rw [log]
    exact thrifty_addClaim thrifty
  | moves round log begun moved after => exact (thrifty.setRound moved).rewritten after
  | stays after => exact thrifty.rewritten after

/-- Whatever a machine is given, no allowance is overdrawn. -/
theorem Reachable.thrifty {admits : Life → Input → Prop} {l : Life}
    (h : Reachable s admits l) : l.machine.log.Thrifty s.scope :=
  h.keeps_onward (P := fun m => m.log.Thrifty s.scope)
    (fun act onward held => act.thrifty onward held) (HeightLog.thrifty_start s.scope)

-- ============================================================== outsiders

/-- A vote of an outsider changes nothing. -/
theorem Machine.handle_vote_outsider {vote : Vote}
    (outside : s.scope.validators.contains vote.body.validator = false) :
    (m.handle s w (.message (.vote vote))).machine = m := by
  cases sound : voteRefusal? s vote with
  | some fault =>
    obtain ⟨_, turned, -⟩ := handle_vote_barred (m := m) (w := w) sound
    rw [turned]
  | none =>
    have refused : m.log.addVote s.scope vote
        = (m.log, .error (.vote (.outsider vote.body.validator))) := by
      unfold HeightLog.addVote
      dsimp only
      rw [if_neg (not_not.2 (height_of_voteRefusal? sound)), outside]
      rfl
    rw [handle_vote_refused sound (congrArg Prod.snd refused), refused]
    simp [convictions]

/-- A claim of an outsider changes nothing. -/
theorem Machine.handle_claim_outsider {claim : Claim}
    (outside : s.scope.validators.contains claim.body.validator = false) :
    (m.handle s w (.message (.claim claim))).machine = m := by
  cases barred : claimRefusal? s claim with
  | none => cases outside.symm.trans (contains_of_claimRefusal? barred)
  | some fault =>
    have taken : ∃ fault, (Work.ofMachine m).takeMessage s w (.claim claim)
        = (Work.ofMachine m).fail fault := by
      unfold Work.takeMessage
      split
      case isTrue => exact ⟨_, rfl⟩
      case isFalse =>
        refine ⟨fault, ?_⟩
        dsimp only
        unfold Work.takeClaim addClaim
        dsimp only [Work.ofMachine]
        rw [barred]
        rfl
    obtain ⟨fault, taken⟩ := taken
    rw [handle_of_takeMessage taken]
    rfl

/-- Where acts begin no round, and no vote or claim is handled, no round comes
into being. -/
theorem Acts.opens_none {input : Input} (acts : Acts s w input m es m')
    (onward : m.Onward) (thrifty : m.log.Thrifty s.scope)
    (quiet : beginningsOf es = []) (novote : ∀ vote, input ≠ .message (.vote vote))
    (noclaim : ∀ claim, input ≠ .message (.claim claim)) :
    m'.log.charges = m.log.charges
      ∧ ∀ round l, m'.log.get? round = some l →
        ∃ l, m.log.get? round = some l := by
  induction acts with
  | rest => exact ⟨rfl, fun _ l found => ⟨l, found⟩⟩
  | act first _ ih =>
    rw [beginningsOf_append, List.append_eq_nil_iff] at quiet
    obtain ⟨charges, opens⟩ :=
      ih (first.onward onward) (first.thrifty onward thrifty) quiet.2
    cases first.opens onward with
    | counts vote given => exact absurd given (novote vote)
    | hears _ claim given => exact absurd given (noclaim claim)
    | moves round log begun => exact absurd begun (not_begun quiet.1)
    | stays after =>
      -- the current round is there, so what is written into it is not new
      refine ⟨charges.trans after.charges, fun round l found => ?_⟩
      obtain ⟨l, found⟩ := opens round l found
      exact after.exists_get? thrifty.current found

/-- Of all messages only a vote makes a machine follow others: a proposal is taken
up in the current round only, and what fills gaps moves nobody. -/
theorem Machine.handle_quiet {message : Message}
    (novote : ∀ vote, message ≠ .vote vote) :
    beginningsOf (m.handle s w (.message message)).effects = [] := by
  refine List.eq_nil_iff_forall_not_mem.2 fun round begun => ?_
  generalize given : Input.message message = input at begun
  cases begins_of_handle begun with
  | start => cases given
  | ended => cases given
  | ahead vote =>
    cases given
    exact novote vote rfl

/-- Who is no validator changes nothing, and who is one is let in where the round is
near or the allowance lasts. -/
theorem Machine.admission (onward : m.Onward) (thrifty : m.log.Thrifty s.scope)
    (w : World) (message : Message) :
    Admission s m message (m.handle s w (.message message)) := by
  constructor
  case outsider =>
    intro outside
    have same : ∀ {m' : Machine}, m' = m → m'.log.charges = m.log.charges
        ∧ ∀ round l, m'.log.get? round = some l →
          ∃ l, m.log.get? round = some l := by
      rintro _ rfl
      exact ⟨rfl, fun _ l found => ⟨l, found⟩⟩
    have acts := m.handle_acts s w (.message message)
    cases message with
    | vote vote => exact same (handle_vote_outsider outside)
    | claim claim => exact same (handle_claim_outsider outside)
    | proposal p => exact acts.opens_none onward thrifty (handle_quiet nofun) nofun nofun
    | holdings holdings =>
      exact acts.opens_none onward thrifty (handle_quiet nofun) nofun nofun
  case near =>
    intro near fault failed
    by_contra spent
    rcases handle_fails failed with rules | refusal
    · exact spent rules.isSpent
    · obtain ⟨ahead, absent, -⟩ :=
        HeightLog.openFor?_eq_none (refusal.closed (by simpa using spent))
      rcases near with ⟨l, here⟩ | near
      · cases absent.symm.trans here
      · rw [HeightLog.isAhead_iff, onward.placed] at ahead
        omega

-- ================================================================= bounds

/-- The bounds, read off what is kept: few rounds, few charges, short tallies. -/
theorem Machine.bounded (onward : m.Onward) (thrifty : m.log.Thrifty s.scope)
    (ordered : m.log.Ordered) {given : List Input}
    (sound : m.log.Sound s.scope (Heard given) (Offered s given)) :
    m.Bounded s := by
  refine ⟨?_, thrifty.charged, fun address outside => ?_,
    fun l stored kind t found => ?_⟩
  · have few := thrifty.length_rounds ordered
    rwa [onward.placed] at few
  · unfold HeightLog.charged
    rw [List.length_eq_zero_iff, List.filter_eq_nil_iff]
    intro charge made own
    have known := thrifty.known charge made
    rw [eq_of_beq own, outside] at known
    cases known
  · have here := ordered.get?_of_mem stored
    exact (thrifty.tidy l.round l here kind t found).short
      ((sound l.round l here).tally kind t found)

/-- Whatever a machine is given, it remembers no more than its round and the
number of validators allow, outsiders have no part in it, and rounds that are
near are open to all. -/
theorem memory_bounded (s : Setup) (turns : List (World × Input)) :
    (Life.after s turns).machine.Bounded s
      ∧ ∀ w message, Admission s (Life.after s turns).machine message
        ((Life.after s turns).machine.handle s w (.message message)) := by
  have life := reachable_after s turns
  exact ⟨Machine.bounded life.onward life.thrifty life.ordered life.log_sound,
    fun w message => Machine.admission life.onward life.thrifty w message⟩

end

open scoped Plain

open Plain in
/-- The bound is met: one votes in the next round, and each of four opens as many
rounds beyond it as it may. -/
example :
    let far := [2, 3, 4, 5, 6, 7, 8, 9].map fun round =>
      vote (UInt8.ofNat (round / 2)) (UInt32.ofNat round) .nil .prevote
    let turns := (world, .start) :: vote 2 1 .nil .prevote :: far
    (Life.after (setup (address 1)) turns).machine.log.rounds.length
      = 0 + 2 + catchUpAllowance * 4 := by
  decide +kernel

end Quorum
