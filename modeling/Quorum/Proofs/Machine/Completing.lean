/-
A decided height can be appended.

A machine that decided has a certificate that proves its decision: the
majority of precommits that decided is made of votes that were checked as
the certificate's places are, the proposal was of this height and under
the block's own hash. This holds from the decision on, because the tally
only grows, and so it holds when the block is handed over. What the chain
checks of the block it has just answered, and what it checks of the
certificate is this.

For the same reason the one fault that would leave a decided height without
its certificate never comes up.
-/
import Quorum.Proofs.Chain.Ledger
import Quorum.Proofs.Machine.Committing
import Quorum.Proofs.Machine.Failing
import Quorum.Proofs.Machine.Finality
import Quorum.Proofs.Machine.Vetting
import Quorum.Proofs.Record.Certificate

namespace Quorum

theorem Machine.certificateOf?_eq (s : Setup) (m : Machine) (round : Round) :
    m.certificateOf? s round
      = (m.log.tallyOf? round .precommit).bind (·.certificate? s.scope) := by
  unfold Machine.certificateOf? HeightLog.tallyOf?
  cases m.log.get? round <;> rfl

section

variable [Crypto] {s : Setup} {w : World} {input : Input}

/-- What a certificate proves of a decision. -/
structure Proves (s : Setup) (c : Certificate) (d : Pinned) : Prop where
  passes : c.check s.scope.validators = .ok ()
  hash_eq : c.hash = d.block.hash
  height_eq : c.height = s.scope.height

/-- A decision has a certificate, and that proves it. -/
theorem Decided.certified {given : List Input} {m : Machine}
    (h : Decided s given m) {d : Pinned} (decided : m.decision = some d)
    (real : d.block.hash ≠ .nil) :
    ∃ c, m.certificateOf? s d.round = some c ∧ Proves s c d := by
  have rests := h.decides d decided
  have majority := rests.majority
  rw [Machine.precommitMajority?_eq] at majority
  obtain ⟨t, found, reached⟩ := Option.bind_eq_some_iff.1 majority
  obtain ⟨made, passes⟩ := (h.sound.tallyOf? found).check_certificate
    (fun _ heard => heard.2) reached (rests.hash_eq ▸ real)
  refine ⟨t.certificateFor s.scope d.hash, ?_, passes, rests.hash_eq.symm, rfl⟩
  rw [Machine.certificateOf?_eq, found]
  exact made

-- ======================================================== handing over

/-- What is handed over was decided and has just been found valid. -/
structure Handed (s : Setup) (w : World) (block : Block) (c : Certificate) :
    Prop where
  valid : w.validate block = .ok ()
  block_height : block.height = s.scope.height
  passes : c.check s.scope.validators = .ok ()
  hash_eq : c.hash = block.hash
  height_eq : c.height = s.scope.height

/-- What is true while an input is handled: what decisions rest on, and that
all that it has handed over is right. -/
structure HandsOver (s : Setup) (w : World) (given : List Input) (m : Machine)
    (asked : List Effect) : Prop where
  decided : Decided s given m
  handed : ∀ done ∈ completionsOf asked, Handed s w done.1 done.2

theorem HandsOver.keeps {given : List Input} {m m' : Machine}
    {asked es : List Effect}
    (real : ∀ proposal, .message (.proposal proposal) ∈ given ++ [input] →
      proposal.body.block.hash ≠ .nil)
    (h : HandsOver s w (given ++ [input]) m asked)
    (act : Act s w input m es m') :
    HandsOver s w (given ++ [input]) m' (asked ++ es) := by
  refine ⟨h.decided.keeps act, fun done member => ?_⟩
  unfold completionsOf at member
  rw [List.filterMap_append] at member
  rcases List.mem_append.1 member with earlier | now
  · exact h.handed done earlier
  · have now : done ∈ completionsOf es := now
    rcases act.concludes.completion_cases with
      none_ | ⟨d, c, decided, -, completions, accepted, certified⟩
    · rw [none_] at now
      cases now
    · rw [completions] at now
      rw [List.mem_singleton.1 now]
      have rests := h.decided.decides d decided
      obtain ⟨proposal, offered, block⟩ := rests.offered
      -- the certificate that was handed over is the one that proves the decision
      obtain ⟨c', made, proves⟩ :=
        h.decided.certified decided (block ▸ real proposal offered)
      cases certified.symm.trans made
      exact ⟨accepted, rests.height_eq, proves.passes, proves.hash_eq,
        proves.height_eq⟩

/-- What a machine hands over, the chain that answered it appends. -/
theorem Handed.append {ledger : Ledger} {now : Millis} {block : Block}
    {c : Certificate} (h : Handed s (ledger.world now) block c)
    (same : ledger.validators = s.scope.validators) :
    ∃ next, ledger.append block c = .ok next := by
  have valid : ledger.validate block = .ok () := h.valid
  have passes : c.check ledger.validators = .ok () := same ▸ h.passes
  exact ⟨_, Ledger.append_eq_ok_iff.2 ⟨Ledger.validate_eq_ok_iff.1 valid,
    ⟨h.height_eq.trans h.block_height.symm, h.hash_eq, passes⟩, rfl⟩⟩

/-- No input hands over anything else. -/
theorem Decided.hands_over {given : List Input} {m : Machine}
    (h : Decided s given m)
    (real : ∀ proposal, .message (.proposal proposal) ∈ given ++ [input] →
      proposal.body.block.hash ≠ .nil) {block : Block} {c : Certificate}
    (completed : .emit (.completed block c) ∈ (m.handle s w input).effects) :
    Handed s w block c := by
  have start : HandsOver s w (given ++ [input]) m [] := ⟨h.more input, nofun⟩
  have kept : HandsOver s w (given ++ [input]) (m.handle s w input).machine
      (m.handle s w input).effects :=
    Acts.keeps (fun act held => held.keeps real act) (m.handle_acts s w input)
      start
  exact kept.handed (block, c) (List.mem_filterMap.2 ⟨_, completed, rfl⟩)

/-- Where every decision has its certificate, no input fails by the chain. -/
theorem Machine.handle_ne_chain {m : Machine}
    (certified : ∀ d, m.decision = some d →
      ∃ c, m.certificateOf? s d.round = some c) (fault : ChainFault) :
    (m.handle s w input).result ≠ .error (.chain fault) := by
  intro failed
  rcases Machine.handle_fails failed with rules | own
  · cases rules
  · cases input with
    | start => cases own
    | message message => cases own.rejects
    | timer timer =>
      cases own with
      | uncertified d decided missing =>
        obtain ⟨c, made⟩ := certified d decided
        rw [missing] at made
        cases made

-- =============================================================== turns

/-- A completed height can be appended. Take any turns at which no block is
proposed whose hash stands for nothing. After them a decision has a
certificate, which passes the check of the set, is of this height and for
the hash of the decided block. At any of them, what the machine hands over
is appended by the chain that answered it, if the set of the chain is the
machine's; and no input fails for want of a certificate, nor for any other
fault of the chain. -/
theorem completed_appends (s : Setup) (turns : List (World × Input))
    (real : ∀ block, Proposed turns block → block.hash ≠ .nil) :
    (∀ d, (Life.after s turns).machine.decision = some d →
      ∃ c, (Life.after s turns).machine.certificate? s = some c
        ∧ c.check s.scope.validators = .ok ()
        ∧ c.hash = d.block.hash ∧ c.height = s.scope.height)
      ∧ ∀ past w input rest, turns = past ++ (w, input) :: rest →
        (∀ fault, ((Life.after s past).machine.handle s w input).result
          ≠ .error (.chain fault))
        ∧ ∀ ledger : Ledger, ∀ now, w = ledger.world now →
          ledger.validators = s.scope.validators →
          ∀ block c, .emit (.completed block c)
              ∈ ((Life.after s past).machine.handle s w input).effects →
            ∃ next, ledger.append block c = .ok next := by
  -- what is proposed up to a turn is proposed at one of them all
  have certified : ∀ past rest, turns = past ++ rest → ∀ d,
      (Life.after s past).machine.decision = some d →
      ∃ c, (Life.after s past).machine.certificateOf? s d.round = some c
        ∧ Proves s c d := by
    intro past rest split d decided
    have rests := (reachable_after s past).decided
    obtain ⟨proposal, offered, block⟩ := (rests.decides d decided).offered
    rw [Life.given_after] at offered
    refine rests.certified decided (real _ ?_)
    rw [split]
    exact Proposed.append ⟨proposal, offered, block⟩ rest
  refine ⟨fun d decided => ?_, fun past w input rest split => ⟨?_, ?_⟩⟩
  · obtain ⟨c, made, proves⟩ :=
      certified turns [] (List.append_nil _).symm d decided
    refine ⟨c, ?_, proves.passes, proves.hash_eq, proves.height_eq⟩
    unfold Machine.certificate?
    rw [decided]
    exact made
  · refine Machine.handle_ne_chain fun d decided => ?_
    obtain ⟨c, made, -⟩ := certified past _ split d decided
    exact ⟨c, made⟩
  · intro ledger now answers same block c completed
    subst answers
    refine Handed.append
      ((reachable_after s past).decided.hands_over ?_ completed) same
    intro proposal offered
    rw [Life.given_after] at offered
    have proposed : Proposed (past ++ [(ledger.world now, input)])
        proposal.body.block := by
      refine ⟨proposal, ?_, rfl⟩
      rw [List.map_append]
      exact offered
    refine real _ ?_
    rw [split, List.append_cons]
    exact proposed.append rest

end

open scoped Plain

namespace Plain

/-- The chain of the committee before its first block. -/
def ledger : Ledger := { validators := committee }

/-- The first of four validators decides the empty block, while the world is
that chain. -/
def chainTurns : List (World × Input) :=
  ([(world, .start), offer 2 0 none (block 0)]
    ++ votes [2, 3, 4] 0 .prevote ++ votes [2, 3, 4] 0 .precommit).map
      fun turn => (ledger.world 0, turn.2)

/-- Then the block is due. -/
def due : World × Input := (ledger.world 0, .timer ⟨1, 0, .endCommitWait⟩)

end Plain

open Plain in
/-- The first block of the chain, once decided, is appended to it. -/
theorem completed_appends_of_decided :
    (∀ block, Proposed (chainTurns ++ [due]) block → block.hash ≠ .nil)
      ∧ ledger.validators = (setup (address 1)).scope.validators
      ∧ .emit (.completed (block 0) (certificate 0 [2, 3, 4]))
        ∈ ((Life.after (setup (address 1)) chainTurns).machine.handle
          (setup (address 1)) due.1 due.2).effects
      ∧ ∃ next, ledger.append (block 0) (certificate 0 [2, 3, 4]) = .ok next := by
  have real : ∀ block, Proposed (chainTurns ++ [due]) block →
      block.hash ≠ .nil := fun block _ => Plain.digest_ne_nil _
  have completed : .emit (.completed (block 0) (certificate 0 [2, 3, 4]))
      ∈ ((Life.after (setup (address 1)) chainTurns).machine.handle
        (setup (address 1)) due.1 due.2).effects := by
    decide +kernel
  have appends := (completed_appends (setup (address 1)) (chainTurns ++ [due])
    real).2 chainTurns due.1 due.2 [] rfl
  exact ⟨real, rfl, completed, appends.2 ledger 0 rfl rfl _ _ completed⟩

end Quorum
