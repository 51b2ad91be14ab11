/-
The lock, the valid block and the proof of a lock agree.

They are kept apart, and different rules write them. The lock is taken in the
prevoting step only, the valid block is remembered in the step after it as well,
and the proof of a lock is looked for among all rounds whenever it is asked for.
What ties them together is that both blocks are pinned in one way (`Pins`): in
the current round, on a majority of prevotes there. Rounds go up and majorities
stay. So the valid block is never behind the lock, of one round both are for the
hash that has its majority, and the round of the valid block is one in which a
proof can be found (`Machine.Consistent`).

For the same reason none of the three goes back (`Machine.NoLater`).
-/
import Quorum.Proofs.Machine.Deciding
import Quorum.Proofs.Machine.Vetting
import Quorum.Proofs.Record.Order

namespace Quorum

-- ========================================================== what is pinned

section

variable {m m' : Machine}

/-- A block that is locked or remembered as valid. -/
def Machine.Carries (m : Machine) (pin : Pinned) : Prop :=
  m.locked = some pin ∨ m.valid = some pin

/-- Where the lock and the valid block are, and what they rest on. -/
structure Machine.Aligned (m : Machine) : Prop where
  onward : m.Onward
  majority : ∀ pin, m.Carries pin → m.prevoteMajority? pin.round = some pin.hash
  round_le : ∀ valid, m.valid = some valid → valid.round ≤ m.round
  locked : ∀ lock, m.locked = some lock →
    ∃ valid, m.valid = some valid ∧ lock.round ≤ valid.round

/-- At first nothing is pinned. -/
theorem Machine.aligned_initial (s : Setup) : (Machine.initial s).Aligned :=
  ⟨Machine.onward_initial s, fun _ holds => holds.elim nofun nofun, nofun, nofun⟩

/-- The lock is behind the valid block, and that is behind the machine. -/
theorem Machine.Aligned.lock_le (h : m.Aligned) {lock : Pinned}
    (locked : m.locked = some lock) : lock.round ≤ m.round := by
  obtain ⟨valid, remembered, before⟩ := h.locked lock locked
  exact UInt32.le_trans before (h.round_le valid remembered)

/-- Neither the lock nor the valid block nor the round of a machine is later than
those of another. -/
structure Machine.NoLater (m m' : Machine) : Prop where
  round : m.round ≤ m'.round
  locked : ∀ lock, m.locked = some lock →
    ∃ lock', m'.locked = some lock' ∧ lock.round ≤ lock'.round
  valid : ∀ valid, m.valid = some valid →
    ∃ valid', m'.valid = some valid' ∧ valid.round ≤ valid'.round

/-- No machine is later than itself. -/
theorem Machine.NoLater.refl (m : Machine) : m.NoLater m :=
  ⟨UInt32.le_refl _, fun lock holds => ⟨lock, holds, UInt32.le_refl _⟩,
    fun valid holds => ⟨valid, holds, UInt32.le_refl _⟩⟩

/-- Later than what is later is later. -/
theorem Machine.NoLater.trans {m'' : Machine} (h : m.NoLater m')
    (h' : m'.NoLater m'') : m.NoLater m'' := by
  refine ⟨UInt32.le_trans h.round h'.round, fun lock holds => ?_,
    fun valid holds => ?_⟩
  · obtain ⟨between, holds, before⟩ := h.locked lock holds
    obtain ⟨last, holds, after⟩ := h'.locked between holds
    exact ⟨last, holds, UInt32.le_trans before after⟩
  · obtain ⟨between, holds, before⟩ := h.valid valid holds
    obtain ⟨last, holds, after⟩ := h'.valid between holds
    exact ⟨last, holds, UInt32.le_trans before after⟩

/-- What an act does to the lock and to the valid block: nothing, or it pins
what has the majority of prevotes of the current round. -/
inductive Pins (m m' : Machine) : Prop
  | keeps (locked : m'.locked = m.locked) (valid : m'.valid = m.valid)
  | pins (pinned : Pinned) (here : pinned.round = m.round)
      (majority : m.prevoteMajority? m.round = some pinned.hash)
      (valid : m'.valid = some pinned)
      (locked : m'.locked = m.locked ∨ m'.locked = some pinned)

/-- What changes only the log pins nothing. -/
theorem pins_of_relogs (relogs : m.Relogs m') : Pins m m' := by
  obtain ⟨log, rfl, -⟩ := relogs
  exact .keeps rfl rfl

end

-- ================================================================== order

namespace Machine

variable {m : Machine}

/-- A mark is put back in its place. -/
theorem ordered_armed (ordered : m.log.Ordered) (round : Round)
    (slot : TimerSlot) : (m.armed round slot).log.Ordered := by
  unfold armed
  split
  · exact ordered
  · exact ordered.put _

/-- To open a round arms at most one slot. -/
theorem ordered_opening [Crypto] (s : Setup) (w : World)
    (ordered : m.log.Ordered) (round : Round) :
    (opening s w m round).1.log.Ordered := by
  unfold opening
  split
  · split
    · exact ordered
    · exact ordered_armed ordered round .propose
  · exact ordered_armed ordered round .propose

/-- The round of a claim is opened in its place. -/
theorem ordered_addClaim [Crypto] (s : Setup) (w : World)
    (ordered : m.log.Ordered) (claim : Claim) :
    (m.addClaim s w claim).1.log.Ordered := by
  cases claiming_addClaim s w m claim with
  | barred _ same =>
    rw [same]
    exact ordered
  | changed _ _ _ _ opens _ _ same =>
    rw [same]
    exact ordered.openFor? opens
  | recorded _ _ _ opens _ _ same =>
    rw [same]
    exact (ordered.openFor? opens).put _

end Machine

section

variable [Crypto] {s : Setup} {w : World} {input : Input} {m m' : Machine}
  {es : List Effect}

/-- No act brings the rounds into disorder. -/
theorem Act.ordered (act : Act s w input m es m') (ordered : m.log.Ordered) :
    m'.log.Ordered := by
  cases act with
  | count vote => exact ordered.addVote s.scope vote
  | claim claim => exact Machine.ordered_addClaim s w ordered claim
  | takeUp => exact ordered.put _
  | beginRound round log cause moved =>
    exact Machine.ordered_opening s w
      (m := { m with log := log, round := round, step := .propose })
      (ordered.setRound moved) round
  | lock proposal pinned step held pins unseen majority valid marked seen =>
    refine Machine.ordered_armed ?_ m.round .precommitWait
    rw [seen]
    exact ordered.put _
  | remember => exact ordered.put _
  | discard => exact ordered.put _
  | wait kind => exact Machine.ordered_armed ordered m.round kind.slot
  | decideBlock proposal pinned started undecided held pins majority valid
      pinning decided =>
    refine Machine.ordered_armed ?_ m.round .endCommitWait
    rw [decided]
    exact ordered
  | _ => exact ordered

/-- Whatever a machine is given, its rounds are in order. -/
theorem Reachable.ordered {admits : Life → Input → Prop} {l : Life}
    (h : Reachable s admits l) : l.machine.log.Ordered :=
  Leads.keeps (P := fun _ m _ => m.log.Ordered) (fun _ _ act held => act.ordered held)
    (fun _ held => held) h HeightLog.ordered_start

-- ================================================================ pinning

/-- Only a lock and what is remembered pin anything, and both do so in the current
round. -/
theorem Act.pins (act : Act s w input m es m') : Pins m m' := by
  cases act with
  | claim claim => exact pins_of_relogs (Machine.addClaim_relogs s w m claim)
  | beginRound round log cause moved =>
    obtain ⟨opened, same, -⟩ := Machine.opening_relogs s w
      { m with log := log, round := round, step := .propose } round
    rw [same]
    exact .keeps rfl rfl
  | lock proposal pinned step held pins unseen majority valid marked seen =>
    obtain ⟨log, after, -⟩ := Machine.locked_eq seen
    rw [after]
    exact .pins pinned (by rw [pins]) majority rfl (Or.inr rfl)
  | remember proposal pinned step held pins unseen majority valid =>
    exact .pins pinned (by rw [pins]) majority rfl (Or.inl rfl)
  | wait kind => exact pins_of_relogs (Machine.armed_relogs m m.round kind.slot)
  | decideBlock proposal pinned started undecided held pins majority valid
      pinning decided =>
    obtain ⟨log, after, -⟩ := Machine.decided_eq decided
    rw [after]
    exact .keeps rfl rfl
  | _ => exact .keeps rfl rfl

/-- Whatever is done, the lock and the valid block keep in line: majorities are
frozen, and what is new is of the current round. -/
theorem Machine.Aligned.keeps (h : m.Aligned) (act : Act s w input m es m') :
    m'.Aligned := by
  have grows := act.log_keeps.grows
  have forward := h.onward.round_le act.moves
  refine ⟨act.onward h.onward, ?_, ?_, ?_⟩
  · intro pin holds
    refine grows.prevoteMajority ?_
    -- what is pinned was pinned before, or rests on the majority of this round
    cases act.pins with
    | keeps locked valid =>
      unfold Carries at holds
      rw [locked, valid] at holds
      exact h.majority pin holds
    | pins pinned here majority valid locked =>
      have new : some pinned = some pin →
          m.prevoteMajority? pin.round = some pin.hash := by
        rintro ⟨⟩
        rw [here]
        exact majority
      rcases holds with lock | remembered
      · rcases locked with same | now
        · exact h.majority pin (Or.inl (same ▸ lock))
        · exact new (now.symm.trans lock)
      · exact new (valid.symm.trans remembered)
  · intro valid remembered
    refine UInt32.le_trans ?_ forward
    -- nothing goes back, so what was not too late is not now
    cases act.pins with
    | keeps _ same => exact h.round_le valid (same ▸ remembered)
    | pins pinned here _ now =>
      cases now.symm.trans remembered
      exact here ▸ UInt32.le_refl _
  · intro lock holds
    cases act.pins with
    | keeps locked valid =>
      rw [valid]
      exact h.locked lock (locked ▸ holds)
    -- what is new is valid, and the lock is it or an earlier one
    | pins pinned here _ valid locked =>
      refine ⟨pinned, valid, ?_⟩
      rcases locked with same | now
      · rw [here]
        exact h.lock_le (same ▸ holds)
      · cases now.symm.trans holds
        exact UInt32.le_refl _

/-- What is pinned is pinned in the current round, so nothing goes back. -/
theorem Machine.Aligned.noLater (h : m.Aligned) (act : Act s w input m es m') :
    m.NoLater m' := by
  refine ⟨h.onward.round_le act.moves, fun lock holds => ?_, fun valid holds => ?_⟩
  · cases act.pins with
    | keeps locked => exact ⟨lock, locked.trans holds, UInt32.le_refl _⟩
    | pins pinned here _ _ locked =>
      rcases locked with same | now
      · exact ⟨lock, same.trans holds, UInt32.le_refl _⟩
      · exact ⟨pinned, now, here ▸ h.lock_le holds⟩
  · cases act.pins with
    | keeps _ same => exact ⟨valid, same.trans holds, UInt32.le_refl _⟩
    | pins pinned here _ now => exact ⟨pinned, now, here ▸ h.round_le valid holds⟩

-- ================================================================== lives

/-- Whatever a machine is given, it keeps its pinned blocks in line. -/
theorem Reachable.aligned {admits : Life → Input → Prop} {l : Life}
    (h : Reachable s admits l) : l.machine.Aligned :=
  Leads.keeps (P := fun _ m _ => m.Aligned) (fun _ _ act held => held.keeps act)
    (fun _ held => held) h (Machine.aligned_initial s)

/-- Nothing goes back over any stretch of a life. -/
theorem Leads.noLater {admits : Life → Input → Prop} {l l' : Life}
    (leads : Leads s admits l l') (aligned : l.machine.Aligned) :
    l.machine.NoLater l'.machine := by
  refine (Leads.keeps (P := fun _ m _ => m.Aligned ∧ l.machine.NoLater m)
    (fun _ _ act held => ⟨held.1.keeps act, held.2.trans (held.1.noLater act)⟩)
    (fun _ held => held) leads ⟨aligned, .refl _⟩).2

-- ============================================================== agreement

/-- The lock, the valid block and the proof of a lock agree. -/
structure Machine.Consistent (m : Machine) : Prop where
  /-- With a lock there is a valid block, which is not behind it; of one round
  they are for one hash. -/
  locked : ∀ lock, m.locked = some lock →
    ∃ valid, m.valid = some valid ∧ lock.round ≤ valid.round
      ∧ valid.round ≤ m.round
      ∧ (valid.round = lock.round → valid.hash = lock.hash)
  /-- Both blocks have their hash, and it has the majority of their round. -/
  carried : ∀ pin, m.Carries pin → pin.block.hash = pin.hash
    ∧ m.prevoteMajority? pin.round = some pin.hash
  /-- With a valid block there is a proof of a lock, which is not behind it; of
  one round they are for one hash. Rounds after that have no majority for a
  block. -/
  proof : ∀ valid, m.valid = some valid →
    ∃ round hash, m.log.proofOfLock? = some (round, hash)
      ∧ valid.round ≤ round ∧ (round = valid.round → hash = valid.hash)
      ∧ ∀ later, round < later → later ≤ m.round →
        ∀ other, m.prevoteMajority? later = some other → other = .nil

/-- Aligned blocks agree with the proof of a lock, where no block proposed has the
hash that stands for nothing: the round of the valid block then proves a lock, so a
proof is found there or later. -/
theorem Machine.Aligned.consistent {turns : List (World × Input)}
    (h : m.Aligned) (vetted : Vetted s turns m) (ordered : m.log.Ordered)
    (real : ∀ block, Proposed turns block → block.hash ≠ .nil) :
    m.Consistent := by
  have pinned : ∀ {pin}, m.Carries pin → pin ∈ m.pins := fun holds =>
    Machine.mem_pins.2 (holds.imp_right Or.inl)
  refine ⟨fun lock holds => ?_, fun pin holds => ?_, fun valid remembered => ?_⟩
  · obtain ⟨valid, remembered, before⟩ := h.locked lock holds
    refine ⟨valid, remembered, before, h.round_le valid remembered, fun same => ?_⟩
    -- two blocks of one round rest on one majority
    have majority := h.majority valid (Or.inr remembered)
    rw [same, h.majority lock (Or.inl holds)] at majority
    exact (Option.some.inj majority).symm
  · exact ⟨vetted.hash_eq pin (pinned holds), h.majority pin holds⟩
  · have here : m.Carries valid := Or.inr remembered
    have named : valid.hash ≠ .nil := by
      rw [← vetted.hash_eq valid (pinned here)]
      exact real _ (vetted.proposed valid (pinned here))
    have proves : m.log.Proves valid.round valid.hash :=
      ⟨h.majority valid here, named⟩
    have reach : valid.round ≤ m.log.round :=
      h.onward.placed ▸ h.round_le valid remembered
    obtain ⟨round, hash, found, before, same⟩ :=
      ordered.exists_proofOfLock? reach proves
    obtain ⟨-, -, none_⟩ := ordered.proofOfLock?_latest found
    refine ⟨round, hash, found, before, same, fun later behind upTo other reached => ?_⟩
    -- a later majority for a block would be found first
    by_contra block
    exact none_ later behind (h.onward.placed ▸ upTo) other ⟨reached, block⟩

/-- A proof of a lock may give way to a later one, and to no other. -/
theorem Leads.proofOfLock? {admits : Life → Input → Prop} {l l' : Life}
    (leads : Leads s admits l l') (aligned : l.machine.Aligned)
    (aligned' : l'.machine.Aligned) (ordered : l.machine.log.Ordered)
    (ordered' : l'.machine.log.Ordered) {round : Round} {hash : BlockHash}
    (found : l.machine.log.proofOfLock? = some (round, hash)) :
    ∃ round' hash', l'.machine.log.proofOfLock? = some (round', hash')
      ∧ round ≤ round' := by
  obtain ⟨reach, proves, -⟩ := ordered.proofOfLock?_latest found
  have majority : l'.machine.prevoteMajority? round = some hash :=
    leads.log_grows.prevoteMajority proves.1
  have reach : round ≤ l'.machine.log.round := by
    rw [aligned'.onward.placed]
    rw [aligned.onward.placed] at reach
    exact UInt32.le_trans reach (leads.noLater aligned).round
  obtain ⟨latest, other, found', after, -⟩ :=
    ordered'.exists_proofOfLock? reach ⟨majority, proves.2⟩
  exact ⟨latest, other, found', after⟩

/-- The lock, the valid block and the proof of a lock agree at every moment.
Take any turns at which no block is proposed whose hash stands for nothing, and
any turns after them: the majorities that both blocks rest on stay, and none of
the three goes back to an earlier round. -/
theorem lock_valid_proof_agree (s : Setup) (turns : List (World × Input))
    (real : ∀ block, Proposed turns block → block.hash ≠ .nil) :
    (Life.after s turns).machine.Consistent
      ∧ ∀ more,
        (∀ pin, (Life.after s turns).machine.Carries pin →
          (Life.after s (turns ++ more)).machine.prevoteMajority? pin.round
            = some pin.hash)
        ∧ (Life.after s turns).machine.NoLater
          (Life.after s (turns ++ more)).machine
        ∧ ∀ round hash,
          (Life.after s turns).machine.log.proofOfLock? = some (round, hash) →
          ∃ round' hash',
            (Life.after s (turns ++ more)).machine.log.proofOfLock?
              = some (round', hash')
            ∧ round ≤ round' := by
  have start := reachable_after s turns
  refine ⟨start.aligned.consistent (vetted_after s turns) start.ordered real,
    fun more => ?_⟩
  have leads : Leads s anything (Life.after s turns)
      (Life.after s (turns ++ more)) := by
    rw [Life.after_append]
    exact leads_run s _ more fun _ _ _ => trivial
  have last := reachable_after s (turns ++ more)
  exact ⟨fun pin holds =>
      leads.log_grows.prevoteMajority (start.aligned.majority pin holds),
    leads.noLater start.aligned, fun round hash found =>
      leads.proofOfLock? start.aligned last.aligned start.ordered last.ordered found⟩

end

open scoped Plain

namespace Plain

/-- The first of four validators locks a block in round 0. In round 1 another
gathers its majority when the machine has precommitted already. -/
def outrunTurns : List (World × Input) :=
  [(world, .start), offer 2 0 none (block 0)] ++ votes [2, 3, 4] 0 .prevote
    ++ [timer 0 .precommit, timer 1 (.precommitWait .nil), offer 3 1 none (block 1)]
    ++ [2, 3, 4].map fun byte => vote byte 1 (block 1).hash .prevote

end Plain

open Plain in
/-- The valid block is later than the lock, and the proof is that of the valid
block. -/
theorem lock_valid_proof_agree_of_outrun :
    (∀ block, Proposed outrunTurns block → block.hash ≠ .nil)
      ∧ (Life.after (setup (address 1)) outrunTurns).machine.locked
        = some ⟨0, (block 0).hash, block 0⟩
      ∧ (Life.after (setup (address 1)) outrunTurns).machine.valid
        = some ⟨1, (block 1).hash, block 1⟩
      ∧ (Life.after (setup (address 1)) outrunTurns).machine.log.proofOfLock?
        = some (1, (block 1).hash)
      ∧ (Life.after (setup (address 1)) outrunTurns).machine.Consistent := by
  have real : ∀ block, Proposed outrunTurns block → block.hash ≠ .nil :=
    fun block _ => Plain.digest_ne_nil _
  exact ⟨real, by decide +kernel, by decide +kernel, by decide +kernel,
    (lock_valid_proof_agree (setup (address 1)) outrunTurns real).1⟩

end Quorum
