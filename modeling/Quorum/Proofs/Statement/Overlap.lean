/-
Where the signed bytes of two kinds of statement coincide.

A signature covers the layout of a statement's body and nothing that says
which kind of statement it is. All four kinds begin with the same five
fields, and behind these

- a claim has one byte, its vote kind;
- a vote has nine, its power and then its vote kind;
- a list of held votes has its vote kind, a four-byte count and a byte 0 or
  1 for each validator;
- a proposal has the round it carries forward, if any, and a whole block.

By their lengths alone claims, votes and proposals never coincide with one
another, nor claims with lists. A list coincides with a vote exactly when
it has four flags and the vote's power is the number that the list's kind,
the count 4 and the first three flags spell; the last flag is then read as
the kind of the vote, so that vote is a prevote or null and never a
precommit. A list coincides with a proposal exactly when the flags spell
the block's layout, or the count and the flags do.

So a signature says what was signed only up to these overlaps. The answer
to a claim is such a list, with one flag for each validator: it is a vote
of the same author in a committee of four, and nowhere else.
-/
import Quorum.Machine.Gossip
import Quorum.Proofs.Machine.Plain
import Quorum.Proofs.Wire.Layout

namespace Quorum

open Wire.Layout

-- ================================================ statement vocabulary

/-- What every statement begins with. -/
structure Heading where
  height : Height
  round : Round
  hash : BlockHash
  time : Millis
  author : Address
deriving DecidableEq

/-- The five fields in order, as every statement writes them. -/
def Heading.layout : Wire.Layout Heading :=
  (u64.pair (u32.pair (blockHash.pair (i64.pair address)))).map
    (fun (height, round, hash, time, author) =>
      ⟨height, round, hash, time, author⟩)
    (fun h => (h.height, h.round, h.hash, h.time, h.author))

/-- The body of one of the four statements. -/
inductive Body where
  | ballot (ballot : Ballot)
  | offer (offer : Offer)
  | majority (majority : Majority)
  | holding (holding : Holding)

/-- Which of the four a statement is. -/
inductive Body.Kind where
  | ballot
  | offer
  | majority
  | holding
deriving DecidableEq

/-- The byte that a kind is written as. -/
def VoteKind.byte : VoteKind → UInt8
  | .null => 0
  | .prevote => 1
  | .precommit => 2

/-- The byte that a flag is written as. -/
def flagByte (flag : Bool) : UInt8 := if flag then 1 else 0

/-- The first eight bytes of a list of four flags behind the heading: its
kind, the count, and three flags. A vote has its power there. -/
def powerBytes (kind : VoteKind) (x y z : Bool) : Bytes :=
  [kind.byte, 4, 0, 0, 0, flagByte x, flagByte y, flagByte z]

namespace Body

/-- Which of the four this body is of. -/
def kind : Body → Kind
  | .ballot _ => .ballot
  | .offer _ => .offer
  | .majority _ => .majority
  | .holding _ => .holding

/-- The bytes that a signature of the statement covers. -/
def signBytes : Body → Bytes
  | .ballot b => Statement.signBytes b
  | .offer o => Statement.signBytes o
  | .majority m => Statement.signBytes m
  | .holding h => Statement.signBytes h

/-- Whether the statement passes with this signature. -/
def verify [Crypto] (signature : Bytes) : Body → Bool
  | .ballot b => (⟨b, signature⟩ : Vote).verify
  | .offer o => (⟨o, signature⟩ : Proposal).verify
  | .majority m => (⟨m, signature⟩ : Claim).verify
  | .holding h => (⟨h, signature⟩ : Holdings).verify

/-- The five fields, whatever the kind calls them. -/
def heading : Body → Heading
  | .ballot b => ⟨b.height, b.round, b.hash, b.time, b.validator⟩
  | .offer o => ⟨o.height, o.round, o.hash, o.time, o.proposer⟩
  | .majority m => ⟨m.height, m.round, m.hash, m.time, m.validator⟩
  | .holding h => ⟨h.height, h.round, h.hash, h.time, h.validator⟩

/-- What comes behind the heading. -/
def tail : Body → Bytes
  | .ballot b => u64.write b.power ++ [b.kind.byte]
  | .offer o => (option u32).write o.validRound ++ Block.layout.encode o.block
  | .majority m => [m.kind.byte]
  | .holding h =>
    h.kind.byte
      :: (u32.write (UInt32.ofNat h.held.length) ++ h.held.map flagByte)

end Body

/-- A list of held votes has the bytes of a statement of another kind. -/
inductive Overlap (h : Holding) : Body → Prop
  /-- Four flags, three of them in the power of a vote and one its kind. -/
  | vote (b : Ballot) (x y z last : Bool)
      (same : (Body.holding h).heading = (Body.ballot b).heading)
      (held : h.held = [x, y, z, last])
      (power : b.power.toNat
        = ofLittleEndian (powerBytes h.kind x y z))
      (kind : b.kind = if last then .prevote else .null) : Overlap h (.ballot b)
  /-- Count and flags that are the layout of a block newly proposed. -/
  | new (o : Offer) (same : (Body.holding h).heading = (Body.offer o).heading)
      (kind : h.kind = .null) (fresh : o.validRound = none)
      (block : Block.layout.encode o.block
        = u32.write (UInt32.ofNat h.held.length) ++ h.held.map flagByte) :
      Overlap h (.offer o)
  /-- Flags that are the layout of a block carried forward from the round
  that is their count. -/
  | again (o : Offer) (same : (Body.holding h).heading = (Body.offer o).heading)
      (kind : h.kind = .prevote)
      (carried : o.validRound = some (UInt32.ofNat h.held.length))
      (block : Block.layout.encode o.block = h.held.map flagByte) :
      Overlap h (.offer o)

/-- One of two bodies is a list of held votes that has the other's bytes. -/
def Overlaps (x y : Body) : Prop :=
  ∃ h, x = .holding h ∧ Overlap h y ∨ y = .holding h ∧ Overlap h x

-- ============================================================== headings

/-- The heading has a fixed width, so it is read back from the front of any
statement. -/
theorem Heading.restores_layout (h : Heading) : Heading.layout.Restores h :=
  restores_map (restores_pair (restores_u64 _) (restores_pair (restores_u32 _)
    (restores_pair (restores_blockHash _)
      (restores_pair (restores_i64 _) (restores_address _))))) rfl

/-- A kind is written as its byte. -/
theorem voteKind_write (kind : VoteKind) :
    voteKind.write kind = [kind.byte] := by
  cases kind <;> rfl

/-- Flags are written one byte each. -/
theorem flatMap_bool_write (flags : List Bool) :
    flags.flatMap bool.write = flags.map flagByte := by
  induction flags with
  | nil => rfl
  | cons flag flags ih =>
    rw [List.flatMap_cons, ih]
    rfl

/-- The signed bytes are the heading and what comes behind it. -/
theorem Body.signBytes_eq (x : Body) :
    x.signBytes = Heading.layout.write x.heading ++ x.tail := by
  have front : Heading.layout.write x.heading = u64.write x.heading.height
      ++ (u32.write x.heading.round ++ (blockHash.write x.heading.hash
        ++ (i64.write x.heading.time ++ address.write x.heading.author))) := rfl
  rw [front]
  simp only [List.append_assoc]
  cases x with
  | ballot b => rw [tail, ← voteKind_write]; rfl
  | offer o => rfl
  | majority m => rw [tail, ← voteKind_write]; rfl
  | holding h =>
    rw [tail, ← flatMap_bool_write, ← List.singleton_append, ← voteKind_write]
    rfl

/-- Two bodies are signed alike when they agree in both. -/
theorem Body.signBytes_eq_iff (x y : Body) :
    x.signBytes = y.signBytes ↔ x.heading = y.heading ∧ x.tail = y.tail := by
  rw [signBytes_eq, signBytes_eq]
  constructor
  · exact append_inj (Heading.restores_layout _) (Heading.restores_layout _)
  · intro same
    rw [same.1, same.2]

-- ================================================================= tails

/-- Only the null kind begins like a proposal of a new block. -/
theorem VoteKind.byte_eq_zero_iff (kind : VoteKind) :
    kind.byte = 0 ↔ kind = .null := by
  cases kind <;> decide

/-- Only a prevote begins like a proposal of an old one. -/
theorem VoteKind.byte_eq_one_iff (kind : VoteKind) :
    kind.byte = 1 ↔ kind = .prevote := by
  cases kind <;> decide

/-- A vote's kind is written as a flag if it is null or a prevote. -/
theorem VoteKind.byte_eq_flagByte_iff (kind : VoteKind) (flag : Bool) :
    kind.byte = flagByte flag ↔ kind = if flag then .prevote else .null := by
  cases kind <;> cases flag <;> decide

/-- A block is longer than a vote behind its heading. -/
theorem length_block_layout (b : Block) :
    9 ≤ (Block.layout.encode b).length := by
  have front : Block.layout.encode b = u64.write b.height
      ++ ((option blockHash).write b.parent
        ++ (address.write b.proposer
        ++ (i64.write b.time ++ ((list bytes).write b.transactions
        ++ (option Certificate.layout).write b.lastCommit)))) := rfl
  have parent : 1 ≤ ((option blockHash).write b.parent).length := by
    cases b.parent with
    | none => exact Nat.le_refl 1
    | some hash => exact Nat.succ_le_succ (Nat.zero_le _)
  rw [front, List.length_append, List.length_append, length_u64]
  omega

/-- A proposal has more than nine bytes behind its heading. -/
theorem length_tail_offer (o : Offer) : 10 ≤ (Body.offer o).tail.length := by
  have block := length_block_layout o.block
  have round : 1 ≤ ((option u32).write o.validRound).length := by
    cases o.validRound with
    | none => exact Nat.le_refl 1
    | some round => exact Nat.succ_le_succ (Nat.zero_le _)
  unfold Body.tail
  rw [List.length_append]
  omega

/-- A vote has nine. -/
theorem length_tail_ballot (b : Ballot) : (Body.ballot b).tail.length = 9 := by
  unfold Body.tail
  rw [List.length_append, length_u64]
  rfl

/-- A claim has one. -/
theorem length_tail_majority (m : Majority) :
    (Body.majority m).tail.length = 1 := rfl

/-- A list of held votes has five and as many as it has flags. -/
theorem length_tail_holding (h : Holding) :
    (Body.holding h).tail.length = 5 + h.held.length := by
  unfold Body.tail
  rw [List.length_cons, List.length_append, length_u32, List.length_map]
  omega

/-- A word is written as eight given bytes if it is the number they spell. -/
theorem u64_write_eq_iff (w : UInt64) {bytes : Bytes}
    (eight : bytes.length = 8) :
    u64.write w = bytes ↔ w.toNat = ofLittleEndian bytes := by
  have spelled : u64.write w = littleEndian 8 w.toNat := rfl
  rw [spelled]
  constructor
  · intro same
    rw [← same]
    exact (ofLittleEndian_littleEndian w.toNat_lt).symm
  · intro value
    rw [value, ← eight]
    exact littleEndian_ofLittleEndian bytes

/-- A list of held votes is a vote behind the heading when it has four
flags that spell one. -/
theorem tail_holding_eq_ballot_iff (h : Holding) (b : Ballot) :
    (Body.holding h).tail = (Body.ballot b).tail
      ↔ ∃ x y z last, h.held = [x, y, z, last]
        ∧ b.power.toNat = ofLittleEndian (powerBytes h.kind x y z)
        ∧ b.kind = if last then .prevote else .null := by
  -- with four flags the tail is eight bytes, read as a power, and one more
  have four : ∀ x y z last, h.held = [x, y, z, last] →
      ((Body.holding h).tail = (Body.ballot b).tail
        ↔ b.power.toNat = ofLittleEndian (powerBytes h.kind x y z)
        ∧ b.kind = if last then .prevote else .null) := by
    intro x y z last held
    have spelled : (Body.holding h).tail
        = powerBytes h.kind x y z ++ [flagByte last] := by
      have count : u32.write 4 = [4, 0, 0, 0] := by decide
      unfold Body.tail
      dsimp only
      rw [held]
      show h.kind.byte :: (u32.write 4 ++ _) = _
      rw [count]
      rfl
    have ballot : (Body.ballot b).tail
        = u64.write b.power ++ [b.kind.byte] := rfl
    rw [spelled, ballot, ← u64_write_eq_iff b.power (by rfl),
      ← VoteKind.byte_eq_flagByte_iff]
    constructor
    · intro same
      obtain ⟨power, kind⟩ := List.append_inj same (length_u64 b.power).symm
      exact ⟨power.symm, (List.cons.inj kind).1.symm⟩
    · intro same
      rw [same.1, same.2]
  constructor
  -- a tail of nine bytes leaves four for the flags
  · intro same
    have count : h.held.length = 4 := by
      have lengths := congrArg List.length same
      rw [length_tail_holding, length_tail_ballot] at lengths
      omega
    match flags : h.held, count with
    | [x, y, z, last], _ =>
      exact ⟨x, y, z, last, rfl, (four x y z last flags).1 same⟩
  · intro spelled
    obtain ⟨x, y, z, last, held, spells⟩ := spelled
    exact (four x y z last held).2 spells

/-- A list of held votes is a proposal behind the heading when its count
and flags spell one. -/
theorem tail_holding_eq_offer_iff (h : Holding) (o : Offer) :
    (Body.holding h).tail = (Body.offer o).tail
      ↔ h.kind = .null ∧ o.validRound = none ∧ Block.layout.encode o.block
          = u32.write (UInt32.ofNat h.held.length) ++ h.held.map flagByte
        ∨ h.kind = .prevote ∧ o.validRound = some (UInt32.ofNat h.held.length)
          ∧ Block.layout.encode o.block = h.held.map flagByte := by
  unfold Body.tail
  dsimp only
  cases o.validRound with
  -- the byte for no round carried forward is that of the null kind
  | none =>
    show h.kind.byte :: _ = 0 :: Block.layout.encode o.block ↔ _
    rw [List.cons.injEq, VoteKind.byte_eq_zero_iff]
    constructor
    · intro same
      exact Or.inl ⟨same.1, rfl, same.2.symm⟩
    · intro spells
      rcases spells with ⟨kind, -, block⟩ | ⟨-, carried, -⟩
      · exact ⟨kind, block.symm⟩
      · cases carried
  -- the byte for a round carried forward is that of a prevote, and the round is the
  -- count
  | some round =>
    show h.kind.byte :: _
      = 1 :: (u32.write round ++ Block.layout.encode o.block) ↔ _
    rw [List.cons.injEq, VoteKind.byte_eq_one_iff]
    constructor
    · intro same
      obtain ⟨count, block⟩ :=
        append_inj (restores_u32 _) (restores_u32 _) same.2
      exact Or.inr ⟨same.1, congrArg some count.symm, block.symm⟩
    · intro spells
      rcases spells with ⟨-, fresh, -⟩ | ⟨kind, carried, block⟩
      · cases fresh
      · rw [Option.some.inj carried, block]
        exact ⟨kind, rfl⟩

-- ============================================================== overlaps

/-- A list of held votes and a statement of another kind are signed alike
exactly where they overlap. -/
theorem signBytes_holding_eq_iff (h : Holding) {x : Body}
    (other : x.kind ≠ .holding) :
    (Body.holding h).signBytes = x.signBytes ↔ Overlap h x := by
  rw [Body.signBytes_eq_iff]
  cases x with
  | ballot b =>
    rw [tail_holding_eq_ballot_iff]
    constructor
    · intro alike
      obtain ⟨same, x, y, z, last, held, power, kind⟩ := alike
      exact .vote b x y z last same held power kind
    · intro overlap
      cases overlap with
      | vote _ x y z last same held power kind =>
        exact ⟨same, x, y, z, last, held, power, kind⟩
  | offer o =>
    rw [tail_holding_eq_offer_iff]
    constructor
    · intro alike
      rcases alike with ⟨same, ⟨kind, fresh, block⟩ | ⟨kind, carried, block⟩⟩
      · exact .new o same kind fresh block
      · exact .again o same kind carried block
    · intro overlap
      cases overlap with
      | new _ same kind fresh block => exact ⟨same, Or.inl ⟨kind, fresh, block⟩⟩
      | again _ same kind carried block =>
        exact ⟨same, Or.inr ⟨kind, carried, block⟩⟩
  -- a claim is too short for any list
  | majority m =>
    constructor
    · intro same
      have lengths := congrArg List.length same.2
      rw [length_tail_holding, length_tail_majority] at lengths
      omega
    · intro overlap
      cases overlap
  | holding h' => exact absurd rfl other

/-- Apart from lists of held votes, what comes behind the heading tells the
kinds apart by its length. -/
theorem Body.kind_eq_of_length_tail {x : Body} (other : x.kind ≠ .holding) :
    x.kind = if x.tail.length = 1 then .majority
      else if x.tail.length = 9 then .ballot else .offer := by
  cases x with
  | ballot b =>
    rw [length_tail_ballot]
    rfl
  | offer o =>
    have long := length_tail_offer o
    rw [if_neg (by omega), if_neg (by omega)]
    rfl
  | majority m =>
    rw [length_tail_majority]
    rfl
  | holding h => exact absurd rfl other

/-- Without a list of held votes nothing coincides. -/
theorem signBytes_ne_of_not_holding {x y : Body} (other : x.kind ≠ y.kind)
    (hx : x.kind ≠ .holding) (hy : y.kind ≠ .holding) :
    x.signBytes ≠ y.signBytes := by
  intro same
  have tails := ((Body.signBytes_eq_iff x y).1 same).2
  rw [Body.kind_eq_of_length_tail hx, Body.kind_eq_of_length_tail hy,
    tails] at other
  exact other rfl

/-- Which of the two is the list is of no account. -/
theorem Overlaps.symm {x y : Body} (h : Overlaps x y) : Overlaps y x := by
  obtain ⟨list, overlap⟩ := h
  exact ⟨list, overlap.symm⟩

/-- A list of held votes overlaps what is of another kind in one way only. -/
theorem overlaps_holding_iff {h : Holding} {x : Body}
    (other : x.kind ≠ .holding) :
    Overlaps (.holding h) x ↔ Overlap h x := by
  constructor
  · intro overlaps
    obtain ⟨h', first | second⟩ := overlaps
    · cases first.1
      exact first.2
    · rw [second.1] at other
      exact absurd rfl other
  · intro overlap
    exact ⟨h, Or.inl ⟨rfl, overlap⟩⟩

/-- Statements of two kinds are signed alike exactly where they overlap. -/
theorem signBytes_eq_iff_overlaps {x y : Body} (other : x.kind ≠ y.kind) :
    x.signBytes = y.signBytes ↔ Overlaps x y := by
  by_cases hx : x.kind = .holding
  · cases x with
    | holding h =>
      rw [signBytes_holding_eq_iff h other.symm]
      exact (overlaps_holding_iff other.symm).symm
    | _ => cases hx
  · by_cases hy : y.kind = .holding
    · cases y with
      | holding h =>
        rw [eq_comm, signBytes_holding_eq_iff h other,
          ← overlaps_holding_iff other]
        exact ⟨Overlaps.symm, Overlaps.symm⟩
      | _ => cases hy
    · refine iff_of_false (signBytes_ne_of_not_holding other hx hy) ?_
      intro overlaps
      obtain ⟨h, first | second⟩ := overlaps
      · rw [first.1] at hx
        exact hx rfl
      · rw [second.1] at hy
        exact hy rfl

-- ============================================================ signatures

section

variable [Crypto]

/-- What this signer signs for one statement is good, under this address, for
no other bytes that are the body of a statement. -/
def Signer.Binds (signer : Signer) (address : Address) : Prop :=
  ∀ x y : Body,
    Crypto.verify address y.signBytes (signer.sign x.signBytes) = true →
    y.signBytes = x.signBytes

/-- Every kind is verified alike: over the signed bytes, against the author in the
heading. -/
theorem Body.verify_eq (x : Body) (signature : Bytes) : x.verify signature
    = (!signature.isEmpty
      && Crypto.verify x.heading.author x.signBytes signature) := by
  cases x <;> rfl

/-- Where bodies overlap, every signature is good for both or for none. -/
theorem verify_eq_of_signBytes_eq {x y : Body}
    (same : x.signBytes = y.signBytes) (signature : Bytes) :
    x.verify signature = y.verify signature := by
  rw [Body.verify_eq, Body.verify_eq, same,
    ((Body.signBytes_eq_iff x y).1 same).1]

/-- A signature passes for another body only if that is signed alike. -/
theorem signBytes_eq_of_verify {signer : Signer} {x y : Body}
    (binds : signer.Binds y.heading.author)
    (passes : y.verify (signer.sign x.signBytes) = true) :
    x.signBytes = y.signBytes := by
  rw [Body.verify_eq, Bool.and_eq_true] at passes
  exact (binds x y passes.2).symm

-- ================================================================ answers

/-- Statements of two kinds are signed alike exactly where they overlap, so
the signature of one passes for the other there and nowhere else. The
answer to a claim passes for a vote only in a committee of four; that vote
is by the same author for the claimed hash, no precommit, and of a power
that spells the claimed kind, the count four and three flags. -/
theorem signatures_apart_but_for_overlaps :
    (∀ x y : Body, x.kind ≠ y.kind → (x.signBytes = y.signBytes ↔ Overlaps x y))
      ∧ (∀ (signer : Signer) (x y : Body), signer.Binds y.heading.author →
        x.kind ≠ y.kind → x.verify (signer.sign x.signBytes) = true →
        (y.verify (signer.sign x.signBytes) = true ↔ Overlaps x y))
      ∧ (∀ (s : Setup) (w : World) (m : Machine) (claim : Claim)
        (answer : Holdings) (b : Ballot),
        s.signer.Binds b.validator →
        (m.addClaim s w claim).2 = .ok (some answer) →
        (⟨b, answer.signature⟩ : Vote).verify = true →
        s.scope.validators.size = 4 ∧ b.validator = s.signer.address
          ∧ b.height = s.scope.height ∧ b.round = claim.body.round
          ∧ b.hash = claim.body.hash ∧ b.kind ≠ .precommit
          ∧ ∃ x y z, b.power.toNat
            = ofLittleEndian (powerBytes claim.body.kind x y z)) := by
  refine ⟨fun x y other => signBytes_eq_iff_overlaps other,
    fun signer x y binds other good => ?_,
    fun s w m claim answer b binds answers passes => ?_⟩
  · rw [← signBytes_eq_iff_overlaps other]
    constructor
    · exact signBytes_eq_of_verify binds
    · intro same
      rw [← verify_eq_of_signBytes_eq same]
      exact good
  · obtain ⟨-, held, size, rfl⟩ := Machine.answer_of_addClaim answers
    have same := signBytes_eq_of_verify (y := .ballot b)
      (x := .holding ⟨s.scope.height, claim.body.round, claim.body.hash, w.now,
        s.signer.address, claim.body.kind, held⟩) binds passes
    rw [signBytes_holding_eq_iff _ (by nofun)] at same
    obtain ⟨_, x, y, z, last, heading, flags, power, kind⟩ := same
    obtain ⟨height, round, hash, -, author⟩ := Heading.mk.inj heading
    refine ⟨?_, author.symm, height.symm, round.symm, hash.symm, ?_,
      x, y, z, power⟩
    · rw [← size]
      exact congrArg List.length flags
    · rw [kind]
      cases last <;> nofun

end

open scoped Plain

namespace Plain

/-- Plain signatures contain what was signed, so they are good for nothing else. -/
theorem binds (signer named : Address) : (Signer.plain signer).Binds named :=
  fun _ _ good => (eq_of_verify good).2

/-- The first of four validators, each of power 1025. -/
def heavy : Setup :=
  ⟨⟨1, ⟨[1, 2, 3, 4].map fun byte => ⟨address byte, 1025⟩, 4100⟩⟩,
    Signer.plain (address 1), {}⟩

/-- A prevote of one of them for the empty block. -/
def prevote (byte : UInt8) : Ballot :=
  ⟨1, 0, (block 0).hash, 0, address byte, 1025, .prevote⟩

/-- The first one when it holds the prevote of the last. -/
def holder : Machine :=
  (Life.after heavy [(world, .start), (world,
    .message (.vote
      (Signed.make (Signer.plain (address 4)) (prevote 4))))]).machine

/-- The second one claims that the prevotes are for this block. -/
def claim : Claim :=
  Signed.make (Signer.plain (address 2))
    ⟨1, 0, (block 0).hash, 0, address 2, .prevote⟩

/-- What the first one answers. -/
def answer : Holdings :=
  Machine.signHoldings heavy world 0 (block 0).hash .prevote
    [false, false, false, true]

/-- It holds one vote of four, so it answers with that. -/
theorem addClaim_holder :
    (holder.addClaim heavy world claim).2 = .ok (some answer) := rfl

end Plain

open Plain in
/-- In a committee of four validators of power 1025, an answer passes for a
vote of its author. -/
theorem signatures_apart_of_answer :
    heavy.signer.Binds (prevote 1).validator
      ∧ (Body.holding answer.body).kind ≠ (Body.ballot (prevote 1)).kind
      ∧ (Body.holding answer.body).verify
        (heavy.signer.sign (Body.holding answer.body).signBytes) = true
      ∧ ((Body.ballot (prevote 1)).verify
          (heavy.signer.sign (Body.holding answer.body).signBytes) = true
        ∧ Overlaps (.holding answer.body) (.ballot (prevote 1)))
      ∧ (holder.addClaim heavy world claim).2 = .ok (some answer)
      ∧ (⟨prevote 1, answer.signature⟩ : Vote).verify = true
      ∧ heavy.scope.validators.size = 4
      ∧ (prevote 1).validator = heavy.signer.address
      ∧ (prevote 1).hash = claim.body.hash
      ∧ ∃ x y z, (prevote 1).power.toNat
        = ofLittleEndian (powerBytes claim.body.kind x y z) := by
  have binds : heavy.signer.Binds (prevote 1).validator :=
    Plain.binds (address 1) (prevote 1).validator
  have other : (Body.holding answer.body).kind
      ≠ (Body.ballot (prevote 1)).kind := by decide
  have good : (Body.holding answer.body).verify
      (heavy.signer.sign (Body.holding answer.body).signBytes) = true := by
    decide +kernel
  have passes : (⟨prevote 1, answer.signature⟩ : Vote).verify = true := by
    decide +kernel
  obtain ⟨-, pass, turned⟩ := signatures_apart_but_for_overlaps
  have overlaps :=
    (pass heavy.signer _ (.ballot (prevote 1)) binds other good).1 passes
  obtain ⟨size, author, -, -, hash, -, power⟩ :=
    turned heavy world holder claim answer (prevote 1) binds addClaim_holder
      passes
  exact ⟨binds, other, good, ⟨passes, overlaps⟩, addClaim_holder, passes,
    size, author, hash, power⟩

open Plain in
/-- Statements of two kinds can be signed alike, and an answer to a claim
then is a vote of its author for the claimed hash, which others count. -/
theorem answer_signed_like_vote :
    (Body.holding answer.body).kind ≠ (Body.ballot (prevote 1)).kind
      ∧ (Body.holding answer.body).signBytes
        = (Body.ballot (prevote 1)).signBytes
      ∧ (holder.addClaim heavy world claim).2 = .ok (some answer)
      ∧ (prevote 1).validator = heavy.signer.address
      ∧ (prevote 1).hash = claim.body.hash
      ∧ (⟨prevote 1, answer.signature⟩ : Vote).verify = true
      ∧ (HeightLog.start.addVote heavy.scope ⟨prevote 1, answer.signature⟩).2
        = .ok () :=
  ⟨by decide, by decide +kernel, addClaim_holder, rfl, rfl,
    by decide +kernel, rfl⟩

end Quorum
