/-
No transaction is lost while it waits.

What waits is kept as one list. Proposals read it and leave it alone, and an append
strikes out all that its block includes, whoever put that block together and however
often the same transaction was added. So what waits after some requests is known
without looking at the list: it is what was added and what no block that was
appended later includes (`unserved`).

The law is proved for requests to a chain that has been in use before
(`foldl_perform_lists`), since the induction is on the requests from the front and
leaves a used chain to the rest of them. It says more there: what waited at some
moment waits on unless a block takes it. For a chain from the start nothing waited,
and only `unserved` remains.
-/
import Quorum.Proofs.Chain.Linked

namespace Quorum

namespace Ledger

-- ================================================== statement vocabulary

/-- The transaction that a request adds. -/
def Request.transaction? : Request → Option Bytes
  | .addTransaction tx => some tx
  | _ => none

/-- These transactions, without those that one of the blocks includes. -/
def strike (blocks : List Block) (txs : List Bytes) : List Bytes :=
  txs.filter fun tx => !blocks.any fun block => block.transactions.contains tx

section

variable [Crypto]

/-- The block that a request appends, if it is an append and is accepted. -/
def gains (l : Ledger) : Request → Option Block
  | .append block certificate =>
    match l.append block certificate with
    | .ok _ => some block
    | .error _ => none
  | _ => none

/-- The blocks that requests append, one request after the other. -/
def appended (l : Ledger) : List Request → List Block
  | [] => []
  | request :: later =>
    (l.gains request).toList ++ (l.perform request).appended later

/-- The transactions that requests add, in their order and as often as they are
added, but for those that a block appended later includes. -/
def unserved (l : Ledger) : List Request → List Bytes
  | [] => []
  | request :: later =>
    strike ((l.perform request).appended later) request.transaction?.toList
      ++ (l.perform request).unserved later

end

-- ============================================================== striking

theorem mem_strike {blocks : List Block} {txs : List Bytes} {tx : Bytes} :
    tx ∈ strike blocks txs
      ↔ tx ∈ txs ∧ ∀ block ∈ blocks, tx ∉ block.transactions := by
  unfold strike
  simp

theorem strike_nil (txs : List Bytes) : strike [] txs = txs :=
  List.filter_eq_self.2 fun _ _ => rfl

/-- Of two lots of transactions the same ones are struck out. -/
theorem strike_append (blocks : List Block) (txs txs' : List Bytes) :
    strike blocks (txs ++ txs') = strike blocks txs ++ strike blocks txs' :=
  List.filter_append ..

/-- Blocks strike out one after the other. -/
theorem strike_strike (blocks blocks' : List Block) (txs : List Bytes) :
    strike blocks' (strike blocks txs) = strike (blocks ++ blocks') txs := by
  unfold strike
  rw [List.filter_filter]
  refine List.filter_congr fun tx _ => ?_
  rw [List.any_append, Bool.not_or, Bool.and_comm]

-- ============================================================ one request

section

variable [Crypto]

/-- A request strikes out what the block that it appends includes, and lets the
transaction that it adds wait last. That block comes to stand last. -/
theorem perform_lists (l : Ledger) (request : Request) :
    (l.perform request).pending
        = strike (l.gains request).toList l.pending ++ request.transaction?.toList
      ∧ (l.perform request).blocks.map (·.1)
        = l.blocks.map (·.1) ++ (l.gains request).toList := by
  have idle : l.pending = strike [] l.pending ++ []
      ∧ l.blocks.map (·.1) = l.blocks.map (·.1) ++ [] := by
    rw [strike_nil, List.append_nil, List.append_nil]
    exact ⟨rfl, rfl⟩
  cases request with
  | addTransaction tx =>
    refine ⟨?_, idle.2⟩
    show l.pending ++ [tx] = strike [] l.pending ++ [tx]
    rw [strike_nil]
  | refuse hash =>
    unfold perform refuse
    dsimp only
    split
    case isTrue => exact idle
    case isFalse => exact idle
  | propose now proposer height => exact idle
  | validate block => exact idle
  | append block certificate =>
    unfold perform gains
    dsimp only
    cases asked : l.append block certificate with
    | ok next =>
      obtain ⟨-, -, rfl⟩ := append_eq_ok_iff.1 asked
      refine ⟨?_, List.map_append⟩
      simp [strike, Request.transaction?]
    | error fault => exact idle

-- =========================================================== all requests

/-- Of what waited some time ago, and of what has been added since, that waits now
which no block has taken since. The blocks appended since stand after those that
were there. -/
theorem foldl_perform_lists (l : Ledger) (requests : List Request) :
    (requests.foldl perform l).pending
        = strike (l.appended requests) l.pending ++ l.unserved requests
      ∧ (requests.foldl perform l).blocks.map (·.1)
        = l.blocks.map (·.1) ++ l.appended requests := by
  induction requests generalizing l with
  | nil =>
    unfold appended unserved
    rw [strike_nil, List.append_nil, List.append_nil]
    exact ⟨rfl, rfl⟩
  | cons request later ih =>
    obtain ⟨pending, blocks⟩ := ih (l.perform request)
    obtain ⟨first, first'⟩ := l.perform_lists request
    unfold appended unserved
    constructor
    · rw [List.foldl_cons, pending, first, strike_append, strike_strike,
        List.append_assoc]
    · rw [List.foldl_cons, blocks, first', List.append_assoc]

/-- No transaction is lost. Whatever is asked of the chain of a set, in any order and
with any arguments, what waits is exactly what was added and is in no block appended
after that, in the order of adding and with repetitions; and the blocks appended are
those of the chain. So what was added at some time waits, or is in a block of the
chain that was appended later. -/
theorem pending_eq_unserved (validators : ValidatorSet) (requests : List Request) :
    (after validators requests).pending
        = unserved { validators := validators } requests
      ∧ (after validators requests).blocks.map (·.1)
        = appended { validators := validators } requests
      ∧ ∀ before tx later, requests = before ++ .addTransaction tx :: later →
        tx ∈ (after validators requests).pending
          ∨ ∃ block ∈ (after validators (before ++ [.addTransaction tx])).appended later,
            block ∈ (after validators requests).blocks.map (·.1)
              ∧ tx ∈ block.transactions := by
  obtain ⟨pending, blocks⟩ :=
    foldl_perform_lists { validators := validators } requests
  refine ⟨pending, blocks, ?_⟩
  rintro before tx later rfl
  -- the rest of the requests is asked of the chain where the transaction waits last
  have onward : after validators (before ++ .addTransaction tx :: later)
      = later.foldl perform (after validators (before ++ [.addTransaction tx])) := by
    unfold after
    rw [← List.foldl_append, List.append_assoc, List.singleton_append]
  obtain ⟨pending', blocks'⟩ := foldl_perform_lists
    (after validators (before ++ [.addTransaction tx])) later
  have waits : tx ∈ (after validators (before ++ [.addTransaction tx])).pending := by
    rw [after_snoc, (perform_lists _ _).1]
    exact List.mem_append_right _ List.mem_cons_self
  rw [onward, pending', blocks']
  by_cases taken : ∃ block ∈ (after validators (before ++ [.addTransaction tx])).appended
      later, tx ∈ block.transactions
  · obtain ⟨block, member, inside⟩ := taken
    exact Or.inr ⟨block, member, List.mem_append_right _ member, inside⟩
  · refine Or.inl (List.mem_append_left _ (mem_strike.2 ⟨waits, ?_⟩))
    exact fun block member inside => taken ⟨block, member, inside⟩

end

end Ledger

open scoped Plain

/-- One transaction is added three times, twice before a block includes it and once
after that. The last but one request repeats the append, and is refused. -/
def Plain.busyRequests : List Ledger.Request :=
  [.addTransaction [7], .addTransaction [8],
    .append (block 0) (certificate 0 [2, 3, 4]), .addTransaction [7],
    .append secondBlock secondCertificate, .append secondBlock secondCertificate,
    .addTransaction [7]]

open Plain in
/-- The first one to be added is in a block, the other one waits, and the first one
waits again. -/
theorem pending_eq_unserved_of_busy :
    (Ledger.after committee busyRequests).pending = [[8], [7]]
      ∧ Ledger.unserved { validators := committee } busyRequests = [[8], [7]]
      ∧ busyRequests = [] ++ .addTransaction [7] :: busyRequests.tail
      ∧ ([7] ∈ (Ledger.after committee busyRequests).pending
        ∨ ∃ block ∈ (Ledger.after committee ([] ++ [.addTransaction [7]])).appended
            busyRequests.tail,
          block ∈ (Ledger.after committee busyRequests).blocks.map (·.1)
            ∧ [7] ∈ block.transactions) := by
  have waiting : (Ledger.after committee busyRequests).pending = [[8], [7]] := by
    decide +kernel
  obtain ⟨pending, -, served⟩ := Ledger.pending_eq_unserved committee busyRequests
  exact ⟨waiting, pending.symm.trans waiting, rfl, served [] [7] _ rfl⟩

end Quorum
