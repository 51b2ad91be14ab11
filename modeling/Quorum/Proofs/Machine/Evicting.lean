/-
The memory of verdicts is a bounded queue, and a map beside it.

The queue and the verdicts are changed by different steps of one insertion: the
verdict is stored first, and only for a hash that had none does the hash join
the queue, from which others then leave with their verdicts. What keeps the two
together is that each hash of the queue has exactly one verdict, and nothing
else has any (`Paired`). Where that holds and there was room before, a new hash
finds at most one too many in the queue, and that is the oldest; it can be the
new one only where there is no room at all, which `empty` rules out.

So a history of calls can be told from the queue alone: a hash enters it when a
verdict is written that it did not have, stays through every later verdict, and
leaves by an eviction. What is found under a hash is what was written last, as
long as no eviction came in between (`bounded_fifo`).
-/
import Mathlib.Data.List.Nodup
import Mathlib.Data.List.Forall2
import Quorum.Machine.Verdict

namespace Quorum.VerdictCache

variable {c : VerdictCache} {hash other : BlockHash} {valid : Bool}
  {entries : List (BlockHash × Bool)}

-- ============================================================== verdicts

/-- A verdict that was just stored is the one found, also over an older one. -/
theorem find?_store_self (hash : BlockHash) (valid : Bool)
    (entries : List (BlockHash × Bool)) :
    (store hash valid entries).find? (fun entry => entry.1 == hash)
      = some (hash, valid) := by
  induction entries with
  | nil => simp [store]
  | cons entry entries ih =>
    unfold store
    split
    case isTrue => simp
    case isFalse apart => simp [apart, ih]

/-- To store a verdict changes none on other hashes. -/
theorem find?_store_of_ne (apart : other ≠ hash) (valid : Bool)
    (entries : List (BlockHash × Bool)) :
    (store hash valid entries).find? (fun entry => entry.1 == other)
      = entries.find? (fun entry => entry.1 == other) := by
  have away : (hash == other) = false := by simpa using apart.symm
  induction entries with
  | nil => simp [store, away]
  | cons entry entries ih =>
    unfold store
    split
    case isTrue here => simp [here, away]
    case isFalse => rw [List.find?_cons, List.find?_cons, ih]

/-- To store a verdict brings in no other. -/
theorem mem_of_mem_store {entry : BlockHash × Bool}
    (member : entry ∈ store hash valid entries) :
    entry ∈ entries ∨ entry = (hash, valid) := by
  induction entries with
  | nil => exact Or.inr (List.mem_singleton.1 member)
  | cons first entries ih =>
    unfold store at member
    split at member
    case isTrue =>
      rcases List.mem_cons.1 member with same | further
      · exact Or.inr same
      · exact Or.inl (List.mem_cons_of_mem first further)
    case isFalse =>
      rcases List.mem_cons.1 member with same | further
      · exact Or.inl (List.mem_cons.2 (Or.inl same))
      · exact (ih further).imp_left (List.mem_cons_of_mem first)

/-- A verdict on a new hash is stored behind the others, one on a known hash in
the place of the old one. -/
theorem names_store (hash : BlockHash) (valid : Bool)
    (entries : List (BlockHash × Bool)) :
    (store hash valid entries).map (·.1)
      = if hash ∈ entries.map (·.1) then entries.map (·.1)
        else entries.map (·.1) ++ [hash] := by
  induction entries with
  | nil => simp [store]
  | cons entry entries ih =>
    unfold store
    by_cases here : entry.1 = hash
    · simp [here]
    · have away : hash ≠ entry.1 := fun same => here same.symm
      rw [if_neg here, List.map_cons, ih]
      by_cases known : hash ∈ entries.map (·.1) <;> simp_all

-- ============================================================== evictions

/-- The hashes that are evicted are those at the front that are too many. -/
theorem evict_order (capacity : Nat) (entries : List (BlockHash × Bool))
    (order : List BlockHash) :
    (evict capacity entries order).2 = order.drop (order.length - capacity) := by
  induction order generalizing entries with
  | nil => simp [evict]
  | cons oldest order ih =>
    unfold evict
    split
    case isTrue many =>
      rw [List.length_cons] at many ⊢
      rw [ih, show order.length + 1 - capacity = order.length - capacity + 1 by omega,
        List.drop_succ_cons]
    case isFalse few =>
      rw [show (oldest :: order).length - capacity = 0 by omega, List.drop_zero]

/-- Their verdicts are forgotten, and no others. -/
theorem evict_entries (capacity : Nat) (entries : List (BlockHash × Bool))
    (order : List BlockHash) :
    (evict capacity entries order).1 = entries.filter fun entry =>
      decide (entry.1 ∉ order.take (order.length - capacity)) := by
  induction order generalizing entries with
  | nil => simp [evict]
  | cons oldest order ih =>
    unfold evict
    split
    case isTrue many =>
      rw [List.length_cons] at many ⊢
      rw [ih, show order.length + 1 - capacity = order.length - capacity + 1 by omega,
        List.take_succ_cons]
      unfold forget
      rw [List.filter_filter]
      refine List.filter_congr fun entry _ => ?_
      by_cases here : entry.1 = oldest <;> simp [here]
    case isFalse few =>
      rw [show (oldest :: order).length - capacity = 0 by omega]
      simp

/-- Whoever is not among those forgotten is found as before. -/
theorem find?_filter_names (gone : List BlockHash) (hash : BlockHash)
    (entries : List (BlockHash × Bool)) :
    (entries.filter fun entry => decide (entry.1 ∉ gone)).find?
        (fun entry => entry.1 == hash)
      = if hash ∈ gone then none
        else entries.find? (fun entry => entry.1 == hash) := by
  rw [List.find?_filter]
  split
  case isTrue left =>
    rw [List.find?_eq_none]
    rintro entry - found
    simp only [decide_eq_true_eq, beq_iff_eq] at found
    exact found.1 (found.2 ▸ left)
  case isFalse stays =>
    refine congrArg (entries.find? ·) (funext fun entry => ?_)
    by_cases here : entry.1 = hash <;> simp [here, stays]

-- =============================================================== insertion

/-- What an insertion leaves of the verdicts: the new one and those before it, but
for those evicted. -/
theorem exists_entries_insert (c : VerdictCache) (hash : BlockHash) (valid : Bool) :
    ∃ gone : List BlockHash, (c.insert hash valid).entries
      = (store hash valid c.entries).filter fun entry => decide (entry.1 ∉ gone) := by
  unfold insert
  split
  case isTrue => exact ⟨[], by simp⟩
  case isFalse => exact ⟨_, evict_entries _ _ _⟩

/-- The capacity is set once and for all. -/
theorem capacity_insert (c : VerdictCache) (hash : BlockHash) (valid : Bool) :
    (c.insert hash valid).capacity = c.capacity := by
  unfold insert
  split <;> rfl

/-- A verdict comes into the memory as it was passed. -/
theorem mem_of_mem_insert {entry : BlockHash × Bool}
    (member : entry ∈ (c.insert hash valid).entries) :
    entry ∈ c.entries ∨ entry = (hash, valid) := by
  obtain ⟨gone, left⟩ := exists_entries_insert c hash valid
  rw [left] at member
  exact mem_of_mem_store (List.mem_filter.1 member).1

/-- A verdict that was just remembered is what is found, if anything is: a
memory without room forgets it at once. -/
theorem eq_of_get?_insert {found : Bool}
    (here : (c.insert hash valid).get? hash = some found) : found = valid := by
  obtain ⟨gone, left⟩ := exists_entries_insert c hash valid
  unfold get? at here
  rw [left, find?_filter_names, find?_store_self] at here
  split at here
  case isTrue => cases here
  case isFalse => exact (Option.some.inj here).symm

/-- What is found is one of the entries. -/
theorem mem_of_get? (found : c.get? hash = some valid) :
    (hash, valid) ∈ c.entries := by
  obtain ⟨entry, here, rfl⟩ := Option.map_eq_some_iff.1 found
  have same : entry.1 = hash := by simpa using List.find?_some here
  rw [← same]
  exact List.mem_of_find?_eq_some here

/-- Something is found exactly under the hashes that entries have. -/
theorem isSome_get?_iff :
    (c.get? hash).isSome = true ↔ hash ∈ c.entries.map (·.1) := by
  unfold get?
  rw [Option.isSome_map, List.find?_isSome, List.mem_map]
  simp only [beq_iff_eq]

-- ============================================================ consultation

/-- Asking does not change the capacity either. -/
theorem capacity_consult (c : VerdictCache) (hash : BlockHash)
    (verdict : Unit → Bool) : (c.consult hash verdict).2.capacity = c.capacity := by
  unfold consult
  split
  · rfl
  · exact c.capacity_insert hash _

/-- Asking brings in no verdict but the one passed for the hash asked about. -/
theorem mem_of_mem_consult {verdict : Unit → Bool} {entry : BlockHash × Bool}
    (member : entry ∈ (c.consult hash verdict).2.entries) :
    entry ∈ c.entries ∨ entry = (hash, verdict ()) := by
  unfold consult at member
  split at member
  case h_1 => exact Or.inl member
  case h_2 => exact mem_of_mem_insert member

/-- A good verdict is a remembered one, or one passed now. -/
theorem mem_or_of_consult {verdict : Unit → Bool}
    (good : (c.consult hash verdict).1 = true) :
    (hash, true) ∈ c.entries ∨ verdict () = true := by
  unfold consult at good
  split at good
  case h_1 valid found => exact Or.inl (mem_of_get? (good ▸ found))
  case h_2 => exact Or.inr good

/-- Who knows a verdict already does not change its mind by asking. -/
theorem consult_of_known (known : (c.get? hash).isSome = true)
    (verdict : Unit → Bool) : (c.consult hash verdict).2 = c := by
  unfold consult
  split
  · rfl
  · rename_i unknown
    rw [unknown] at known
    cases known

-- ================================================================= pairing

/-- The queue and the verdicts belong together: each hash of the queue has one
verdict, and no other hash has any. The queue is no longer than it may be, and
there is room in it. -/
structure Paired (c : VerdictCache) : Prop where
  names : (c.entries.map (·.1)).Perm c.order
  distinct : c.order.Nodup
  room : 0 < c.capacity
  short : c.order.length ≤ c.capacity

/-- Nothing is paired with nothing, and there is room for one. -/
theorem paired_empty (capacity : Nat) : (empty capacity).Paired where
  names := .refl _
  distinct := List.nodup_nil
  room := Nat.lt_of_lt_of_le Nat.zero_lt_one (Nat.le_max_right _ _)
  short := Nat.zero_le _

/-- So a verdict is found exactly for the hashes of the queue. -/
theorem Paired.isSome_get?_iff (paired : c.Paired) :
    (c.get? hash).isSome = true ↔ hash ∈ c.order := by
  rw [VerdictCache.isSome_get?_iff, paired.names.mem_iff]

/-- What is found has its place in the queue. -/
theorem Paired.mem_of_get? (paired : c.Paired) (found : c.get? hash = some valid) :
    hash ∈ c.order := by
  rw [← paired.isSome_get?_iff, found, Option.isSome_some]

/-- How many have to leave before one more comes. -/
def excess (c : VerdictCache) : Nat := c.order.length + 1 - c.capacity

/-- Those that make room for one more: the oldest, where the queue is full. -/
def leaving (c : VerdictCache) : List BlockHash := c.order.take c.excess

/-- Those that stay when one more comes. -/
def staying (c : VerdictCache) : List BlockHash := c.order.drop c.excess

/-- The queue is those that leave, in front, and those that stay. -/
theorem leaving_append_staying (c : VerdictCache) :
    c.leaving ++ c.staying = c.order := List.take_append_drop _ _

/-- A queue that is no longer than it may be has at most one to give up. -/
theorem Paired.excess_eq (paired : c.Paired) :
    c.excess = if c.order.length < c.capacity then 0 else 1 := by
  have short := paired.short
  unfold excess
  split <;> omega

/-- Whoever has to leave is the oldest. -/
theorem Paired.head?_of_leaving (paired : c.Paired) (leaves : hash ∈ c.leaving) :
    c.order.head? = some hash := by
  unfold leaving at leaves
  rw [paired.excess_eq] at leaves
  split at leaves
  case isTrue => simp at leaves
  case isFalse =>
    match queue : c.order with
    | [] => simp [queue] at leaves
    | oldest :: rest => simpa [queue, eq_comm] using leaves

/-- All stay, or all but the oldest. -/
theorem Paired.staying_eq (paired : c.Paired) :
    c.staying = if c.order.length < c.capacity then c.order else c.order.tail := by
  unfold staying
  rw [paired.excess_eq]
  split
  · exact List.drop_zero
  · exact List.drop_one

/-- A known hash gets another verdict, and that is all. -/
theorem Paired.insert_of_mem (paired : c.Paired) (known : hash ∈ c.order)
    (valid : Bool) :
    c.insert hash valid = { c with entries := store hash valid c.entries } :=
  if_pos (paired.isSome_get?_iff.2 known)

/-- A new hash goes to the end of the queue, and those that make room for it are
forgotten. -/
theorem Paired.insert_of_not_mem (paired : c.Paired) (new : hash ∉ c.order)
    (valid : Bool) :
    c.insert hash valid = { c with
      entries := (store hash valid c.entries).filter fun entry =>
        decide (entry.1 ∉ c.leaving)
      order := c.staying ++ [hash] } := by
  have room := paired.room
  have unknown : ¬(c.get? hash).isSome = true := fun known =>
    new (paired.isSome_get?_iff.1 known)
  have front : c.order.length + 1 - c.capacity ≤ c.order.length := by omega
  unfold insert leaving staying excess
  rw [if_neg unknown]
  dsimp only
  rw [evict_entries, evict_order, List.length_append, List.length_singleton,
    List.take_append_of_le_length front, List.drop_append_of_le_length front]

/-- No hash is in the queue twice, so who stays does not also leave. -/
theorem Paired.not_mem_leaving (paired : c.Paired) (stays : hash ∈ c.staying) :
    hash ∉ c.leaving := by
  have distinct := paired.distinct
  rw [← leaving_append_staying, List.nodup_append] at distinct
  exact fun leaves => distinct.2.2 hash leaves hash stays rfl

/-- An insertion keeps queue and verdicts together. -/
theorem Paired.insert (paired : c.Paired) (hash : BlockHash) (valid : Bool) :
    (c.insert hash valid).Paired := by
  by_cases known : hash ∈ c.order
  case pos =>
    rw [paired.insert_of_mem known]
    refine ⟨?_, paired.distinct, paired.room, paired.short⟩
    rw [names_store, if_pos (paired.names.mem_iff.2 known)]
    exact paired.names
  case neg =>
    have room := paired.room
    have part : c.staying.Sublist c.order := List.drop_sublist _ _
    rw [paired.insert_of_not_mem known]
    constructor
    case names =>
      -- of the queue, what does not leave is what stays
      have stay : (c.order ++ [hash]).filter (fun name => decide (name ∉ c.leaving))
          = c.staying ++ [hash] := by
        have fresh : hash ∉ c.leaving := fun leaves => known (List.mem_of_mem_take leaves)
        rw [← c.leaving_append_staying, List.filter_append, List.filter_append,
          List.filter_eq_nil_iff.2 (by simp), List.nil_append,
          List.filter_eq_self.2 fun name stays => by simpa using paired.not_mem_leaving stays,
          List.filter_eq_self.2 (by simpa using fresh)]
      have names : (store hash valid c.entries).map (·.1)
          = c.entries.map (·.1) ++ [hash] := by
        rw [names_store, if_neg fun old => known (paired.names.mem_iff.1 old)]
      have kept := (paired.names.append_right [hash]).filter
        fun name => decide (name ∉ c.leaving)
      rw [stay, ← names, List.filter_map] at kept
      exact kept
    case distinct =>
      rw [List.nodup_append]
      refine ⟨part.nodup paired.distinct, List.nodup_singleton _, ?_⟩
      rintro name stays _ new rfl
      exact known (List.mem_singleton.1 new ▸ part.subset stays)
    case room => exact room
    case short =>
      show (c.staying ++ [hash]).length ≤ c.capacity
      unfold staying excess
      rw [List.length_append, List.length_drop, List.length_singleton]
      omega

/-- What is inserted is there. -/
theorem Paired.mem_order_insert (paired : c.Paired) (hash : BlockHash) (valid : Bool) :
    hash ∈ (c.insert hash valid).order := by
  by_cases known : hash ∈ c.order
  · rw [paired.insert_of_mem known]
    exact known
  · rw [paired.insert_of_not_mem known]
    exact List.mem_append_right _ (List.mem_singleton_self hash)

/-- What was inserted is found, since there is room for it. -/
theorem Paired.get?_insert_self (paired : c.Paired) (hash : BlockHash) (valid : Bool) :
    (c.insert hash valid).get? hash = some valid := by
  obtain ⟨found, here⟩ := Option.isSome_iff_exists.1
    ((paired.insert hash valid).isSome_get?_iff.2 (paired.mem_order_insert hash valid))
  rw [here, eq_of_get?_insert here]

/-- What is not evicted by an insertion is found as before. -/
theorem Paired.get?_insert_of_ne (paired : c.Paired) (apart : other ≠ hash)
    (stays : other ∈ (c.insert hash valid).order) :
    (c.insert hash valid).get? other = c.get? other := by
  unfold get?
  by_cases known : hash ∈ c.order
  · rw [paired.insert_of_mem known, find?_store_of_ne apart]
  · rw [paired.insert_of_not_mem known] at stays ⊢
    have stays : other ∈ c.staying := (List.mem_append.1 stays).resolve_right
      fun same => apart (List.mem_singleton.1 same)
    rw [find?_filter_names, if_neg (paired.not_mem_leaving stays), find?_store_of_ne apart]

/-- Asking inserts or does nothing. -/
theorem Paired.consult (paired : c.Paired) (hash : BlockHash) (verdict : Unit → Bool) :
    (c.consult hash verdict).2.Paired := by
  unfold VerdictCache.consult
  split
  · exact paired
  · exact paired.insert hash _

/-- Who has asked for a verdict knows it. -/
theorem Paired.known_consult (paired : c.Paired) (hash : BlockHash)
    (verdict : Unit → Bool) :
    ((c.consult hash verdict).2.get? hash).isSome = true := by
  unfold VerdictCache.consult
  split
  case h_1 valid known => rw [known, Option.isSome_some]
  case h_2 => rw [paired.get?_insert_self, Option.isSome_some]

-- ================================================================ histories

/-- What a memory is asked for: to remember a verdict, or to tell one, which is
found out where it is not known. -/
inductive Call where
  | insert (hash : BlockHash) (valid : Bool)
  | consult (hash : BlockHash) (verdict : Unit → Bool)

/-- The memory after a call. -/
def call (c : VerdictCache) : Call → VerdictCache
  | .insert hash valid => c.insert hash valid
  | .consult hash verdict => (c.consult hash verdict).2

/-- The verdict that a call writes into this memory. -/
def written? (c : VerdictCache) : Call → Option (BlockHash × Bool)
  | .insert hash valid => some (hash, valid)
  | .consult hash verdict =>
    if (c.get? hash).isSome then none else some (hash, verdict ())

/-- A call that writes a verdict is the insertion of it. -/
theorem call_of_written {asked : Call} (written : c.written? asked = some (hash, valid)) :
    c.call asked = c.insert hash valid := by
  cases asked with
  | insert name verdict =>
    cases written
    rfl
  | consult name verdict =>
    simp only [written?, Option.ite_none_left_eq_some, Option.some.injEq, Prod.mk.injEq]
      at written
    obtain ⟨unknown, rfl, rfl⟩ := written
    show (c.consult name verdict).2 = _
    unfold VerdictCache.consult
    split
    case h_1 known => rw [known] at unknown; exact absurd rfl unknown
    case h_2 => rfl

/-- A call that writes none changes nothing. -/
theorem call_of_unwritten {asked : Call} (unwritten : c.written? asked = none) :
    c.call asked = c := by
  cases asked with
  | insert name verdict => cases unwritten
  | consult name verdict =>
    simp only [written?, ite_eq_left_iff, reduceCtorEq, imp_false, not_not] at unwritten
    exact consult_of_known unwritten verdict

/-- So every call keeps queue and verdicts together. -/
theorem Paired.call (paired : c.Paired) (asked : Call) : (c.call asked).Paired := by
  cases asked with
  | insert name verdict => exact paired.insert name verdict
  | consult name verdict => exact paired.consult name verdict

/-- And no call changes the capacity. -/
theorem capacity_call (c : VerdictCache) (asked : Call) :
    (c.call asked).capacity = c.capacity := by
  cases asked with
  | insert name verdict => exact c.capacity_insert name verdict
  | consult name verdict => exact c.capacity_consult name verdict

/-- A call leaves the queue as it is, or writes a verdict on a new hash, which
becomes the last of it. -/
theorem Paired.order_call (paired : c.Paired) (asked : Call) :
    (c.call asked).order = c.order ∨ ∃ hash valid, c.written? asked = some (hash, valid) ∧
      hash ∉ c.order ∧ (c.call asked).order = c.staying ++ [hash] := by
  match written : c.written? asked with
  | none => exact Or.inl (congrArg order (call_of_unwritten written))
  | some (hash, valid) =>
    rw [call_of_written written]
    by_cases known : hash ∈ c.order
    · rw [paired.insert_of_mem known]
      exact Or.inl rfl
    · exact Or.inr ⟨hash, valid, rfl, known,
        congrArg order (paired.insert_of_not_mem known valid)⟩

/-- What is in the queue after a call, and was not written by it, is found as
before. -/
theorem Paired.get?_call (paired : c.Paired) {asked : Call}
    (member : hash ∈ (c.call asked).order)
    (unwritten : ∀ valid, c.written? asked ≠ some (hash, valid)) :
    (c.call asked).get? hash = c.get? hash := by
  match written : c.written? asked with
  | none => rw [call_of_unwritten written]
  | some (name, verdict) =>
    rw [call_of_written written] at member ⊢
    refine paired.get?_insert_of_ne (fun same => ?_) member
    exact unwritten verdict (same ▸ written)

section History

variable (capacity : Nat) (calls : Nat → Call)

/-- The memory before a call of this number: at first a new one. -/
def before : Nat → VerdictCache
  | 0 => empty capacity
  | time + 1 => (before time).call (calls time)

/-- The call of this number writes this verdict. -/
def Writes (time : Nat) (hash : BlockHash) (valid : Bool) : Prop :=
  (before capacity calls time).written? (calls time) = some (hash, valid)

/-- The call of this number evicts a hash: it was there or was written by the
call itself, and is not there after it. -/
def Evicts (time : Nat) (hash : BlockHash) : Prop :=
  (hash ∈ (before capacity calls time).order ∨ ∃ valid, Writes capacity calls time hash valid)
    ∧ hash ∉ (before capacity calls (time + 1)).order

/-- A hash came in with the call of number `time`, and has not been evicted
since. -/
structure Entered (now : Nat) (hash : BlockHash) (time : Nat) : Prop where
  past : time < now
  absent : hash ∉ (before capacity calls time).order
  arrives : hash ∈ (before capacity calls (time + 1)).order
  stays : ∀ later, time < later → later < now → ¬Evicts capacity calls later hash

/-- The call of number `time` was the last to write a verdict on a hash. It wrote
this one, and the hash has not been evicted since. -/
structure Stands (now : Nat) (hash : BlockHash) (valid : Bool) (time : Nat) : Prop where
  past : time < now
  writes : Writes capacity calls time hash valid
  last : ∀ later another, time < later → later < now →
    ¬Writes capacity calls later hash another
  stays : ∀ later, time ≤ later → later < now → ¬Evicts capacity calls later hash

/-- A queue of bounded length, first in and first out, and a map of what was
written last. -/
structure Fifo (now : Nat) : Prop where
  /-- The queue and the verdicts are about the same hashes. -/
  names : ((before capacity calls now).entries.map (·.1)).Perm (before capacity calls now).order
  distinct : (before capacity calls now).order.Nodup
  short : (before capacity calls now).order.length ≤ max capacity 1
  /-- Hashes stand in the queue by the time at which each came in. -/
  aged : ∃ times : List Nat, times.Pairwise (· < ·) ∧
    List.Forall₂ (Entered capacity calls now) (before capacity calls now).order times
  /-- What is found under a hash is what was written last, unless it was evicted
  after that. -/
  recalls : ∀ hash valid, (before capacity calls now).get? hash = some valid ↔
    ∃ time, Stands capacity calls now hash valid time
  /-- Of a full queue, a new hash evicts the oldest one, and nothing else. -/
  yields : ∀ hash valid, hash ∉ (before capacity calls now).order →
    Writes capacity calls now hash valid →
    (before capacity calls (now + 1)).order
        = (if (before capacity calls now).order.length < max capacity 1
            then (before capacity calls now).order
            else (before capacity calls now).order.tail) ++ [hash]
      ∧ (before capacity calls (now + 1)).get? hash = some valid
      ∧ ∀ gone, Evicts capacity calls now gone →
          (before capacity calls now).order.head? = some gone

/-- Queue and verdicts belong together at every moment of a history. -/
theorem paired_before (now : Nat) : (before capacity calls now).Paired := by
  induction now with
  | zero => exact paired_empty capacity
  | succ now ih => exact ih.call _

/-- The capacity is at any time what it was made with, or one. -/
theorem capacity_before (now : Nat) :
    (before capacity calls now).capacity = max capacity 1 := by
  induction now with
  | zero => rfl
  | succ now ih => rw [before, capacity_call, ih]

variable {capacity calls} {now time : Nat}

/-- A hash that is in the queue was not evicted just now. -/
theorem not_evicts_of_mem (member : hash ∈ (before capacity calls (now + 1)).order) :
    ¬Evicts capacity calls now hash := fun evicted => evicted.2 member

/-- What was not evicted before, and is in the queue now, was not evicted. -/
theorem not_evicts_next {first : Nat}
    (stays : ∀ later, first ≤ later → later < now → ¬Evicts capacity calls later hash)
    (member : hash ∈ (before capacity calls (now + 1)).order) :
    ∀ later, first ≤ later → later < now + 1 → ¬Evicts capacity calls later hash := by
  intro later after soon
  rcases Nat.lt_succ_iff_lt_or_eq.1 soon with sooner | rfl
  · exact stays later after sooner
  · exact not_evicts_of_mem member

/-- A hash that is still in the queue came in when it did. -/
theorem Entered.next (entered : Entered capacity calls now hash time)
    (member : hash ∈ (before capacity calls (now + 1)).order) :
    Entered capacity calls (now + 1) hash time where
  past := Nat.lt_succ_of_lt entered.past
  absent := entered.absent
  arrives := entered.arrives
  stays := not_evicts_next entered.stays member

/-- A hash that was not in the queue and is now came in now. -/
theorem Entered.new (absent : hash ∉ (before capacity calls now).order)
    (member : hash ∈ (before capacity calls (now + 1)).order) :
    Entered capacity calls (now + 1) hash now :=
  ⟨Nat.lt_succ_self now, absent, member, fun _ after soon => by omega⟩

/-- A verdict stands on, if it is not written over and its hash stays. -/
theorem Stands.next (stands : Stands capacity calls now hash valid time)
    (unwritten : ∀ another, ¬Writes capacity calls now hash another)
    (member : hash ∈ (before capacity calls (now + 1)).order) :
    Stands capacity calls (now + 1) hash valid time where
  past := Nat.lt_succ_of_lt stands.past
  writes := stands.writes
  last later another after soon := by
    rcases Nat.lt_succ_iff_lt_or_eq.1 soon with sooner | rfl
    · exact stands.last later another after sooner
    · exact unwritten another
  stays := not_evicts_next stands.stays member

/-- A verdict that is written now stands, if its hash stays. -/
theorem Stands.new (writes : Writes capacity calls now hash valid)
    (member : hash ∈ (before capacity calls (now + 1)).order) :
    Stands capacity calls (now + 1) hash valid now where
  past := Nat.lt_succ_self now
  writes := writes
  last later another after soon := by omega
  stays later after soon := by
    obtain rfl : later = now := by omega
    exact not_evicts_of_mem member

/-- A standing verdict is one that is written now, or one that stood before. -/
theorem Stands.new_or_old (stands : Stands capacity calls (now + 1) hash valid time) :
    Writes capacity calls now hash valid ∨
      Stands capacity calls now hash valid time ∧
        ∀ another, ¬Writes capacity calls now hash another := by
  rcases Nat.lt_succ_iff_lt_or_eq.1 stands.past with past | rfl
  · refine Or.inr ⟨⟨past, stands.writes, ?_, ?_⟩, ?_⟩
    · exact fun later another after soon =>
        stands.last later another after (Nat.lt_succ_of_lt soon)
    · exact fun later after soon => stands.stays later after (Nat.lt_succ_of_lt soon)
    · exact fun another => stands.last now another past (Nat.lt_succ_self now)
  · exact Or.inl stands.writes

/-- What is found is what was written last, if it was not evicted since. -/
theorem get?_before_iff (now : Nat) (hash : BlockHash) (valid : Bool) :
    (before capacity calls now).get? hash = some valid ↔
      ∃ time, Stands capacity calls now hash valid time := by
  have paired := paired_before capacity calls
  -- what is in the queue either stays there or is evicted
  induction now generalizing valid with
  | zero =>
    constructor
    · intro found
      cases found
    · rintro ⟨time, stands⟩
      exact absurd stands.past (Nat.not_lt_zero time)
  | succ now ih =>
    constructor
    · intro found
      have member := (paired (now + 1)).mem_of_get? found
      by_cases writes : ∃ another, Writes capacity calls now hash another
      -- written now: what was found before is of no account
      case pos =>
        obtain ⟨another, writes⟩ := writes
        rw [before, call_of_written writes, (paired now).get?_insert_self] at found
        cases found
        exact ⟨now, .new writes member⟩
      -- not written now: found before, and the history goes on
      case neg =>
        have unwritten := not_exists.1 writes
        rw [before, (paired now).get?_call member unwritten] at found
        obtain ⟨time, stands⟩ := (ih valid).1 found
        exact ⟨time, stands.next unwritten member⟩
    · rintro ⟨time, stands⟩
      have kept := stands.stays now (Nat.lt_succ_iff.1 stands.past) (Nat.lt_succ_self now)
      rcases stands.new_or_old with writes | ⟨old, unwritten⟩
      · rw [before, call_of_written writes, (paired now).get?_insert_self]
      · have found := (ih valid).2 ⟨time, old⟩
        have known := (paired now).mem_of_get? found
        have member : hash ∈ (before capacity calls (now + 1)).order :=
          not_not.1 fun gone => kept ⟨Or.inl known, gone⟩
        rw [before, (paired now).get?_call member unwritten, found]

/-- Whoever stays in the queue keeps its time. -/
theorem Entered.forall₂_next {part : List BlockHash} {times : List Nat}
    (entered : List.Forall₂ (Entered capacity calls now) part times)
    (stay : ∀ hash ∈ part, hash ∈ (before capacity calls (now + 1)).order) :
    List.Forall₂ (Entered capacity calls (now + 1)) part times := by
  induction entered with
  | nil => exact .nil
  | cons first _ ih =>
    exact .cons (first.next (stay _ List.mem_cons_self))
      (ih fun hash inside => stay hash (List.mem_cons_of_mem _ inside))

/-- Those that stay are in the order of their times, and a new hash comes later
than all of them. -/
theorem exists_times_before (now : Nat) : ∃ times : List Nat,
    times.Pairwise (· < ·) ∧ (∀ time ∈ times, time < now) ∧
      List.Forall₂ (Entered capacity calls now) (before capacity calls now).order times := by
  induction now with
  | zero => exact ⟨[], .nil, fun _ => nofun, .nil⟩
  | succ now ih =>
    obtain ⟨times, ascending, past, entered⟩ := ih
    have paired := paired_before capacity calls now
    rcases paired.order_call (calls now) with same | ⟨hash, valid, -, fresh, joined⟩
    case inl =>
      have still : (before capacity calls (now + 1)).order
          = (before capacity calls now).order := same
      refine ⟨times, ascending, fun time inside => Nat.lt_succ_of_lt (past time inside), ?_⟩
      rw [still]
      exact Entered.forall₂_next entered fun hash inside => still ▸ inside
    case inr =>
      have joined : (before capacity calls (now + 1)).order
          = (before capacity calls now).staying ++ [hash] := joined
      have kept := List.forall₂_drop (before capacity calls now).excess entered
      -- those that make room are the front of the queue, so their times go first
      refine ⟨times.drop (before capacity calls now).excess ++ [now], ?_, ?_, ?_⟩
      · rw [List.pairwise_append]
        refine ⟨ascending.sublist (List.drop_sublist _ _), List.pairwise_singleton _ _, ?_⟩
        intro time inside last new
        rw [List.mem_singleton.1 new]
        exact past time (List.mem_of_mem_drop inside)
      · intro time inside
        rcases List.mem_append.1 inside with old | new
        · exact Nat.lt_succ_of_lt (past time (List.mem_of_mem_drop old))
        · exact List.mem_singleton.1 new ▸ Nat.lt_succ_self now
      · have stay : ∀ name ∈ (before capacity calls now).staying ++ [hash],
            name ∈ (before capacity calls (now + 1)).order := fun name inside => joined ▸ inside
        rw [joined]
        refine List.rel_append (Entered.forall₂_next kept fun name inside => ?_) (.cons ?_ .nil)
        -- the old hashes keep their times, and the new one came now
        · exact stay name (List.mem_append_left _ inside)
        · exact .new fresh (stay hash (List.mem_append_right _ (List.mem_singleton_self hash)))

/-- The queue is bounded, first in and first out, and the verdicts beside it are
those written last. -/
theorem bounded_fifo (capacity : Nat) (calls : Nat → Call) (now : Nat) :
    Fifo capacity calls now where
  names := (paired_before capacity calls now).names
  distinct := (paired_before capacity calls now).distinct
  short := capacity_before capacity calls now ▸ (paired_before capacity calls now).short
  aged := by
    obtain ⟨times, ascending, -, entered⟩ := @exists_times_before capacity calls now
    exact ⟨times, ascending, entered⟩
  recalls := get?_before_iff now
  yields hash valid fresh writes := by
    have paired := paired_before capacity calls now
    have next : before capacity calls (now + 1)
        = (before capacity calls now).insert hash valid := call_of_written writes
    have joined : (before capacity calls (now + 1)).order
        = (before capacity calls now).staying ++ [hash] :=
      next ▸ congrArg order (paired.insert_of_not_mem fresh valid)
    refine ⟨?_, next ▸ paired.get?_insert_self hash valid, ?_⟩
    · rw [joined, paired.staying_eq, capacity_before]
    · rintro gone ⟨was, left⟩
      -- the hash that went was in the queue before: the call wrote only the new one
      rw [joined, List.mem_append, List.mem_singleton, not_or] at left
      have old : gone ∈ (before capacity calls now).order := by
        refine was.resolve_right fun ⟨another, written⟩ => left.2 ?_
        cases writes.symm.trans written
        rfl
      rw [← leaving_append_staying, List.mem_append] at old
      exact paired.head?_of_leaving (old.resolve_right left.1)

end History

end Quorum.VerdictCache
