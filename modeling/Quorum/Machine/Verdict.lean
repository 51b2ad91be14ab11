/-
A bounded memory of which blocks passed validation.

Verdicts are found by hash, and a queue beside them holds the hashes in the
order they came in. A new hash goes to the end of the queue; what is beyond
the capacity then leaves it at the front and is forgotten. A verdict for a
hash already there is overwritten, and the queue stays as it is. Forgetting
costs only a second validation.

Queue and verdicts are changed one after the other. That they never drift
apart is for the theory to show.
-/
import Quorum.Basic

namespace Quorum

/-- Verdicts by hash, and the hashes by age. -/
structure VerdictCache where
  capacity : Nat
  /-- The verdict on each hash; their order is of no account. -/
  entries : List (BlockHash × Bool)
  /-- The hashes, oldest first. -/
  order : List BlockHash
deriving DecidableEq

namespace VerdictCache

/-- An empty cache; there is always room for one verdict. -/
def empty (capacity : Nat) : VerdictCache := ⟨max capacity 1, [], []⟩

/-- The verdict remembered on a hash. -/
def get? (c : VerdictCache) (hash : BlockHash) : Option Bool :=
  (c.entries.find? (fun entry => entry.1 == hash)).map (·.2)

/-- Put a verdict under a hash, over the one that was there. -/
def store (hash : BlockHash) (valid : Bool) :
    List (BlockHash × Bool) → List (BlockHash × Bool)
  | [] => [(hash, valid)]
  | entry :: entries =>
    if entry.1 = hash then (hash, valid) :: entries else entry :: store hash valid entries

/-- Forget the verdict on a hash. -/
def forget (hash : BlockHash) (entries : List (BlockHash × Bool)) :
    List (BlockHash × Bool) :=
  entries.filter (fun entry => entry.1 != hash)

/-- Take the oldest hash out of the queue and forget its verdict, until no
more than `capacity` are left. -/
def evict (capacity : Nat) :
    List (BlockHash × Bool) → List BlockHash → List (BlockHash × Bool) × List BlockHash
  | entries, [] => (entries, [])
  | entries, oldest :: order =>
    if capacity < (oldest :: order).length then evict capacity (forget oldest entries) order
    else (entries, oldest :: order)

/-- Remember a verdict. Only a hash that is new takes a place in the queue and can
drive out others. -/
def insert (c : VerdictCache) (hash : BlockHash) (valid : Bool) : VerdictCache :=
  let entries := store hash valid c.entries
  if (c.get? hash).isSome then { c with entries := entries }
  else
    let kept := evict c.capacity entries (c.order ++ [hash])
    { c with entries := kept.1, order := kept.2 }

/-- The verdict remembered, or else this one, which is remembered from
now on. -/
def consult (c : VerdictCache) (hash : BlockHash) (verdict : Unit → Bool) :
    Bool × VerdictCache :=
  match c.get? hash with
  | some valid => (valid, c)
  | none =>
    let valid := verdict ()
    (valid, c.insert hash valid)

/-- How many verdicts are remembered. -/
def size (c : VerdictCache) : Nat := c.entries.length

end VerdictCache

end Quorum
