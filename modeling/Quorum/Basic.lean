/-
The vocabulary of agreement: heights, rounds, powers, clock readings,
the names of validators and blocks, the two kinds of vote and the five
steps of a round.

Heights, powers and rounds are machine words because they travel as
such. Powers are only ever added with saturation, so a sum can be too
small but never wraps to something small.
-/
import Quorum.Text.Base58

namespace Quorum

-- ============================================================ numbers

/-- The position a block takes in the chain, from 1. -/
abbrev Height := UInt64

/-- An attempt at deciding one height, from 0. -/
abbrev Round := UInt32

/-- The weight of a validator's vote, and sums of such weights. -/
abbrev Power := UInt64

/-- A clock reading or a delay in milliseconds. -/
abbrev Millis := Int64

/-- Add two words, stopping at the largest one. -/
def satAdd (a b : UInt64) : UInt64 :=
  if a.toNat + b.toNat < UInt64.size then a + b else UInt64.ofNat (UInt64.size - 1)

/-- Multiply two words, stopping at the largest one. -/
def satMul (a b : UInt64) : UInt64 :=
  if a.toNat * b.toNat < UInt64.size then a * b else UInt64.ofNat (UInt64.size - 1)

/-- What saturation means in plain numbers. -/
theorem toNat_satAdd (a b : UInt64) :
    (satAdd a b).toNat = min (a.toNat + b.toNat) (UInt64.size - 1) := by
  unfold satAdd
  split
  · rename_i h
    rw [UInt64.toNat_add, Nat.mod_eq_of_lt h]
    omega
  · rename_i h
    have largest : (UInt64.ofNat (UInt64.size - 1)).toNat = UInt64.size - 1 := by decide
    rw [largest]
    omega

/-- Nothing added to a word is that word, so sums can start at zero. -/
theorem zero_satAdd (a : UInt64) : satAdd 0 a = a := by
  rw [← UInt64.toNat_inj, toNat_satAdd, UInt64.toNat_zero, Nat.zero_add]
  exact Nat.min_eq_left (Nat.le_sub_one_of_lt a.toNat_lt)

/-- Adding makes no word smaller. -/
theorem le_satAdd (a b : UInt64) : a.toNat ≤ (satAdd a b).toNat := by
  have small : a.toNat < UInt64.size := a.toNat_lt
  rw [toNat_satAdd]
  omega

/-- A word in decimal digits, as texts show heights and powers. -/
def decimal (n : UInt64) : String := toString n.toNat

/-- A round in decimal digits. -/
def roundText (r : Round) : String := toString r.toNat

-- ============================================================== names

/-- A validator is named by its 32-byte verifying key. -/
structure Address where
  octets : Octets 32
deriving DecidableEq

/-- The key's bytes, as signing and encoding take them. -/
abbrev Address.bytes (a : Address) : Bytes := a.octets.bytes

/-- Addresses are ordered byte by byte. -/
instance : Ord Address := ⟨fun a b => compare a.octets b.octets⟩

/-- All zeros, where some address is asked for. -/
instance : Inhabited Address := ⟨⟨Octets.replicate 32 0⟩⟩

/-- The whole key in base 58. -/
def Address.text (a : Address) : String := Base58.encode a.bytes

/-- The first letters of the text, enough to tell validators apart. -/
def Address.short (a : Address) : String := "Address(" ++ (a.text.take 8).toString ++ ")"

/-- A block is named by the 32-byte digest of its layout. -/
structure BlockHash where
  octets : Octets 32
deriving DecidableEq

/-- The digest's bytes, as encoding takes them. -/
abbrev BlockHash.bytes (h : BlockHash) : Bytes := h.octets.bytes

/-- The all-zero hash stands for no block at all. -/
def BlockHash.nil : BlockHash := ⟨Octets.replicate 32 0⟩

/-- A hash that is not given is that of no block. -/
instance : Inhabited BlockHash := ⟨BlockHash.nil⟩

/-- Whether a hash stands for no block. -/
def BlockHash.isNil (h : BlockHash) : Bool := h == BlockHash.nil

/-- Base-58 text, and a word of its own for no block. -/
def BlockHash.text (h : BlockHash) : String :=
  if h.isNil then "nil" else Base58.encode h.bytes

/-- The first letters of the text, enough to tell blocks apart. -/
def BlockHash.short (h : BlockHash) : String := "BlockHash(" ++ (h.text.take 8).toString ++ ")"

-- ==================================================== votes and steps

/-- What a vote says. A null vote says nothing: it only fills the place
of an absent validator in a certificate. -/
inductive VoteKind where
  | null
  | prevote
  | precommit
deriving DecidableEq

instance : Inhabited VoteKind := ⟨VoteKind.null⟩

/-- The kind as texts call it. -/
def VoteKind.text : VoteKind → String
  | .null => "null"
  | .prevote => "prevote"
  | .precommit => "precommit"

/-- The phases of a round, and the rest before the first one. -/
inductive Step where
  | idle
  | propose
  | prevote
  | precommit
  | endCommit
deriving DecidableEq

/-- A machine rests until it is started. -/
instance : Inhabited Step := ⟨Step.idle⟩

/-- Steps follow one another; inside a round only forward. -/
def Step.index : Step → Nat
  | .idle => 0
  | .propose => 1
  | .prevote => 2
  | .precommit => 3
  | .endCommit => 4

instance : Ord Step := ⟨fun a b => compare a.index b.index⟩

instance : LE Step := ⟨fun a b => a.index ≤ b.index⟩

instance : LT Step := ⟨fun a b => a.index < b.index⟩

instance (a b : Step) : Decidable (a ≤ b) := inferInstanceAs (Decidable (a.index ≤ b.index))

instance (a b : Step) : Decidable (a < b) := inferInstanceAs (Decidable (a.index < b.index))

/-- The step as texts call it; rest has the name of a default. -/
def Step.text : Step → String
  | .idle => "default"
  | .propose => "propose"
  | .prevote => "prevote"
  | .precommit => "precommit"
  | .endCommit => "endcommit"

end Quorum
