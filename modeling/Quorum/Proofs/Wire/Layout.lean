/-
Which values a layout restores.

A layout restores a value if its reader takes the value's bytes back from
the front of any string, and leaves what comes behind. Two values that are
restored are told apart by their bytes even when more bytes follow
(`Layout.append_inj`), so a statement about the bytes of a value put
together from parts is one about its parts.

The parts below are restored without a condition.
-/
import Quorum.Wire.Layout

namespace Quorum.Wire.Layout

variable {α β : Type}

/-- The reader takes this value back, whatever follows it. -/
def Restores (f : Layout α) (a : α) : Prop :=
  ∀ rest, f.read (f.write a ++ rest) = .ok (a, rest)

/-- Equal strings begin with the same value and end the same. -/
theorem append_inj {f : Layout α} {a b : α} (ha : f.Restores a)
    (hb : f.Restores b) {rest rest' : Bytes}
    (same : f.write a ++ rest = f.write b ++ rest') :
    a = b ∧ rest = rest' := by
  have read := ha rest
  rw [same, hb rest', Except.ok.injEq, Prod.mk.injEq] at read
  exact ⟨read.1.symm, read.2.symm⟩

/-- What is restored can be made into something else. -/
theorem Restores.map {f : Layout α} {a : α} (h : f.Restores a) (make : α → β) (rest : Bytes) :
    Reader.map make f.read (f.write a ++ rest) = .ok (make a, rest) := by
  unfold Reader.map
  rw [h rest]

-- =============================================================== parts

/-- What was carried over from another type is restored, if nothing was lost on the
way there. -/
theorem restores_map {f : Layout α} {make : α → β} {back : β → α} {b : β}
    (h : f.Restores (back b)) (inverse : make (back b) = b) :
    (f.map make back).Restores b := by
  intro rest
  show Reader.map make f.read (f.write (back b) ++ rest) = _
  rw [h.map, inverse]

/-- A pair is restored part by part: the first reader leaves the second its bytes in
front. -/
theorem restores_pair {f : Layout α} {g : Layout β} {a : α} {b : β}
    (ha : f.Restores a) (hb : g.Restores b) : (f.pair g).Restores (a, b) := by
  intro rest
  unfold pair
  dsimp only
  rw [List.append_assoc, ha]
  dsimp only
  rw [hb]

/-- Where the type says how many bytes there are, no count is needed to cut them
off. -/
theorem restores_octets {n : Nat} (o : Octets n) : (octets n).Restores o := by
  intro rest
  have cut : Octets.cut? n (o.bytes ++ rest) = some (o, rest) := by
    obtain ⟨bytes, rfl⟩ := o
    unfold Octets.cut?
    rw [dif_pos (by rw [List.take_left])]
    simp
  unfold octets
  dsimp only
  rw [cut]

/-- Four bytes spell any word of 32 bits. -/
theorem ofLittleEndian_u32 (w : UInt32) :
    UInt32.ofNat (ofLittleEndian (littleEndian 4 w.toNat)) = w := by
  rw [ofLittleEndian_littleEndian w.toNat_lt]
  exact UInt32.ofNat_toNat

/-- Eight bytes spell any word of 64 bits. -/
theorem ofLittleEndian_u64 (w : UInt64) :
    UInt64.ofNat (ofLittleEndian (littleEndian 8 w.toNat)) = w := by
  rw [ofLittleEndian_littleEndian w.toNat_lt]
  exact UInt64.ofNat_toNat

/-- Words are restored, being bytes with another name. -/
theorem restores_u32 (w : UInt32) : u32.Restores w :=
  restores_map (restores_octets _) (ofLittleEndian_u32 w)

theorem restores_u64 (w : UInt64) : u64.Restores w :=
  restores_map (restores_octets _) (ofLittleEndian_u64 w)

/-- The sign is one of the bits, so a signed word loses nothing. -/
theorem restores_i64 (w : Int64) : i64.Restores w :=
  restores_map (restores_u64 _) (Int64.toInt64_toUInt64 w)

theorem restores_address (a : Address) : address.Restores a :=
  restores_map (restores_octets _) rfl

/-- Names of blocks and validators are raw bytes. -/
theorem restores_blockHash (h : BlockHash) : blockHash.Restores h :=
  restores_map (restores_octets _) rfl

-- ============================================================= lengths

/-- Four bytes, whatever the word. -/
theorem length_u32 (w : UInt32) : (u32.write w).length = 4 :=
  length_littleEndian 4 _

/-- Eight bytes, whatever the word. -/
theorem length_u64 (w : UInt64) : (u64.write w).length = 8 :=
  length_littleEndian 8 _

end Quorum.Wire.Layout
