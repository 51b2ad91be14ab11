/-
Layouts that give each value one byte string.

`Layout.Restores` is one half of a faithful format: what was written is
read back. The other half is that nothing else is read: if a reader takes
a value from the front of a string, then the string starts with exactly
the bytes that the writer makes of that value. A layout is `Exact` on the
values that fit it if both halves hold, and if a string that ends inside
a written value is reported as too short and never taken for another
value.

Only counted lists restrict what fits: a count has four bytes, so a list
of `UInt32.size` items or more is written with a count that wrapped
around. What is read fits always, since its own count said how many items
to read.

Exactness is closed under the parts that layouts are put together from,
so a format of the domain is exact because its parts are. Of a whole
string it gives `Canonical`: decoding and encoding undo each other, and
every byte too many, too few or different is refused.
-/
import Quorum.Proofs.Wire.Layout

namespace Quorum.Wire.Layout

variable {α β : Type}

/-- Every value that fits is read back, only its own bytes are read as it,
and a string that ends inside them is too short. -/
structure Exact (f : Layout α) (Fits : α → Prop) : Prop where
  restores : ∀ {a}, Fits a → f.Restores a
  spelled : ∀ {bs a rest}, f.read bs = .ok (a, rest) → bs = f.write a ++ rest ∧ Fits a
  early : ∀ {a}, Fits a → ∀ {front gap}, gap ≠ [] → front ++ gap = f.write a →
    f.read front = .error .endOfInput

/-- A whole byte string is one value's, or it is refused. -/
structure Canonical (f : Layout α) (Fits : α → Prop) : Prop where
  decode_encode : ∀ a, Fits a → f.decode (f.encode a) = .ok a
  encode_decode : ∀ bs a, f.decode bs = .ok a → f.encode a = bs ∧ Fits a
  /-- No value has a second spelling. -/
  decode_inj : ∀ bs bs' a, f.decode bs = .ok a → f.decode bs' = .ok a → bs = bs'
  /-- What no fitting value spells is refused. -/
  refused : ∀ bs, (∀ a, Fits a → f.encode a ≠ bs) → ∃ fault, f.decode bs = .error fault
  trailing : ∀ a extra, Fits a → extra ≠ [] → f.decode (f.encode a ++ extra) = .error .leftover
  missing : ∀ a front gap, Fits a → gap ≠ [] → front ++ gap = f.encode a →
    f.decode front = .error .endOfInput

-- ======================================================= whole strings

/-- Decoding succeeds where the reader leaves nothing behind. -/
theorem decode_of_read {f : Layout α} {bs : Bytes} {a : α}
    (h : f.read bs = .ok (a, [])) : f.decode bs = .ok a := by
  unfold decode
  rw [h]

/-- Decoding succeeds only on a value with nothing behind it. -/
theorem read_of_decode {f : Layout α} {bs : Bytes} {a : α} (h : f.decode bs = .ok a) :
    f.read bs = .ok (a, []) := by
  unfold decode at h
  split at h
  case h_1 => cases h
  case h_2 b read =>
    cases h
    exact read
  case h_3 => cases h

/-- Of whole strings, exactness says all that a format can promise. -/
theorem Exact.canonical {f : Layout α} {Fits : α → Prop} (h : f.Exact Fits) :
    f.Canonical Fits := by
  have encode_decode : ∀ bs a, f.decode bs = .ok a → f.encode a = bs ∧ Fits a := by
    intro bs a decoded
    obtain ⟨spelled, fits⟩ := h.spelled (read_of_decode decoded)
    rw [List.append_nil] at spelled
    exact ⟨spelled.symm, fits⟩
  constructor
  case decode_encode =>
    intro a fits
    have read := h.restores fits []
    rw [List.append_nil] at read
    exact decode_of_read read
  case encode_decode => exact encode_decode
  case decode_inj =>
    intro bs bs' a decoded decoded'
    rw [← (encode_decode bs a decoded).1, ← (encode_decode bs' a decoded').1]
  case refused =>
    intro bs unspelled
    cases decoded : f.decode bs with
    | error fault => exact ⟨fault, rfl⟩
    | ok a =>
      obtain ⟨spelled, fits⟩ := encode_decode bs a decoded
      exact absurd spelled (unspelled a fits)
  case trailing =>
    intro a extra fits more
    obtain ⟨b, extra, rfl⟩ := List.exists_cons_of_ne_nil more
    unfold decode encode
    rw [h.restores fits]
  case missing =>
    intro a front gap fits short whole
    unfold decode
    rw [h.early fits short whole]

-- ================================================= putting parts together

/-- What ends too early ends inside the first part, or behind it and
inside the second. -/
theorem ends_early {front gap xs ys : Bytes} (whole : front ++ gap = xs ++ ys) :
    (∃ missing, missing ≠ [] ∧ front ++ missing = xs)
      ∨ ∃ tail, front = xs ++ tail ∧ tail ++ gap = ys := by
  rcases List.append_eq_append_iff.1 whole with ⟨missing, first, behind⟩ | ⟨tail, first, behind⟩
  · by_cases none : missing = []
    · subst none
      refine Or.inr ⟨[], ?_, ?_⟩
      · rw [first, List.append_nil, List.append_nil]
      · exact behind
    · exact Or.inl ⟨missing, none, first.symm⟩
  · exact Or.inr ⟨tail, first, behind.symm⟩

/-- What was read and made into something else was read. -/
theorem of_read_map {make : α → β} {read : Reader α} {bs rest : Bytes} {b : β}
    (h : Reader.map make read bs = .ok (b, rest)) :
    ∃ a, make a = b ∧ read bs = .ok (a, rest) := by
  unfold Reader.map at h
  split at h
  case h_1 => cases h
  case h_2 a rest' inner =>
    cases h
    exact ⟨a, rfl, inner⟩

/-- What cannot be read cannot be made into anything. -/
theorem read_map_error {make : α → β} {read : Reader α} {bs : Bytes} {fault : Malformed}
    (h : read bs = .error fault) : Reader.map make read bs = .error fault := by
  unfold Reader.map
  rw [h]

/-- The values that fit, said in another way. -/
theorem Exact.of_iff {f : Layout α} {Fits Fits' : α → Prop} (h : f.Exact Fits)
    (same : ∀ a, Fits' a ↔ Fits a) : f.Exact Fits' := by
  rw [show Fits' = Fits from funext fun a => propext (same a)]
  exact h

/-- Carry exactness along a bijection. -/
theorem Exact.map {f : Layout α} {Fits : α → Prop} (h : f.Exact Fits) {make : α → β}
    {back : β → α} {Fits' : β → Prop} (fits_iff : ∀ b, Fits' b ↔ Fits (back b))
    (make_back : ∀ b, make (back b) = b) (back_make : ∀ a, back (make a) = a) :
    (f.map make back).Exact Fits' := by
  constructor
  case restores =>
    intro b fits
    exact restores_map (h.restores ((fits_iff b).1 fits)) (make_back b)
  case spelled =>
    intro bs b rest read
    obtain ⟨a, rfl, inner⟩ := of_read_map read
    show bs = f.write (back (make a)) ++ _ ∧ _
    rw [fits_iff, back_make]
    exact h.spelled inner
  case early =>
    intro b fits front gap short whole
    exact read_map_error (h.early ((fits_iff b).1 fits) short whole)

/-- A pair is exact part by part. -/
theorem Exact.pair {f : Layout α} {g : Layout β} {F : α → Prop} {G : β → Prop}
    (hf : f.Exact F) (hg : g.Exact G) : (f.pair g).Exact (fun p => F p.1 ∧ G p.2) := by
  constructor
  case restores =>
    rintro ⟨a, b⟩ ⟨fa, fb⟩
    exact restores_pair (hf.restores fa) (hg.restores fb)
  case spelled =>
    rintro bs ⟨a, b⟩ rest read
    unfold Layout.pair at read ⊢
    dsimp only at read ⊢
    split at read
    case h_1 => cases read
    case h_2 a' behind first =>
      split at read
      case h_1 => cases read
      case h_2 b' rest' second =>
        cases read
        obtain ⟨rfl, fa⟩ := hf.spelled first
        obtain ⟨rfl, fb⟩ := hg.spelled second
        exact ⟨(List.append_assoc _ _ _).symm, fa, fb⟩
  case early =>
    rintro ⟨a, b⟩ ⟨fa, fb⟩ front gap short whole
    unfold Layout.pair
    dsimp only
    -- too early for the first part, or for the second
    rcases ends_early whole with ⟨missing, some, first⟩ | ⟨tail, rfl, second⟩
    · rw [hf.early fa some first]
    · rw [hf.restores fa]
      dsimp only
      rw [hg.early fb short second]

/-- An option is exact as its value is, behind the byte that says whether there is
one. -/
theorem Exact.option {f : Layout α} {F : α → Prop} (h : f.Exact F) :
    f.option.Exact (fun o => ∀ a ∈ o, F a) := by
  constructor
  case restores =>
    rintro (_ | a) fits rest
    · rfl
    · unfold Layout.option
      dsimp only [List.cons_append]
      rw [if_neg (by decide), if_pos rfl, h.restores (fits a rfl)]
  case spelled =>
    rintro bs o rest read
    cases bs with
    | nil => cases read
    | cons b bs =>
      unfold Layout.option at read ⊢
      dsimp only at read ⊢
      -- no other byte than 0 or 1 is taken for an option
      split at read
      case isTrue none =>
        cases read
        subst none
        exact ⟨rfl, fun _ absent => nomatch absent⟩
      case isFalse =>
        split at read
        case isTrue some =>
          split at read
          case h_1 => cases read
          case h_2 a rest' inner =>
            cases read
            obtain ⟨rfl, fits⟩ := h.spelled inner
            subst some
            refine ⟨rfl, ?_⟩
            intro b mem
            cases mem
            exact fits
        case isFalse => cases read
  case early =>
    intro o fits front gap short whole
    cases front with
    | nil => rfl
    | cons b front =>
      cases o with
      | none =>
        -- one byte was written, so nothing can be missing behind it
        obtain ⟨_, none⟩ := List.cons.inj whole
        exact absurd (List.append_eq_nil_iff.1 none).2 short
      | some a =>
        obtain ⟨rfl, inner⟩ := List.cons.inj whole
        unfold Layout.option
        dsimp only
        rw [if_neg (by decide), if_pos rfl, h.early (fits a rfl) short inner]

-- =============================================================== parts

/-- All strings of a fixed length fit, and none that is shorter is read. -/
theorem exact_octets (n : Nat) : (octets n).Exact (fun _ => True) := by
  constructor
  case restores => exact fun _ => restores_octets _
  case spelled =>
    intro bs o rest read
    unfold octets Octets.cut? at read
    dsimp only at read
    split at read
    case h_1 => cases read
    case h_2 cut found =>
      cases read
      split at found
      case isTrue =>
        cases found
        exact ⟨(List.take_append_drop n bs).symm, trivial⟩
      case isFalse => cases found
  case early =>
    intro o _ front gap short whole
    have shorter : front.length < n := by
      have lengths := congrArg List.length whole
      rw [List.length_append] at lengths
      have some := List.length_pos_iff.2 short
      have all : ((octets n).write o).length = n := o.length_eq
      omega
    unfold octets Octets.cut?
    dsimp only
    rw [dif_neg (by rw [List.length_take]; omega)]

/-- A layout of one byte each is exact if the reader takes back what was
written and takes one byte for what is written with it. -/
theorem exact_of_byte {f : Layout α} (one : ∀ a, (f.write a).length = 1)
    (none : f.read [] = .error .endOfInput) (restores : ∀ a, f.Restores a)
    (spelled : ∀ {b bs a rest}, f.read (b :: bs) = .ok (a, rest) →
      f.write a = [b] ∧ bs = rest) : f.Exact (fun _ => True) := by
  constructor
  case restores => exact fun _ => restores _
  case spelled =>
    intro bs a rest read
    cases bs with
    | nil => rw [none] at read; cases read
    | cons b bs =>
      obtain ⟨byte, rfl⟩ := spelled read
      rw [byte]
      exact ⟨rfl, trivial⟩
  case early =>
    intro a _ front gap short whole
    have lengths := congrArg List.length whole
    have some := List.length_pos_iff.2 short
    rw [List.length_append, one] at lengths
    rw [List.eq_nil_of_length_eq_zero (by omega : front.length = 0)]
    exact none

/-- A byte is read as it is. -/
theorem exact_u8 : u8.Exact (fun _ => True) := by
  refine exact_of_byte (fun _ => rfl) rfl (fun _ _ => rfl) ?_
  intro b bs a rest read
  cases read
  exact ⟨rfl, rfl⟩

/-- Of the 256 bytes two are flags. -/
theorem exact_bool : bool.Exact (fun _ => True) := by
  refine exact_of_byte (fun _ => rfl) rfl ?_ ?_
  · rintro (_ | _) rest <;> rfl
  · intro b bs a rest read
    unfold bool at read
    dsimp only at read
    split at read
    case isTrue zero => cases read; subst zero; exact ⟨rfl, rfl⟩
    case isFalse =>
      split at read
      case isTrue one => cases read; subst one; exact ⟨rfl, rfl⟩
      case isFalse => cases read

/-- Of the 256 bytes three are kinds. -/
theorem exact_voteKind : voteKind.Exact (fun _ => True) := by
  refine exact_of_byte ?_ rfl ?_ ?_
  · rintro (_ | _ | _) <;> rfl
  · rintro (_ | _ | _) rest <;> rfl
  · intro b bs kind rest read
    unfold voteKind at read
    dsimp only at read
    split at read
    case isTrue zero => cases read; subst zero; exact ⟨rfl, rfl⟩
    case isFalse =>
      split at read
      case isTrue one => cases read; subst one; exact ⟨rfl, rfl⟩
      case isFalse =>
        split at read
        case isTrue two => cases read; subst two; exact ⟨rfl, rfl⟩
        case isFalse => cases read

/-- Octets are the little-endian bytes of the number they spell. -/
theorem littleEndian_octets {n : Nat} (o : Octets n) :
    littleEndian n (ofLittleEndian o.bytes) = o.bytes
      ∧ ofLittleEndian o.bytes < byteRange n := by
  obtain ⟨bytes, rfl⟩ := o
  exact ⟨littleEndian_ofLittleEndian bytes, ofLittleEndian_lt bytes⟩

/-- A word of 32 bits is its four bytes. -/
theorem exact_u32 : u32.Exact (fun _ => True) := by
  refine (exact_octets 4).map (fun _ => Iff.rfl) ?_ ?_
  · exact ofLittleEndian_u32
  · intro o
    obtain ⟨same, fits⟩ := littleEndian_octets o
    have kept : (UInt32.ofNat (ofLittleEndian o.bytes)).toNat = ofLittleEndian o.bytes :=
      UInt32.toNat_ofNat_of_lt fits
    obtain ⟨bytes, length⟩ := o
    simp only [kept, same]

/-- A word of 64 bits is its eight bytes. -/
theorem exact_u64 : u64.Exact (fun _ => True) := by
  refine (exact_octets 8).map (fun _ => Iff.rfl) ?_ ?_
  · exact ofLittleEndian_u64
  · intro o
    obtain ⟨same, fits⟩ := littleEndian_octets o
    have kept : (UInt64.ofNat (ofLittleEndian o.bytes)).toNat = ofLittleEndian o.bytes :=
      UInt64.toNat_ofNat_of_lt fits
    obtain ⟨bytes, length⟩ := o
    simp only [kept, same]

/-- A signed word is the unsigned one of the same bits. -/
theorem exact_i64 : i64.Exact (fun _ => True) :=
  exact_u64.map (fun _ => Iff.rfl) Int64.toInt64_toUInt64 UInt64.toUInt64_toInt64

/-- Addresses are octets with another name. -/
theorem exact_address : address.Exact (fun _ => True) :=
  (exact_octets 32).map (fun _ => Iff.rfl) (fun _ => rfl) (fun _ => rfl)

theorem exact_blockHash : blockHash.Exact (fun _ => True) :=
  (exact_octets 32).map (fun _ => Iff.rfl) (fun _ => rfl) (fun _ => rfl)

-- =============================================================== lists

/-- A number of values one behind the other, the number known. -/
def many (f : Layout α) (count : Nat) : Layout (List α) where
  write as := as.flatMap f.write
  read := readMany f.read count

/-- By induction on the number, since each value only has to leave the next ones
their bytes. -/
theorem Exact.many {f : Layout α} {F : α → Prop} (h : f.Exact F) (count : Nat) :
    (f.many count).Exact (fun as => as.length = count ∧ ∀ a ∈ as, F a) := by
  induction count with
  | zero =>
    constructor
    case restores =>
      rintro as ⟨none, -⟩ rest
      rw [List.eq_nil_of_length_eq_zero none]
      rfl
    case spelled =>
      intro bs as rest read
      cases read
      exact ⟨rfl, rfl, fun _ absent => nomatch absent⟩
    case early =>
      rintro as ⟨none, -⟩ front gap short whole
      rw [List.eq_nil_of_length_eq_zero none] at whole
      exact absurd (List.append_eq_nil_iff.1 whole).2 short
  | succ count ih =>
    -- one value and then `count` more, as in a pair
    constructor
    case restores =>
      rintro as ⟨counted, fits⟩ rest
      obtain ⟨a, as, rfl⟩ := List.exists_cons_of_length_eq_add_one counted
      obtain ⟨fa, fits⟩ := List.forall_mem_cons.1 fits
      have behind := ih.restores ⟨Nat.succ.inj counted, fits⟩ rest
      simp only [Layout.many] at behind ⊢
      unfold readMany
      rw [List.flatMap_cons, List.append_assoc, h.restores fa]
      dsimp only
      rw [behind]
    case spelled =>
      intro bs as rest read
      simp only [Layout.many] at read ⊢
      unfold readMany at read
      split at read
      case h_1 => cases read
      case h_2 a behind first =>
        split at read
        case h_1 => cases read
        case h_2 as' rest' more =>
          cases read
          obtain ⟨rfl, fa⟩ := h.spelled first
          obtain ⟨rfl, counted, fits⟩ := ih.spelled more
          refine ⟨?_, congrArg Nat.succ counted, List.forall_mem_cons.2 ⟨fa, fits⟩⟩
          rw [List.flatMap_cons, List.append_assoc]
          rfl
    case early =>
      rintro as ⟨counted, fits⟩ front gap short whole
      obtain ⟨a, as, rfl⟩ := List.exists_cons_of_length_eq_add_one counted
      obtain ⟨fa, fits⟩ := List.forall_mem_cons.1 fits
      simp only [Layout.many] at whole ⊢
      rw [List.flatMap_cons] at whole
      unfold readMany
      rcases ends_early whole with ⟨missing, some, first⟩ | ⟨tail, rfl, second⟩
      · rw [h.early fa some first]
      · have behind := ih.early ⟨Nat.succ.inj counted, fits⟩ short second
        simp only [Layout.many] at behind
        rw [h.restores fa]
        dsimp only
        rw [behind]

/-- A count that did not wrap around, and then the values. -/
theorem Exact.list {f : Layout α} {F : α → Prop} (h : f.Exact F) :
    f.list.Exact (fun as => as.length < UInt32.size ∧ ∀ a ∈ as, F a) := by
  have counted : ∀ {as : List α}, as.length < UInt32.size →
      (UInt32.ofNat as.length).toNat = as.length := UInt32.toNat_ofNat_of_lt
  constructor
  case restores =>
    rintro as ⟨short, fits⟩ rest
    have items := (h.many as.length).restores ⟨rfl, fits⟩ rest
    simp only [Layout.many] at items
    unfold Layout.list
    dsimp only
    rw [List.append_assoc, restores_u32]
    dsimp only
    rw [counted short, items]
  case spelled =>
    intro bs as rest read
    unfold Layout.list at read ⊢
    dsimp only at read ⊢
    split at read
    case h_1 => cases read
    case h_2 count behind first =>
      obtain ⟨rfl, -⟩ := exact_u32.spelled first
      obtain ⟨rfl, length, fits⟩ := (h.many count.toNat).spelled read
      refine ⟨?_, ?_, fits⟩
      · rw [length, UInt32.ofNat_toNat, List.append_assoc]
        rfl
      -- the count that was read is below the limit, being a word
      · rw [length]
        exact count.toNat_lt
  case early =>
    rintro as ⟨short, fits⟩ front gap some whole
    unfold Layout.list at whole ⊢
    dsimp only at whole ⊢
    rcases ends_early whole with ⟨missing, some, first⟩ | ⟨tail, rfl, second⟩
    -- cut within the count, or within the values
    · rw [exact_u32.early trivial some first]
    · have items := (h.many as.length).early ⟨rfl, fits⟩ some second
      simp only [Layout.many] at items
      rw [restores_u32]
      dsimp only
      rw [counted short, items]

/-- A byte string fits if its length does. -/
theorem exact_bytes : bytes.Exact (fun bs => bs.length < UInt32.size) :=
  exact_u8.list.of_iff fun _ => ⟨fun short => ⟨short, fun _ _ => trivial⟩, And.left⟩

end Quorum.Wire.Layout
